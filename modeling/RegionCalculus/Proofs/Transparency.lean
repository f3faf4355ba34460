import RegionCalculus.Proofs.Afresh
import RegionCalculus.Proofs.Futures
import RegionCalculus.Proofs.Observers

/-!
# Sessions that keep nothing answer the same

While no system of a utility changes, it makes no difference that utilities and regions keep results: a
session that computes everything anew answers every command in the same way, except that a region is
shown with its marking once that is derived.

* `View.bare`: the view that forgets all that is kept.
* `Session.Tuned s`: what utilities and regions keep is what would be computed, and every tree that a
  slot refers to is kept.
* `Session.perform_afresh`: one command, in a session and in one that looks the same and keeps nothing.
* `Session.Unmodified cs s`: no command of `cs` changes the system of a utility.
* `Session.run_afresh`: a whole session.
-/

namespace RegionCalculus
set_option autoImplicit false

open Attempt

/-! ## Sessions with nothing kept -/

def View.bare : View where
  utility := RegionUtility.forget
  region := Region.forget
  system_eq := fun _ => rfl
  events_eq := fun _ => rfl
  owner_eq := fun _ => rfl
  weights_eq := fun _ => rfl

theorem Region.start?_congr {R R' : Region} (h : View.bare.region R = View.bare.region R')
    (S : System) (events : List String) : R.start? S events = R'.start? S events := by
  obtain ⟨_, hweights, hgiven, _⟩ := Region.mk.inj h
  rw [start?, start?, hweights, hgiven]

/-! ## Derivations in step -/

theorem Region.derives_inStep {S : System} {h h' : Holding}
    (hd : Relation.ReflTransGen (Holding.Derive S) h h') (hU : h.utility.InStep S)
    (hR : Region.InStep S h.utility.events h.region) :
    Region.InStep S h'.utility.events h'.region := by
  induction hd with
  | refl => exact hR
  | tail hprev hstep ih => exact ih.derive hstep (hU.fills (fills_of_derives hprev))

namespace Session

variable {s s' : Session}

theorem session_forget (s : Session) : View.bare.session s.forget = View.bare.session s := by
  simp only [forget, View.session, View.bare, List.map_map]
  rfl

/-! ## Tuned sessions -/

structure Tuned (s : Session) : Prop where
  sound : s.Sound
  rooted : s.Rooted
  utilities : ∀ u p, s.utility? u = some p → p.utility.InStep p.system
  regions : ∀ r p, s.region? r = some p →
    Region.InStep p.system p.holding.utility.events p.holding.region
  trees : ∀ name u, s.slots.lookup name = some (.treeOf u) → s.HasTree u

theorem tuned_empty : Tuned {} where
  sound := sound_empty
  rooted := fun _ hU => absurd hU List.not_mem_nil
  utilities := fun _ _ hp => by cases hp
  regions := fun _ _ hp => by cases hp
  trees := fun _ _ h => by cases h

theorem Touch.hasTree (h : Touch s s') (hs : s.Rooted) {u : UtilityId} (hu : s.HasTree u) :
    s'.HasTree u := by
  obtain ⟨p, hp, htree⟩ := hu
  obtain ⟨t, ht⟩ := Option.isSome_iff_exists.1 htree
  obtain ⟨p', hp', hbecomes⟩ := h.utility? hs hp
  exact ⟨p', hp', by rw [hbecomes.tree t ht]; rfl⟩

theorem Touch.treeOf_cases (h : Touch s s') {name : SlotName} {u : UtilityId}
    (hslot : s'.slots.lookup name = some (.treeOf u)) :
    s.slots.lookup name = some (.treeOf u) ∨ s.HasTree u := by
  cases h with
  | slots hslots => exact hslots name u hslot
  | _ => exact .inl hslot

theorem Touch.tuned (h : Touch s s') (hs : s.Tuned) : s'.Tuned where
  sound := h.sound hs.sound
  rooted := h.rooted hs.rooted
  utilities := fun u p hp => by
    rcases h.utility?_cases hs.rooted hp with ⟨U, hU, hfills⟩ | ⟨_, hblank⟩
    · have hbefore : U.InStep p.system := hs.utilities u _ hU
      exact hbefore.fills hfills
    · exact hblank.inStep
  regions := fun r p hp => by
    rcases h.region?_cases hs.sound hs.rooted hp with ⟨h₀, hold, hd⟩ | ⟨_, hfresh⟩
    · have hU := hs.utilities _ _ (region?_eq_some_iff.1 hold).2.2
      exact Region.derives_inStep hd hU (hs.regions r _ hold)
    · exact hfresh.inStep
  trees := fun name u hslot => by
    rcases h.treeOf_cases hslot with hold | hu
    · exact h.hasTree hs.rooted (hs.trees name u hold)
    · exact h.hasTree hs.rooted hu

theorem Tuned.touches (hs : s.Tuned) (h : Relation.ReflTransGen Touch s s') : s'.Tuned := by
  induction h with
  | refl => exact hs
  | tail _ hstep ih => exact hstep.tuned ih

/-- A system that belongs to no utility may grow. -/
theorem Tuned.setSystem (hs : s.Tuned) {i : SystemId} {S S' : System}
    (hS : s.systems[i]? = some S) (hgrows : S.Grows S')
    (hsame : ∀ u T, s.systemOf u = some T → (s.setSystem i S').systemOf u = some T) :
    (s.setSystem i S').Tuned := by
  have hbefore : ∀ u p, (s.setSystem i S').utility? u = some p → s.utility? u = some p := by
    intro u p hp
    obtain ⟨T, hT, _⟩ := utility?_setSystem hS hgrows hp
    have hafter := (hsame u T (systemOf_of_utility? hT)).symm.trans (systemOf_of_utility? hp)
    rw [hT, Option.some.inj hafter]
  refine ⟨hs.sound.setSystem hS hgrows, ?_, fun u p hp => hs.utilities u p (hbefore u p hp),
    fun r p hp => ?_, fun name u hslot => ?_⟩
  · intro U hU
    rw [Session.setSystem, List.length_set]
    exact hs.rooted U hU
  · obtain ⟨hid, hR, hU⟩ := region?_eq_some_iff.1 hp
    exact hs.regions r p (region?_eq_some_iff.2 ⟨hid, hR, hbefore _ _ hU⟩)
  · obtain ⟨p, hp, htree⟩ := hs.trees name u hslot
    obtain ⟨T, hT, _⟩ := utility?_of_setSystem hS hgrows hp
    exact ⟨_, hT, htree⟩

theorem Tuned.step (hs : s.Tuned) (watched : Bool) (c : Command)
    (hsame : ∀ u S, s.systemOf u = some S → (step watched c s).2.systemOf u = some S) :
    (step watched c s).2.Tuned := by
  rcases perform_cases watched c s with hleads | ⟨i, S, S', hS, hgrows, hstate⟩
  · exact hs.touches hleads
  · have hafter : (Session.step watched c s).2 = s.setSystem i S' := hstate
    rw [hafter] at hsame ⊢
    exact hs.setSystem hS hgrows hsame

/-! ## Objects -/

section Objects

variable {α γ : Type} {e : Except Fault α}

theorem onUtility_afresh {p : PlacedUtility} {x : Attempt RegionUtility α}
    (hview : View.bare.session s = View.bare.session s') (hp : s.utility? p.id = some p)
    (hx : x.Leads (RegionUtility.Fill p.system) p.utility) (he : (x p.utility).answer = e) :
    Alike View.bare.session (onUtility p x) (Attempt.ofExcept e) s s' := by
  refine ⟨he, ?_⟩
  have hbare : View.bare.utility (x p.utility).state = View.bare.utility p.utility := by
    obtain ⟨hsystem, hevents⟩ := RegionUtility.fills_frame hx
    simp only [View.bare, RegionUtility.forget, hsystem, hevents]
  change View.bare.session (s.setUtility p.id (x p.utility).state) = View.bare.session s'
  rw [View.session_setUtility, hbare, ← View.session_setUtility, setUtility_self hp, hview]

theorem onRegion_afresh {p : PlacedRegion} {x : Attempt Holding α}
    (hview : View.bare.session s = View.bare.session s') (hp : s.region? p.id = some p)
    (hx : x.Leads (Holding.Derive p.system) p.holding) (he : (x p.holding).answer = e) :
    Alike View.bare.session (onRegion p x) (Attempt.ofExcept e) s s' := by
  refine ⟨he, ?_⟩
  obtain ⟨_, _, hU⟩ := region?_eq_some_iff.1 hp
  obtain ⟨hutility, hweights, hgiven, hsystem, hevents⟩ := Region.derives_frame hx
  have hR : View.bare.region (x p.holding).state.region = View.bare.region p.holding.region := by
    simp only [View.bare, Region.forget, hutility, hweights, hgiven]
  have hbare : View.bare.utility (x p.holding).state.utility =
      View.bare.utility p.holding.utility := by
    simp only [View.bare, RegionUtility.forget, hsystem, hevents]
  change View.bare.session ((s.setRegion p.id (x p.holding).state.region).setUtility p.owner.id
    (x p.holding).state.utility) = View.bare.session s'
  rw [View.session_setUtility, View.session_setRegion, hR, hbare, ← View.session_setRegion,
    setRegion_self hp, ← View.session_setUtility, setUtility_self (p := p.owner) hU, hview]

theorem treeAt_afresh {name : SlotName} {k l : WrittenTree → Attempt Session γ} (hs : s.Tuned)
    (hview : View.bare.session s = View.bare.session s')
    (hk : ∀ t, Alike View.bare.session (k t) (l t) s s') :
    Alike View.bare.session (treeAt name >>= k) (lookup treeOfAfresh? name >>= l) s s' := by
  obtain ⟨_, htrees, _⟩ := View.session_eq hview
  refine View.lookup_alike id hview (fun r hr => ?_) fun r a a' _ _ _ ha => ?_
  · cases r with
    | tree i => simp [treeOf?, treeOfAfresh?, htrees]
    | treeOf u =>
      -- the slot would be empty if the utility kept no tree
      obtain ⟨p, hp, htree⟩ := hs.trees name u hr
      obtain ⟨t, ht⟩ := Option.isSome_iff_exists.1 htree
      have hmap := View.utility?_map hview u
      rw [hp, Option.map_some, eq_comm, Option.map_eq_some_iff] at hmap
      obtain ⟨p', hp', heq⟩ := hmap
      have hsystem : p'.system = p.system := (View.placedUtility_eq heq).2.2
      obtain ⟨_, hU, _⟩ := utility?_eq_some_iff.1 hp
      have hbuilt := (hs.utilities u p hp).tree t ht
      simp only [treeOf?, treeOfAfresh?, hU, hp', Option.bind_some, ht, hsystem, hbuilt]
      rfl
    | _ => rfl
  · rw [show a' = a from ha.symm]
    exact hk a

end Objects

/-! ## Commands to utilities and regions -/

theorem tellUtility_afresh {p p' : PlacedUtility} (hs : s.Tuned)
    (hview : View.bare.session s = View.bare.session s') (hp : s.utility? p.id = some p)
    (heq : View.bare.placedUtility p = View.bare.placedUtility p') (c : UtilityCommand) :
    Alike View.bare.session (tellUtility p c) (tellUtilityAfresh p' c) s s' := by
  have hU := hs.utilities _ _ hp
  have heq' := heq
  obtain ⟨u, U, S⟩ := p
  obtain ⟨u', ⟨i', events', _, _, _⟩, S'⟩ := p'
  obtain ⟨rfl, hutility, rfl⟩ := View.placedUtility_eq heq
  obtain ⟨rfl, rfl⟩ := View.utility_eq hutility
  cases c with
  | tree slot =>
    exact (onUtility_afresh hview hp (RegionUtility.spanningTree_leads S U)
      hU.spanningTree_answer).bind fun _ h => (View.keep_alike slot _ h).bind fun _ h' => .pure h' _
  | reachable =>
    exact (onUtility_afresh hview hp (RegionUtility.reachableStates_leads S U)
      hU.reachableStates_afresh).bind fun _ h => .pure h _
  | unreachable =>
    exact (onUtility_afresh hview hp (RegionUtility.unreachableStates_leads S U)
      hU.unreachableStates_afresh).bind fun _ h => .pure h _
  | lookupVector id =>
    refine (onUtility_afresh hview hp (RegionUtility.lookupVector_leads S id U)
      (hU.lookupVector_afresh id)).bind fun found h => ?_
    cases found <;> exact .pure h _
  | reachingVector id =>
    exact (onUtility_afresh hview hp (RegionUtility.reachingVector_leads S id U)
      (hU.reachingVector_afresh id)).bind fun _ h => .pure h _
  | parikhMatrix =>
    exact (onUtility_afresh hview hp (RegionUtility.parikhRows_leads S U)
      hU.parikhRows_afresh).bind fun _ h => .pure h _
  | cycleMatrix =>
    exact (onUtility_afresh hview hp (RegionUtility.cycleRows_leads S U)
      hU.cycleRows_afresh).bind fun _ h => .pure h _
  | cycleVectors =>
    exact (onUtility_afresh hview hp (RegionUtility.writtenCycleVectors_leads S U)
      hU.writtenCycleVectors_afresh).bind fun _ h => .pure h _
  | _ => exact View.tellUtility_alike heq' rfl hview

theorem tellRegion_afresh_of_hidden {p p' : PlacedRegion} (hs : s.Tuned)
    (hview : View.bare.session s = View.bare.session s') (hp : s.region? p.id = some p)
    (heq : View.bare.placedRegion p = View.bare.placedRegion p') {c : RegionCommand}
    (hc : c.shows = false) :
    Alike View.bare.session (tellRegion false p c) (tellRegionAfresh p' c) s s' := by
  have hR := hs.regions _ _ hp
  have howner := (region?_eq_some_iff.1 hp).2.2
  have hU := hs.utilities _ _ howner
  have hS := hs.sound.valid _ (List.mem_of_getElem? (utility?_eq_some_iff.1 howner).2.2)
  have heq' := heq
  obtain ⟨r, ⟨R, U⟩, S⟩ := p
  obtain ⟨r', ⟨⟨u', w', given', _, _⟩, ⟨i', events', _, _, _⟩⟩, S'⟩ := p'
  obtain ⟨rfl, hregion, hutility, rfl⟩ := View.placedRegion_eq heq
  obtain ⟨rfl, rfl⟩ := View.utility_eq hutility
  obtain ⟨rfl, rfl, rfl, _⟩ := Region.mk.inj hregion
  have hstart : (Region.initialMarking S ⟨R, U⟩).answer = R.start? S U.events :=
    hR.initialMarking_answer hU
  cases c with
  | isConsistent =>
    have hanswer : (Region.isConsistent S ⟨R, U⟩).answer =
        S.consistent? U.events R.weights.net := by
      rw [Region.isConsistent_eq, Region.ask_answer]
      exact hU.isConsistent_answer _
    exact (onRegion_afresh hview hp (Region.isConsistent_leads S _) hanswer).bind fun _ h =>
      .pure h _
  | initialMarking =>
    exact (onRegion_afresh hview hp (Region.initialMarking_leads S _) hstart).bind fun _ h =>
      .pure h _
  | normalMarking =>
    have hanswer : (Region.normalMarking S ⟨R, U⟩).answer =
        S.normalMarking? U.events R.weights.net := by
      rw [Region.normalMarking_eq, Region.ask_answer]
      exact hU.normalMarkingFor_answer _
    exact (onRegion_afresh hview hp (Region.normalMarking_leads S _) hanswer).bind fun _ h =>
      .pure h _
  | markingOf id =>
    exact (onRegion_afresh hview hp (Region.markingOf_leads S id _)
      (hR.markingOf_afresh hU hS id)).bind fun _ h => .pure h _
  | addScaled other factor slot =>
    have hfactor : factor.integer? .factor ≠ .ok 0 := fun h => by simp [RegionCommand.shows, h] at hc
    have hadd := View.addOperand_alike heq' id (fun h => absurd h hfactor) other slot hview
    simp only [id, bind_pure] at hadd
    exact hadd
  | purify slot =>
    exact (onUtility_afresh hview howner (R.purified_leads S false U) (hU.purified_afresh R)).bind
      fun R' h => View.produce_alike R' slot h
  | showEvents =>
    exact (onRegion_afresh hview hp (Region.initialMarking_leads S _) hstart).bind fun _ h =>
      .pure h _
  | «show» => cases hc
  | _ => exact View.tellRegion_alike heq' false false rfl hview

/-- Regions that look the same are shown the same, but for a marking that is not given. -/
theorem shown_bare {p p' : PlacedRegion} {on : SlotName} {c : RegionCommand} (hc : c.shows = true)
    (hon : s.regionIn? on = some p) (heq : View.bare.placedRegion p = View.bare.placedRegion p') :
    (Command.toRegion on c).seen s (.text p.holding.region.shown) =
      (Command.toRegion on c).seen s (.text p'.holding.region.shown) := by
  obtain ⟨_, hregion, _⟩ := View.placedRegion_eq heq
  have hweights := (View.region_eq hregion).2
  have hgiven : p.holding.region.given = p'.holding.region.given := (Region.mk.inj hregion).2.2.1
  simp only [Command.seen, hc, leavesMarking_of_regionIn? hon, Bool.true_and]
  cases h : p.holding.region.given with
  | none => exact Region.unmarked_shown_congr hweights
  | some m =>
    have hmarking : p.holding.region.marking? = p'.holding.region.marking? := by
      rw [Region.marking?, Region.marking?, ← hgiven, h]
      rfl
    exact congrArg Answer.text (Region.shown_congr hweights hmarking)

theorem tellRegion_afresh {p p' : PlacedRegion} {on : SlotName} (hs : s.Tuned)
    (hview : View.bare.session s = View.bare.session s')
    (hslot : s.slots.lookup on = some (.region p.id)) (hp : s.region? p.id = some p)
    (heq : View.bare.placedRegion p = View.bare.placedRegion p') (c : RegionCommand) :
    Alike View.bare.session
      (tellRegion false p c >>= fun a => pure ((Command.toRegion on c).seen s a))
      (tellRegionAfresh p' c >>= fun a => pure ((Command.toRegion on c).seen s a)) s s' := by
  have hon : s.regionIn? on = some p := regionIn?_eq_some_iff.2 ⟨hslot, hp⟩
  cases hc : c.shows with
  | false =>
    exact (tellRegion_afresh_of_hidden hs hview hp heq hc).bind fun a h => .pure h _
  | true =>
    have hshown := shown_bare hc hon heq
    cases c with
    | «show» =>
      refine ⟨?_, hview⟩
      exact congrArg Except.ok hshown
    | addScaled other factor slot =>
      exact View.addOperand_alike heq _ (fun _ => hshown) other slot hview
    | _ => cases hc

/-! ## Comparisons -/

theorem initialMarking_afresh {p p' : PlacedRegion} (hs : s.Tuned)
    (hview : View.bare.session s = View.bare.session s') (hp : s.region? p.id = some p)
    (heq : View.bare.placedRegion p = View.bare.placedRegion p') :
    Alike View.bare.session (onRegion p (Region.initialMarking p.system))
      (Attempt.ofExcept p'.start?) s s' := by
  have howner := (region?_eq_some_iff.1 hp).2.2
  have hanswer : (Region.initialMarking p.system p.holding).answer = p.start? :=
    (hs.regions _ _ hp).initialMarking_answer (hs.utilities _ _ howner)
  obtain ⟨_, hregion, hutility, hsystem⟩ := View.placedRegion_eq heq
  have hstart : p.start? = p'.start? := by
    rw [PlacedRegion.start?, PlacedRegion.start?, Region.start?_congr hregion, hsystem,
      (View.utility_eq hutility).2]
  exact onRegion_afresh hview hp (Region.initialMarking_leads _ _) (hanswer.trans hstart)

theorem markingOfRegion_afresh {r : RegionId} {p : PlacedRegion} (hs : s.Tuned)
    (hview : View.bare.session s = View.bare.session s')
    (hp : (s'.region? r).map View.bare.placedRegion = some (View.bare.placedRegion p)) :
    Alike View.bare.session (markingOfRegion r) (Attempt.ofExcept p.start?) s s' := by
  rw [← View.region?_map hview, Option.map_eq_some_iff] at hp
  obtain ⟨q, hq, heq⟩ := hp
  obtain ⟨rfl, _⟩ := region?_eq_some_iff.1 hq
  unfold Alike
  rw [markingOfRegion_eq hq]
  exact initialMarking_afresh hs hview hq heq

theorem equalRegions_afresh {p p' q q' : PlacedRegion} (hs : s.Tuned)
    (hview : View.bare.session s = View.bare.session s')
    (hp : s.region? p.id = some p) (hp' : View.bare.placedRegion p = View.bare.placedRegion p')
    (hq : s.region? q.id = some q) (hq' : View.bare.placedRegion q = View.bare.placedRegion q') :
    Alike View.bare.session (equalRegions p q) (Attempt.ofExcept (equalRegions? p' q')) s s' := by
  obtain ⟨hpid, hpregion, _⟩ := View.placedRegion_eq hp'
  obtain ⟨hqid, hqregion, _⟩ := View.placedRegion_eq hq'
  obtain ⟨hputility, hpweights⟩ := View.region_eq hpregion
  obtain ⟨hqutility, hqweights⟩ := View.region_eq hqregion
  have hfound : (s'.region? p.id).map View.bare.placedRegion =
      some (View.bare.placedRegion p') := by
    rw [← View.region?_map hview, hp, Option.map_some, hp']
  have hfound' : (s'.region? q.id).map View.bare.placedRegion =
      some (View.bare.placedRegion q') := by
    rw [← View.region?_map hview, hq, Option.map_some, hq']
  unfold equalRegions equalRegions?
  rw [← hpid, ← hqid, ← hputility, ← hqutility, ← hpweights, ← hqweights]
  split
  · exact .pure hview _
  · split
    · rw [ofExcept_bind]
      refine (markingOfRegion_afresh hs hview hfound').bind fun m h => ?_
      -- the first marking may have filled the utility that both regions share
      have hafter := hs.touches (markingOfRegion_leads q.id s)
      rw [ofExcept_bind]
      exact (markingOfRegion_afresh hafter h hfound).bind fun n h' => .pure h' _
    · exact .pure hview _

theorem equal_afresh (left right : Operand) (hs : s.Tuned)
    (hview : View.bare.session s = View.bare.session s') :
    Alike View.bare.session (equal left right) (equalAfresh left right) s s' := by
  refine View.operand_alike left hview fun a a' ha hleft => ?_
  refine View.operand_alike right hview fun b b' hb hright => ?_
  cases ha with
  | value v => cases hb <;> exact .pure hview _
  | object r => cases hb <;> exact .pure hview _
  | region hp =>
    cases hb with
    | value v => exact .pure hview _
    | object r => exact .pure hview _
    | region hq =>
      exact equalRegions_afresh hs hview (hleft _ rfl) hp (hright _ rfl) hq

theorem identity_afresh (name : SlotName) (hs : s.Tuned)
    (hview : View.bare.session s = View.bare.session s') :
    Alike View.bare.session (identity name) (identityAfresh name) s s' := by
  refine View.regionAt_alike hview fun p p' _ hp _ heq => ?_
  obtain ⟨_, hregion, _⟩ := View.placedRegion_eq heq
  obtain ⟨hutility, hweights⟩ := View.region_eq hregion
  rw [hutility, hweights]
  exact (initialMarking_afresh hs hview hp heq).bind fun _ h => .pure h _

theorem identities_afresh (items : List SlotName) (hs : s.Tuned)
    (hview : View.bare.session s = View.bare.session s') :
    Alike View.bare.session (items.mapM identity) (items.mapM identityAfresh) s s' := by
  induction items generalizing s s' with
  | nil => exact .pure hview []
  | cons name items ih =>
    rw [List.mapM_cons, List.mapM_cons]
    have hafter := hs.touches (identity_leads name s)
    exact (identity_afresh name hs hview).bind fun _ h => (ih hafter h).bind fun _ h' =>
      .pure h' _

/-! ## All commands -/

theorem finishNormal_afresh {p p' : PlacedBuilder} (hs : s.Tuned)
    (hview : View.bare.session s = View.bare.session s') (hp : s.utility? p.owner.id = some p.owner)
    (heq : View.bare.placedBuilder p = View.bare.placedBuilder p') (slot : Keep) :
    Alike View.bare.session (tellBuilder false p (.finishNormal slot))
      (Attempt.ofExcept (p'.builder.finishNormal? p'.system p'.utility.events) >>= fun R =>
        produce R slot) s s' := by
  have hU := hs.utilities _ _ hp
  obtain ⟨_, hbuilder, hutility, hsystem⟩ := View.placedBuilder_eq heq
  rw [← hbuilder, ← hsystem, ← (View.utility_eq hutility).2]
  exact (onUtility_afresh (p := p.owner) hview hp
    (Builder.finishNormal_leads _ p.system false p.utility) (hU.finishNormal_afresh _)).bind
      fun R h => View.produce_alike R slot h

/-- A command, in a session and in one that looks the same and keeps nothing. -/
theorem perform_afresh (hs : s.Tuned) (hview : View.bare.session s = View.bare.session s')
    (c : Command) :
    Alike View.bare.session (perform false c >>= fun a => pure (c.seen s a))
      (performAfresh c >>= fun a => pure (c.seen s a)) s s' := by
  cases c with
  | toRegion on command =>
    simp only [perform, performAfresh, bind_assoc]
    exact View.regionAt_alike hview fun p p' hslot hp _ heq =>
      tellRegion_afresh hs hview hslot hp heq command
  | cycleBasis system tree =>
    refine Alike.bind ?_ fun _ h => .pure h _
    cases tree with
    | none => exact View.perform_alike false false rfl hview
    | some name =>
      exact View.systemAt_alike hview fun _ S => treeAt_afresh hs hview fun t =>
        View.basis_alike t S hview
  | toTree on command =>
    refine Alike.bind ?_ fun _ h => .pure h _
    exact treeAt_afresh hs hview fun t => View.tellTree_alike t command hview
  | toUtility on command =>
    refine Alike.bind ?_ fun _ h => .pure h _
    exact View.utilityAt_alike hview fun p p' hp _ heq => tellUtility_afresh hs hview hp heq command
  | equal left right =>
    refine Alike.bind ?_ fun _ h => .pure h _
    exact (equal_afresh left right hs hview).bind fun _ h => .pure h _
  | distinct items =>
    refine Alike.bind ?_ fun _ h => .pure h _
    exact ((identities_afresh items hs hview).bind fun _ h => .pure h _).bind fun _ h => .pure h _
  | toBuilder on command =>
    refine Alike.bind ?_ fun _ h => .pure h _
    cases command with
    | finishNormal slot =>
      exact View.builderAt_alike hview fun b p p' hp _ heq =>
        finishNormal_afresh hs hview (builder?_eq_some_iff.1 hp).2.2 heq slot
    | _ => exact View.perform_alike false false rfl hview
  | _ => exact (View.perform_alike false false rfl hview).bind fun _ h => .pure h _

/-! ## Sessions -/

/-- No command changes the system of a utility. -/
def Unmodified : List Command → Session → Prop
  | [], _ => True
  | c :: cs, s =>
    (∀ u S, s.systemOf u = some S → (step false c s).2.systemOf u = some S) ∧
      Unmodified cs (step false c s).2

theorem unmodified_of_noSystemCommand (cs : List Command) (s : Session)
    (h : ∀ c ∈ cs, ∀ on command, c ≠ .toSystem on command) : Unmodified cs s := by
  induction cs generalizing s with
  | nil => trivial
  | cons c cs ih =>
    obtain ⟨hc, hcs⟩ := List.forall_mem_cons.1 h
    exact ⟨fun u S hS => systemOf_of_touches (perform_leads hc false s) hS, ih _ hcs⟩

/-- Sessions that look the same, one of which keeps nothing. -/
theorem run_seen_alike (cs : List Command) (h : Unmodified cs s) (hs : s.Tuned)
    (hview : View.bare.session s = View.bare.session s') :
    Command.allSeen cs s ((run false cs s).1.map Result.answer) =
      Command.allSeen cs s (runAfresh cs s') := by
  induction cs generalizing s s' with
  | nil => rfl
  | cons c cs ih =>
    obtain ⟨hsame, hrest⟩ := h
    -- only what is seen of the two sessions agrees, and that is all that the next command needs
    obtain ⟨hanswer, hafter⟩ := perform_afresh hs hview c
    rw [answer_bind_pure, answer_bind_pure] at hanswer
    rw [state_bind_pure, state_bind_pure] at hafter
    have hforgotten := hafter.trans (session_forget _).symm
    exact congrArg₂ List.cons hanswer (ih hrest (hs.step false c hsame) hforgotten)

theorem run_afresh (cs : List Command) (h : Unmodified cs {}) :
    Command.allSeen cs {} ((run false cs {}).1.map Result.answer) =
      Command.allSeen cs {} (runAfresh cs {}) :=
  run_seen_alike cs h tuned_empty rfl

/-- Queries to the ring, some of them for states that cannot be reached or do not exist. -/
def ringQueries : List Command :=
  [.toRegion "region" .show, .toRegion "region" (.markingOf (.text "s3")),
    .toUtility "utility" (.lookupVector (.text "s9")), .toUtility "utility" .cycleVectors,
    .toRegion "region" (.markingOf (.text "s1")), .toRegion "region" (.markingOf (.text "s1")),
    .toRegion "region" .isConsistent, .toRegion "region" (.withMarking (.integer 1) (some "other")),
    .equal (.slot "region") (.slot "other"), .toRegion "region" .show]

theorem run_afresh_ring : Unmodified (ringCommands ++ ringQueries) {} ∧
    Command.allSeen (ringCommands ++ ringQueries) {}
        ((run false (ringCommands ++ ringQueries) {}).1.map Result.answer) =
      Command.allSeen (ringCommands ++ ringQueries) {}
        (runAfresh (ringCommands ++ ringQueries) {}) := by
  have hcs : Unmodified (ringCommands ++ ringQueries) {} :=
    unmodified_of_noSystemCommand _ _ (by simp [ringCommands, ringQueries])
  exact ⟨hcs, run_afresh _ hcs⟩

end Session

end RegionCalculus
