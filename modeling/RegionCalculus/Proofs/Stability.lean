import RegionCalculus.Proofs.Futures
import RegionCalculus.Proofs.CycleVectors
import RegionCalculus.Proofs.Nonnegativity

/-!
# Answers that outlast the growth of a system

Once a utility has its Parikh vectors, they are those of the system as it was, and what is answered
from them does not change however the system grows.

* `Session.Told s o c a`: on the way to `s`, the object `o` was told `c` and answered `a`.
* `Session.Outlook`: what a utility and its regions are going to answer.
* `Session.Bears o u p s'`: in `s'` they answer that.
* `Session.answers_last`: from the moment the vectors are kept, every later session bears one outlook.
-/

namespace RegionCalculus
set_option autoImplicit false

/-! ## The normal marking of a fixed table -/

theorem normalMarking_congr {ι : Type} [DecidableEq ι] {table : List (ι × List Int)}
    {states states' : List ι} (h : ∀ e ∈ table, e.1 ∈ states) (h' : ∀ e ∈ table, e.1 ∈ states')
    (net : List Int) : normalMarking table states net = normalMarking table states' net := by
  -- states without a vector set no bound, so that only the table counts
  have hkeys : ∀ {l : List ι}, (∀ e ∈ table, e.1 ∈ l) → ∀ m, normalMarking table l net ≤ m ↔
      0 ≤ m ∧ ∀ k v, table.lookup k = some v → 0 ≤ m + dot v net := by
    intro l hl m
    rw [normalMarking_le_iff]
    refine and_congr_right fun _ => ⟨fun hall k v hv => ?_, fun hall k _ v hv => hall k v hv⟩
    exact hall k (hl (k, v) (mem_of_lookup hv)) v hv
  refine le_antisymm ?_ ?_
  · rw [hkeys h, ← hkeys h']
  · rw [hkeys h', ← hkeys h]

namespace RegionUtility

variable {S S' : System} {U U' : RegionUtility} {table : List (Key × List Int)}
  {cycles : List (Arc Key × List Int)}

/-! ## Answers from kept results -/

theorem lookupVector_of_kept (hv : U.vectors = some table) {v : Value} (hhas : S.Has v) :
    (lookupVector S v U).answer = .ok (table.lookup v.key) := by
  have hrequire : (Attempt.ofExcept (S.require v) U).answer = .ok () := by
    simp [System.require, hhas]
  have hvectors : (parikhVectors S U).answer = .ok table := by rw [parikhVectors_of_some hv]
  rw [lookupVector, Attempt.answer_bind_of_ok hrequire]
  exact Attempt.answer_bind_of_ok hvectors

/-- The normal marking is read off the kept vectors, also if the system has no states. -/
theorem normalMarkingFor_of_kept (hv : U.vectors = some table) (net : List Int) :
    (normalMarkingFor S net U).answer = .ok (normalMarking table S.lts.states net) := by
  cases hempty : S.written.states.isEmpty with
  | true =>
    rw [normalMarkingFor_of_empty hempty, System.lts_states, List.isEmpty_iff.1 hempty]
    rfl
  | false =>
    have hvectors : (parikhVectors S U).answer = .ok table := by rw [parikhVectors_of_some hv]
    rw [normalMarkingFor_of_nonempty hempty]
    exact Attempt.answer_bind_of_ok hvectors

theorem isConsistent_of_kept (hc : U.cycles = some cycles) (net : List Int) :
    (isConsistent S net U).answer = .ok (cycleConsistent cycles net) := by
  have hcycles : (cycleVectors S U).answer = .ok cycles := by rw [cycleVectors_of_some hc]
  exact Attempt.answer_bind_of_ok hcycles

theorem writtenCycleVectors_of_kept {t : WrittenTree} (hc : U.cycles = some cycles)
    (ht : U.tree = some t) :
    (writtenCycleVectors S U).answer = .ok (cycles.map fun c => (t.extraForm S c.1, c.2)) := by
  have hcycles : cycleVectors S U = ⟨.ok cycles, U, []⟩ := cycleVectors_of_some hc
  have htree : spanningTree S U = ⟨.ok t, U, []⟩ := spanningTree_of_some ht
  rw [writtenCycleVectors, Attempt.bind_of_ok hcycles, Attempt.bind_of_ok htree]
  rfl

theorem cycleVectors_state (h : (cycleVectors S U).answer = .ok cycles) :
    (cycleVectors S U).state.cycles = some cycles := by
  cases hU : U.cycles with
  | some cycles' =>
    rw [cycleVectors_of_some hU] at h ⊢
    obtain rfl : cycles' = cycles := Except.ok.inj h
    exact hU
  | none =>
    rw [cycleVectors_of_none hU] at h ⊢
    obtain ⟨table, _, h, hstate⟩ := Attempt.bind_ok h
    rw [hstate]
    obtain ⟨t, _, h, hstate⟩ := Attempt.bind_ok h
    rw [hstate]
    cases hx : t.tree.extraArcs? S.lts with
    | error m => simp [hx] at h
    | ok extra =>
      simp only [hx] at h ⊢
      cases hc : RegionCalculus.cycleVectors? U.events table extra with
      | error gap => simp [hc] at h
      | ok cycles' =>
        simp only [hc] at h ⊢
        obtain rfl : cycles' = cycles := Except.ok.inj h
        rfl

theorem writtenCycleVectors_state {vectors : List (Arc Value × List Int)}
    (h : (writtenCycleVectors S U).answer = .ok vectors) :
    ∃ cycles t, (writtenCycleVectors S U).state.cycles = some cycles ∧
      (writtenCycleVectors S U).state.tree = some t ∧
      vectors = cycles.map fun c => (t.extraForm S c.1, c.2) := by
  obtain ⟨cycles, hcycles, h, hstate⟩ := Attempt.bind_ok h
  obtain ⟨t, htree, h, hstate'⟩ := Attempt.bind_ok h
  have hkept := spanningTree_state htree
  refine ⟨cycles, t, ?_, ?_, (Except.ok.inj h).symm⟩
  · rw [writtenCycleVectors, hstate, hstate', Attempt.pure_apply, hkept]
    exact cycleVectors_state hcycles
  · rw [writtenCycleVectors, hstate, hstate', Attempt.pure_apply, hkept]

end RegionUtility

namespace Session

variable {s s' : Session} {u : UtilityId} {r : RegionId}

theorem tellUtility_cycleVectors (p : PlacedUtility) (s : Session) :
    (tellUtility p .cycleVectors s).answer =
      (RegionUtility.writtenCycleVectors p.system p.utility).answer.map .arcVectors :=
  Attempt.answer_bind_pure _ _ _

/-! ## What objects were told -/

/-- On the way to `s`, the object `o` stood in a slot, was told `c` there, and answered `a`. -/
def Told (s : Session) (o : Ref) (c : SlotName → Command) (a : Answer) : Prop :=
  ∃ s₀ watched on, s₀.Reached ∧ s₀.slots.lookup on = some o ∧
    (step watched (c on) s₀).1.answer = .ok a ∧ (step watched (c on) s₀).2.Later s

theorem Told.later {o : Ref} {c : SlotName → Command} {a : Answer} (h : s.Told o c a)
    (hlater : s.Later s') : s'.Told o c a := by
  obtain ⟨s₀, watched, on, hs₀, hslot, hanswer, hbefore⟩ := h
  exact ⟨s₀, watched, on, hs₀, hslot, hanswer, hbefore.trans hlater⟩

theorem pick_of_lookup {α : Type} {pick : Session → Ref → Option α} {name : SlotName} {o : Ref}
    {a : α} (hslot : s.slots.lookup name = some o) (h : (lookup pick name s).answer = .ok a) :
    pick s o = some a := by
  obtain ⟨r, hr, hpick⟩ := lookup_ok h
  obtain rfl : o = r := Option.some.inj (hslot.symm.trans hr)
  exact hpick

/-- The answer to a command that looks at one slot comes from the object in it. -/
theorem bind_lookup_ok {α β : Type} {pick : Session → Ref → Option α} {name : SlotName} {o : Ref}
    {k : α → Attempt Session β} {b : β} (hslot : s.slots.lookup name = some o)
    (h : ((lookup pick name >>= k) s).answer = .ok b) :
    ∃ a, pick s o = some a ∧ (k a s).answer = .ok b ∧
      ((lookup pick name >>= k) s).state = (k a s).state := by
  obtain ⟨a, ha, hanswer, hstate⟩ := Attempt.bind_ok h
  rw [lookup_state] at hanswer hstate
  exact ⟨a, pick_of_lookup hslot ha, hanswer, hstate⟩

theorem map_ok {α β : Type} {f : α → β} (hf : Function.Injective f) {x : Except Fault α} {a : α}
    (h : x.map f = .ok (f a)) : x = .ok a := by
  cases x with
  | error e => cases h
  | ok b => rw [hf (Except.ok.inj h)]

theorem Told.marking {v : Value} {k : Int}
    (h : s.Told (.region r) (fun on => .toRegion on (.markingOf v)) (.number k)) :
    ∃ q, s.region? r = some q ∧ q.holding.region.markings.lookup v.key = some k := by
  obtain ⟨s₀, watched, on, hs₀, hslot, hanswer, hlater⟩ := h
  have hafter := later_step watched (.toRegion on (.markingOf v)) s₀
  obtain ⟨q, hq, htold, hstate⟩ := bind_lookup_ok hslot hanswer
  have hq' : s₀.region? r = some q := hq
  obtain ⟨hid, _⟩ := region?_eq_some_iff.1 hq'
  subst hid
  have hmarking : (Region.markingOf q.system v q.holding).answer = .ok k := by
    rw [tellRegion_markingOf] at htold
    exact map_ok (fun _ _ => Answer.number.inj) htold
  obtain ⟨hutility, _, _, hsystem, _⟩ :=
    Region.derives_frame (Region.markingOf_leads q.system v q.holding)
  have hplaced := region?_set hq' hutility hsystem
  have hstep : (step watched (.toRegion on (.markingOf v)) s₀).2.region? q.id =
      some { q with holding := (Region.markingOf q.system v q.holding).state } := by
    refine Eq.trans (congrArg (Session.region? · q.id) ?_) hplaced
    exact hstate.trans (Attempt.state_bind_pure _ _ _)
  obtain ⟨q', hq', hbecomes⟩ := hlater.region? (hafter.reached hs₀) hstep
  exact ⟨q', hq', hbecomes.markings _ _ (Region.markingOf_state hmarking)⟩

/-- Cycle vectors that were answered are kept, with their tree, and are written as they were. -/
theorem Told.cycles {vectors : List (Arc Value × List Int)}
    (h : s.Told (.utility u) (fun on => .toUtility on .cycleVectors) (.arcVectors vectors)) :
    ∃ p cycles t, s.utility? u = some p ∧ p.utility.cycles = some cycles ∧
      p.utility.tree = some t ∧
      vectors = cycles.map fun c => (t.extraForm p.system c.1, c.2) := by
  obtain ⟨s₀, watched, on, hs₀, hslot, hanswer, hlater⟩ := h
  have hreached : (step watched (.toUtility on .cycleVectors) s₀).2.Reached := .step watched _ hs₀
  obtain ⟨p, hp, htold, hstate⟩ := bind_lookup_ok hslot hanswer
  have hp' : s₀.utility? u = some p := hp
  obtain ⟨hid, _⟩ := utility?_eq_some_iff.1 hp'
  subst hid
  have hvectors : (RegionUtility.writtenCycleVectors p.system p.utility).answer = .ok vectors := by
    rw [tellUtility_cycleVectors] at htold
    exact map_ok (fun _ _ => Answer.arcVectors.inj) htold
  obtain ⟨cycles, t, hcycles, htree, rfl⟩ := RegionUtility.writtenCycleVectors_state hvectors
  have hleads := RegionUtility.writtenCycleVectors_leads p.system p.utility
  have hstep : (step watched (.toUtility on .cycleVectors) s₀).2.utility? p.id =
      some { p with utility := (RegionUtility.writtenCycleVectors p.system p.utility).state } := by
    refine Eq.trans (congrArg (Session.utility? · p.id) ?_) (utility?_onUtility hp' hleads)
    exact hstate.trans (Attempt.state_bind_pure _ _ _)
  obtain ⟨p', hp', hbecomes⟩ := hlater.utility? hreached hstep
  refine ⟨p', cycles, t, hp', hbecomes.cycles _ hcycles, hbecomes.tree _ htree, ?_⟩
  have hanchored := hreached.anchored _ _ hstep
  refine List.map_congr_left fun c hc => ?_
  rw [WrittenTree.extraForm, WrittenTree.extraForm,
    hbecomes.grows.targetForm_eq (hanchored.cycles _ hcycles c hc)]

/-! ## The outlook of a utility -/

/-- What a utility and its regions are going to answer: the vector of each state, and for each list of
net weights the normal marking and, once the cycle vectors are kept, the consistency. -/
structure Outlook where
  vector : Value → Option (List Int)
  normal : List Int → Int
  consistent : List Int → Bool

/-- The utility `p` of the session `s` is `p'` in `s'`, where it and its regions answer as foreseen. -/
structure Bears (o : Outlook) (s : Session) (p : PlacedUtility) (s' : Session)
    (p' : PlacedUtility) : Prop where
  states : ∀ v, p.system.Has v → p'.system.Has v
  newcomer : ∀ v, ¬ p.system.Has v → o.vector v = none
  vector : ∀ v, p'.system.Has v → (tellUtility p' (.lookupVector v) s').answer =
    .ok ((o.vector v).elim .nothing .numbers)
  normal : ∀ watched r q, s'.region? r = some q → q.owner.id = p.id →
    (tellRegion watched q .normalMarking s').answer =
      .ok (.number (o.normal q.holding.region.weights.net))
  marking : ∀ watched r v k,
    s'.Told (.region r) (fun on => .toRegion on (.markingOf v)) (.number k) →
    ∃ q, s'.region? r = some q ∧
      (tellRegion watched q (.markingOf v) s').answer = .ok (.number k)
  cycles : ∀ vectors,
    s.Told (.utility p.id) (fun on => .toUtility on .cycleVectors) (.arcVectors vectors) →
    (tellUtility p' .cycleVectors s').answer = .ok (.arcVectors vectors)
  consistent : ∀ vectors,
    s.Told (.utility p.id) (fun on => .toUtility on .cycleVectors) (.arcVectors vectors) →
    ∀ watched r q, s'.region? r = some q → q.owner.id = p.id →
      (tellRegion watched q .isConsistent s').answer =
        .ok (.truth (o.consistent q.holding.region.weights.net))

variable {p p' : PlacedUtility} {table : List (Key × List Int)}

def outlookOf (table : List (Key × List Int)) (p : PlacedUtility) : Outlook where
  vector := fun v => table.lookup v.key
  normal := normalMarking table p.system.lts.states
  -- without cycle vectors nothing is foreseen, and `Bears` asks for nothing
  consistent := fun net => (p.utility.cycles.map (cycleConsistent · net)).getD true

theorem tellUtility_lookupVector (p : PlacedUtility) (v : Value) {found : Option (List Int)}
    (h : (RegionUtility.lookupVector p.system v p.utility).answer = .ok found) :
    (tellUtility p (.lookupVector v) s).answer = .ok (found.elim .nothing .numbers) := by
  have hanswer : (onUtility p (RegionUtility.lookupVector p.system v) s).answer = .ok found := h
  rw [tellUtility, Attempt.answer_bind_of_ok hanswer]
  cases found <;> rfl

theorem bears_outlookOf (hs : s.Reached) (hp : s.utility? u = some p)
    (hv : p.utility.vectors = some table) (hlater : s.Later s')
    (hp' : s'.utility? u = some p') (hbecomes : p.Becomes p') :
    Bears (outlookOf table p) s p s' p' := by
  obtain ⟨hid, _⟩ := utility?_eq_some_iff.1 hp
  subst hid
  have hwithin := (hs.within _ _ hp).vectors _ hv
  have hwithin' := ((hlater.reached hs).within _ _ hp').vectors _ (hbecomes.vectors _ hv)
  refine
    { states := fun v => hbecomes.grows.states_subset
      newcomer := fun v hno => ?_
      vector := fun v hhas => ?_
      normal := fun watched r q hq hu => ?_
      marking := fun watched r v k htold => ?_
      cycles := fun vectors htold => ?_
      consistent := fun vectors htold watched r q hq hu => ?_ }
  · -- all keys of the kept vectors are states that were there already
    refine List.lookup_eq_none_iff.2 fun e he => ?_
    rw [bne_iff_ne]
    intro hkey
    have hhas : p.system.Has v := by
      rw [System.Has, hkey]
      exact hwithin e he
    exact hno hhas
  · exact tellUtility_lookupVector p' v
      (RegionUtility.lookupVector_of_kept (hbecomes.vectors _ hv) hhas)
  · obtain ⟨hU, hS⟩ := owner_eq hp' hq hu
    rw [tellRegion_normalMarking, Region.normalMarking_eq, Region.ask_answer, hU, hS,
      RegionUtility.normalMarkingFor_of_kept (hbecomes.vectors _ hv),
      normalMarking_congr hwithin' hwithin]
    rfl
  · obtain ⟨q, hq, hkept⟩ := htold.marking
    refine ⟨q, hq, ?_⟩
    rw [tellRegion_markingOf, Region.markingOf_of_some hkept]
    rfl
  · obtain ⟨p'', cycles, t, hp'', hcycles, htree, rfl⟩ := htold.later hlater |>.cycles
    obtain rfl := Option.some.inj (hp'.symm.trans hp'')
    rw [tellUtility_cycleVectors, RegionUtility.writtenCycleVectors_of_kept hcycles htree]
    rfl
  · obtain ⟨p'', cycles, t, hp'', hcycles, _⟩ := htold.cycles
    obtain rfl := Option.some.inj (hp.symm.trans hp'')
    obtain ⟨hU, _⟩ := owner_eq hp' hq hu
    have hkept : q.holding.utility.cycles = some cycles := by
      rw [hU]
      exact hbecomes.cycles _ hcycles
    rw [tellRegion_isConsistent, Region.isConsistent_eq, Region.ask_answer,
      RegionUtility.isConsistent_of_kept hkept, outlookOf, hcycles]
    rfl

/-- From the moment at which a utility keeps its Parikh vectors, it gives every state that its system
has then the same vector or none, and every other state none; regions with the same net weights have
the same normal marking; a marking that was answered is answered again; and once the cycle vectors
were answered, so are they, and regions with the same net weights are consistent or not for good. -/
theorem answers_last (hs : s.Reached) (hp : s.utility? u = some p)
    (hv : p.utility.vectors.isSome) :
    ∃ o : Outlook, ∀ s', s.Later s' →
      ∃ p', s'.utility? u = some p' ∧ Bears o s p s' p' := by
  obtain ⟨table, htable⟩ := Option.isSome_iff_exists.1 hv
  refine ⟨outlookOf table p, fun s' hlater => ?_⟩
  obtain ⟨p', hp', hbecomes⟩ := hlater.utility? hs hp
  exact ⟨p', hp', bears_outlookOf hs hp htable hlater hp' hbecomes⟩

/-! ## A ring that grows -/

/-- The ring after its utility and its region have been asked. -/
def askedRing : Session :=
  (run false [.toUtility "utility" .cycleVectors, .toRegion "region" (.markingOf (.text "s1"))]
    ringSession).2

/-- A state is added, the unreachable state of the ring can be reached, and the ring starts there. -/
def grownRing : Session :=
  (run false [.toSystem "lts" (.createState (.text "s4")),
    .toSystem "lts" (.createArc (.text "s0") (.text "s3") (.text "c")),
    .toSystem "lts" (.setInitial (.text "s3"))] askedRing).2

theorem told_askedRing : ∃ vectors, askedRing.Told (.utility 0)
    (fun on => .toUtility on .cycleVectors) (.arcVectors vectors) := by
  obtain ⟨U, hU⟩ := steady_ringSession.settled
  have hring : ringSession.utility? 0 = some ringUtility := rfl
  obtain rfl : ringUtility.utility = U :=
    congrArg PlacedUtility.utility (Option.some.inj (hring.symm.trans hU.placed))
  have hinit : ringSystem.initial? = .ok (.text "s0") := rfl
  have hanswer := hU.kept.writtenCycleVectors_answer steady_ringSession.valid hinit
  have htold := (tellUtility_cycleVectors ringUtility ringSession).trans
    (congrArg (Except.map Answer.arcVectors) hanswer)
  exact ⟨_, ringSession, false, "utility", steady_ringSession.reached, rfl, htold,
    later_step false _ _⟩

theorem answers_last_ring :
    ∃ p, askedRing.utility? 0 = some p ∧ p.utility.vectors.isSome ∧ askedRing.Reached ∧
      askedRing.Later grownRing ∧ ∃ o : Outlook, ∀ s', askedRing.Later s' →
        ∃ p', s'.utility? 0 = some p' ∧ Bears o askedRing p s' p' := by
  have hs : askedRing.Reached := steady_ringSession.reached.run false _
  obtain ⟨_, htold⟩ := told_askedRing
  obtain ⟨p, cycles, _, hp, hcycles, _⟩ := htold.cycles
  have hv := (hs.anchored _ _ hp).layered.cycles (by rw [hcycles]; rfl)
  exact ⟨p, hp, hv, hs, later_run false _ askedRing, answers_last hs hp hv⟩

end Session

end RegionCalculus
