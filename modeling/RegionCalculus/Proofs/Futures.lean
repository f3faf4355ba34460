import RegionCalculus.Proofs.Lockstep

/-!
# The future of an object

What later commands leave of one utility and of one region. Both stay, what is kept in them stays, and
the system of the utility grows at most.

* `Session.Later s s'`: commands lead from `s` to `s'`.
* `PlacedUtility.Becomes p p'`, `PlacedRegion.Becomes p p'`: what stays of a utility and of a region.
* `Session.Later.utility?`, `Later.region?`: they are found later, and this stays of them.
* `RegionUtility.Anchored S U`: cycle vectors are kept with a tree, and for arcs of the system. It holds
  of every utility (`Session.Reached.anchored`).
-/

namespace RegionCalculus
set_option autoImplicit false

/-! ## What stays kept -/

namespace RegionUtility

variable {S : System} {U U' : RegionUtility}

theorem Fill.tree_eq (h : Fill S U U') {t : WrittenTree} (ht : U.tree = some t) :
    U'.tree = some t := by
  cases h with
  | tree hnone _ => rw [hnone] at ht; cases ht
  | vectors _ _ _ => exact ht
  | cycles _ _ _ _ _ => exact ht

theorem Fill.cycles_eq (h : Fill S U U') {cycles : List (Arc Key × List Int)}
    (hc : U.cycles = some cycles) : U'.cycles = some cycles := by
  cases h with
  | tree _ _ => exact hc
  | vectors _ _ _ => exact hc
  | cycles _ _ hnone _ _ => rw [hnone] at hc; cases hc

end RegionUtility

/-- A marking that is kept for a state is never replaced. -/
theorem Holding.Derive.markings_eq {S : System} {h h' : Holding} (hd : Holding.Derive S h h')
    {k : Key} {m : Int} (hm : h.region.markings.lookup k = some m) :
    h'.region.markings.lookup k = some m := by
  cases hd with
  | fill _ => exact hm
  | marking _ _ => exact hm
  | @state R _ k' _ _ _ hnone _ _ _ =>
    have hm' : R.markings.lookup k = some m := hm
    have hne : (k == k') = false := by
      by_contra hk
      obtain rfl : k = k' := by simpa using hk
      rw [hnone] at hm'
      cases hm'
    rw [List.lookup_cons, hne]
    exact hm'

namespace Session

/-- What stays of a utility. -/
structure PlacedUtility.Becomes (p p' : PlacedUtility) : Prop where
  id : p'.id = p.id
  grows : p.system.Grows p'.system
  events : p'.utility.events = p.utility.events
  tree : ∀ t, p.utility.tree = some t → p'.utility.tree = some t
  vectors : ∀ table, p.utility.vectors = some table → p'.utility.vectors = some table
  cycles : ∀ cycles, p.utility.cycles = some cycles → p'.utility.cycles = some cycles

namespace PlacedUtility.Becomes

variable {p p' p'' : PlacedUtility}

theorem refl (p : PlacedUtility) : p.Becomes p where
  id := rfl
  grows := .refl
  events := rfl
  tree := fun _ h => h
  vectors := fun _ h => h
  cycles := fun _ h => h

theorem trans (h : p.Becomes p') (h' : p'.Becomes p'') : p.Becomes p'' where
  id := h'.id.trans h.id
  grows := h.grows.trans h'.grows
  events := h'.events.trans h.events
  tree := fun t ht => h'.tree t (h.tree t ht)
  vectors := fun table ht => h'.vectors table (h.vectors table ht)
  cycles := fun cycles hc => h'.cycles cycles (h.cycles cycles hc)

theorem fills {U : RegionUtility}
    (h : Relation.ReflTransGen (RegionUtility.Fill p.system) p.utility U) :
    p.Becomes { p with utility := U } := by
  induction h with
  | refl => exact refl p
  | tail _ hstep ih =>
    exact ih.trans
      { id := rfl
        grows := .refl
        events := hstep.events_eq
        tree := fun _ => hstep.tree_eq
        vectors := fun _ => hstep.vectors_eq
        cycles := fun _ => hstep.cycles_eq }

theorem grow {S : System} (h : p.system.Grows S) : p.Becomes { p with system := S } :=
  { refl p with grows := h }

end PlacedUtility.Becomes

/-- What stays of a region. -/
structure PlacedRegion.Becomes (p p' : PlacedRegion) : Prop where
  id : p'.id = p.id
  utility : p'.holding.region.utility = p.holding.region.utility
  weights : p'.holding.region.weights = p.holding.region.weights
  markings : ∀ k m, p.holding.region.markings.lookup k = some m →
    p'.holding.region.markings.lookup k = some m

namespace PlacedRegion.Becomes

variable {p p' p'' : PlacedRegion}

theorem refl (p : PlacedRegion) : p.Becomes p where
  id := rfl
  utility := rfl
  weights := rfl
  markings := fun _ _ h => h

theorem trans (h : p.Becomes p') (h' : p'.Becomes p'') : p.Becomes p'' where
  id := h'.id.trans h.id
  utility := h'.utility.trans h.utility
  weights := h'.weights.trans h.weights
  markings := fun k m hm => h'.markings k m (h.markings k m hm)

theorem derives {h : Holding}
    (hd : Relation.ReflTransGen (Holding.Derive p.system) p.holding h) :
    p.Becomes { p with holding := h } := by
  induction hd with
  | refl => exact refl p
  | tail _ hstep ih =>
    obtain ⟨hutility, hweights, _⟩ := Region.derive_frame hstep
    exact ih.trans
      { id := rfl
        utility := hutility
        weights := hweights
        markings := fun _ _ => hstep.markings_eq }

theorem grow (S : System) : p.Becomes { p with system := S } where
  id := rfl
  utility := rfl
  weights := rfl
  markings := fun _ _ h => h

end PlacedRegion.Becomes

/-! ## One touch -/

variable {s s' : Session} {u : UtilityId} {r : RegionId}

theorem exists_utility?_of_systemOf {S : System} (h : s.systemOf u = some S) :
    ∃ p, s.utility? u = some p ∧ p.system = S := Option.map_eq_some_iff.1 h

theorem systemOf_of_utility? {p : PlacedUtility} (hp : s.utility? u = some p) :
    s.systemOf u = some p.system := by rw [systemOf, hp, Option.map_some]

theorem Touch.utility? (h : Touch s s') (hs : s.Rooted) {p : PlacedUtility}
    (hp : s.utility? u = some p) : ∃ p', s'.utility? u = some p' ∧ p.Becomes p' := by
  obtain ⟨p', hp', hsystem⟩ := exists_utility?_of_systemOf (h.systemOf_eq (systemOf_of_utility? hp))
  refine ⟨p', hp', ?_⟩
  rcases h.utility?_cases hs hp' with ⟨U, hU, hfills⟩ | ⟨hge, _⟩
  · obtain rfl := Option.some.inj (hp.symm.trans hU)
    exact .fills hfills
  · obtain ⟨hlt, _⟩ := List.getElem?_eq_some_iff.1 (utility?_eq_some_iff.1 hp).2.1
    exact absurd hlt (Nat.not_lt.2 hge)

theorem Touch.exists_region (h : Touch s s') {R : Region} (hR : s.regions[r]? = some R) :
    ∃ R', s'.regions[r]? = some R' ∧ R'.utility = R.utility := by
  cases h with
  | region _ _ =>
    obtain ⟨hlt, _⟩ := List.getElem?_eq_some_iff.1 hR
    exact ⟨R, (List.getElem?_append_left hlt).trans hR, rfl⟩
  | @derive q h' hq hd =>
    obtain ⟨_, hQ, _⟩ := region?_eq_some_iff.1 hq
    by_cases hqr : q.id = r
    · subst hqr
      obtain rfl := Option.some.inj (hQ.symm.trans hR)
      obtain ⟨hlt, _⟩ := List.getElem?_eq_some_iff.1 hR
      exact ⟨h'.region, List.getElem?_set_self hlt, (Region.derive_frame hd).1⟩
    · exact ⟨R, (List.getElem?_set_ne hqr).trans hR, rfl⟩
  | _ => exact ⟨R, hR, rfl⟩

theorem Touch.region? (h : Touch s s') (hs : s.Sound) (hr : s.Rooted) {p : PlacedRegion}
    (hp : s.region? r = some p) : ∃ p', s'.region? r = some p' ∧ p.Becomes p' := by
  obtain ⟨_, hR, hU⟩ := region?_eq_some_iff.1 hp
  obtain ⟨R', hR', hutility⟩ := h.exists_region hR
  obtain ⟨q, hq, hbecomes⟩ := h.utility? hr hU
  have hplace : ⟨p.owner.id, q.utility, q.system⟩ = q := by rw [← hbecomes.id]
  have hp' : s'.region? r = some ⟨r, ⟨R', q.utility⟩, q.system⟩ := by
    refine region?_eq_some_iff.2 ⟨rfl, hR', ?_⟩
    change s'.utility? R'.utility = some ⟨R'.utility, q.utility, q.system⟩
    rw [hutility]
    exact hq.trans (congrArg some hplace.symm)
  refine ⟨_, hp', ?_⟩
  -- what is found in its place comes from it by derivations, as its number is not a new one
  rcases h.region?_cases hs hr hp' with ⟨h₀, hh₀, hd⟩ | ⟨hge, _⟩
  · obtain rfl := Option.some.inj (hp.symm.trans hh₀)
    exact .derives hd
  · obtain ⟨hlt, _⟩ := List.getElem?_eq_some_iff.1 hR
    exact absurd hlt (Nat.not_lt.2 hge)

/-! ## A system that grows -/

theorem exists_utility?_setSystem {i : SystemId} {S' : System} {p : PlacedUtility}
    (hp : s.utility? u = some p) : ∃ p', (s.setSystem i S').utility? u = some p' := by
  obtain ⟨_, hU, hsystem⟩ := utility?_eq_some_iff.1 hp
  obtain ⟨hlt, _⟩ := List.getElem?_eq_some_iff.1 hsystem
  have hlt' : p.utility.system < (s.setSystem i S').systems.length := by
    rw [setSystem, List.length_set]
    exact hlt
  exact ⟨⟨u, p.utility, _⟩,
    utility?_eq_some_iff.2 ⟨rfl, hU, List.getElem?_eq_getElem hlt'⟩⟩

theorem utility?_of_setSystem {i : SystemId} {S S' : System} (hS : s.systems[i]? = some S)
    (hgrows : S.Grows S') {p : PlacedUtility} (hp : s.utility? u = some p) :
    ∃ T, (s.setSystem i S').utility? u = some { p with system := T } ∧ p.system.Grows T := by
  obtain ⟨p', hp'⟩ : ∃ p', (s.setSystem i S').utility? u = some p' :=
    exists_utility?_setSystem hp
  obtain ⟨T, hT, hTgrows⟩ := utility?_setSystem hS hgrows hp'
  obtain rfl := Option.some.inj (hp.symm.trans hT)
  exact ⟨p'.system, hp', hTgrows⟩

/-! ## Commands -/

theorem touches_utility? (h : Relation.ReflTransGen Touch s s') (hs : s.Rooted)
    {p : PlacedUtility} (hp : s.utility? u = some p) :
    ∃ p', s'.utility? u = some p' ∧ p.Becomes p' := by
  induction h with
  | refl => exact ⟨p, hp, .refl p⟩
  | tail hprev hstep ih =>
    obtain ⟨q, hq, hbecomes⟩ := ih
    obtain ⟨p', hp', hbecomes'⟩ := hstep.utility? (hs.touches hprev) hq
    exact ⟨p', hp', hbecomes.trans hbecomes'⟩

theorem touches_region? (h : Relation.ReflTransGen Touch s s') (hs : s.Sound) (hr : s.Rooted)
    {p : PlacedRegion} (hp : s.region? r = some p) :
    ∃ p', s'.region? r = some p' ∧ p.Becomes p' := by
  induction h with
  | refl => exact ⟨p, hp, .refl p⟩
  | tail hprev hstep ih =>
    obtain ⟨q, hq, hbecomes⟩ := ih
    obtain ⟨p', hp', hbecomes'⟩ := hstep.region? (hs.touches hprev) (hr.touches hprev) hq
    exact ⟨p', hp', hbecomes.trans hbecomes'⟩

theorem step_utility? (hs : s.Reached) (watched : Bool) (c : Command) {p : PlacedUtility}
    (hp : s.utility? u = some p) :
    ∃ p', (step watched c s).2.utility? u = some p' ∧ p.Becomes p' := by
  rcases perform_cases watched c s with hleads | ⟨i, S, S', hS, hgrows, hstate⟩
  · exact touches_utility? hleads hs.rooted hp
  · have hafter : (step watched c s).2 = s.setSystem i S' := hstate
    obtain ⟨T, hT, hTgrows⟩ := utility?_of_setSystem hS hgrows hp
    exact ⟨_, hafter ▸ hT, .grow hTgrows⟩

theorem step_region? (hs : s.Reached) (watched : Bool) (c : Command) {p : PlacedRegion}
    (hp : s.region? r = some p) :
    ∃ p', (step watched c s).2.region? r = some p' ∧ p.Becomes p' := by
  rcases perform_cases watched c s with hleads | ⟨i, S, S', hS, hgrows, hstate⟩
  · exact touches_region? hleads hs.sound hs.rooted hp
  · have hafter : (step watched c s).2 = s.setSystem i S' := hstate
    obtain ⟨hid, hR, hU⟩ := region?_eq_some_iff.1 hp
    obtain ⟨T, hT, _⟩ := utility?_of_setSystem hS hgrows hU
    have hp' : (s.setSystem i S').region? r = some { p with system := T } :=
      region?_eq_some_iff.2 ⟨hid, hR, hT⟩
    exact ⟨_, hafter ▸ hp', .grow T⟩

/-- Commands lead from one session to the other. -/
def Later : Session → Session → Prop :=
  Relation.ReflTransGen fun s s' => ∃ watched c, s' = (step watched c s).2

theorem later_step (watched : Bool) (c : Command) (s : Session) : s.Later (step watched c s).2 :=
  .single ⟨watched, c, rfl⟩

theorem later_run (watched : Bool) (cs : List Command) (s : Session) :
    s.Later (run watched cs s).2 := by
  induction cs generalizing s with
  | nil => exact .refl
  | cons c cs ih => exact (later_step watched c s).trans (ih _)

theorem Later.reached (h : s.Later s') (hs : s.Reached) : s'.Reached := by
  induction h with
  | refl => exact hs
  | tail _ hstep ih =>
    obtain ⟨watched, c, rfl⟩ := hstep
    exact .step watched c ih

/-- What every command keeps in a session is kept for good. -/
theorem Later.keeps {P : Session → Prop} (h : s.Later s') (hs : s.Reached) (hstart : P s)
    (hstep : ∀ s watched c, s.Reached → P s → P (step watched c s).2) : P s' := by
  induction h with
  | refl => exact hstart
  | tail hprev hlast ih =>
    obtain ⟨watched, c, rfl⟩ := hlast
    exact hstep _ watched c (Later.reached hprev hs) ih

theorem Later.utility? (h : s.Later s') (hs : s.Reached) {p : PlacedUtility}
    (hp : s.utility? u = some p) : ∃ p', s'.utility? u = some p' ∧ p.Becomes p' := by
  apply h.keeps hs
  case hstart => exact ⟨p, hp, .refl p⟩
  case hstep =>
    rintro s watched c hs ⟨q, hq, hbecomes⟩
    obtain ⟨p', hp', hbecomes'⟩ := step_utility? hs watched c hq
    exact ⟨p', hp', hbecomes.trans hbecomes'⟩

theorem Later.region? (h : s.Later s') (hs : s.Reached) {p : PlacedRegion}
    (hp : s.region? r = some p) : ∃ p', s'.region? r = some p' ∧ p.Becomes p' := by
  apply h.keeps hs
  case hstart => exact ⟨p, hp, .refl p⟩
  case hstep =>
    rintro s watched c hs ⟨q, hq, hbecomes⟩
    obtain ⟨p', hp', hbecomes'⟩ := step_region? hs watched c hq
    exact ⟨p', hp', hbecomes.trans hbecomes'⟩

end Session

/-! ## Arcs of a growing system -/

namespace System

variable {S S' : System}

theorem Change.written_arcs (h : S.Change S') :
    ∃ more, S'.written.arcs = S.written.arcs ++ more := by
  cases h with
  | state _ _ => exact ⟨[], (List.append_nil _).symm⟩
  | @arc a _ _ _ =>
    unfold addArc
    split
    · exact ⟨[], (List.append_nil _).symm⟩
    · exact ⟨[a], rfl⟩
  | start _ => exact ⟨[], (List.append_nil _).symm⟩

/-- Arcs are added at the end only. -/
theorem Grows.written_arcs (h : S.Grows S') :
    ∃ more, S'.written.arcs = S.written.arcs ++ more := by
  induction h with
  | refl => exact ⟨[], (List.append_nil _).symm⟩
  | tail _ hstep ih =>
    obtain ⟨more, hmore⟩ := ih
    obtain ⟨more', hmore'⟩ := hstep.written_arcs
    exact ⟨more ++ more', by rw [hmore', hmore, List.append_assoc]⟩

theorem Grows.arcs_subset (h : S.Grows S') {a : Arc Key} (ha : a ∈ S.lts.arcs) :
    a ∈ S'.lts.arcs := by
  obtain ⟨more, hmore⟩ := h.written_arcs
  rw [lts_arcs, hmore, List.map_append]
  exact List.mem_append_left _ ha

/-- The target of an arc stays written as it was. -/
theorem Grows.targetForm_eq (h : S.Grows S') {a : Arc Key} (ha : a ∈ S.lts.arcs) :
    S'.targetForm a = S.targetForm a := by
  obtain ⟨more, hmore⟩ := h.written_arcs
  obtain ⟨b, hb, _⟩ := exists_firstArc ha
  have hb' : S'.firstArc? a.source a.target = some b := by
    rw [firstArc?] at hb
    rw [firstArc?, hmore, List.find?_append, hb, Option.some_or]
  rw [targetForm, targetForm, hb, hb']

end System

/-! ## Cycle vectors belong to arcs -/

namespace RegionUtility

variable {S S' : System} {U U' : RegionUtility}

structure Anchored (S : System) (U : RegionUtility) : Prop where
  layered : U.Layered
  cycles : ∀ cycles, U.cycles = some cycles → ∀ c ∈ cycles, c.1 ∈ S.lts.arcs

theorem Blank.anchored (h : Blank S U) : Anchored S U where
  layered := h.layered
  cycles := fun _ hc => by simp [h.cycles] at hc

theorem Anchored.grows (h : Anchored S U) (hgrows : S.Grows S') : Anchored S' U where
  layered := h.layered
  cycles := fun cycles hc c hmem => hgrows.arcs_subset (h.cycles cycles hc c hmem)

theorem keys_of_cycleVectors? {ι : Type} [DecidableEq ι] {events : List String}
    {table : List (ι × List Int)} {extra : List (Arc ι)} {cycles : List (Arc ι × List Int)}
    (h : RegionCalculus.cycleVectors? events table extra = .ok cycles) :
    cycles.map (·.1) = extra := by
  induction extra generalizing cycles with
  | nil =>
    obtain rfl : [] = cycles := Except.ok.inj h
    rfl
  | cons a extra ih =>
    rw [RegionCalculus.cycleVectors?, List.mapM_cons] at h
    obtain ⟨c, hc, h⟩ := except_bind_eq_ok.1 h
    obtain ⟨rest, hrest, h⟩ := except_bind_eq_ok.1 h
    obtain rfl : c :: rest = cycles := Except.ok.inj h
    rw [List.map_cons, ih hrest]
    cases hv : cycleVector? events table a with
    | error gap => simp [hv, Except.map] at hc
    | ok v =>
      rw [hv] at hc
      rw [← Except.ok.inj hc]

theorem Fill.anchored (h : Fill S U U') (hU : Anchored S U) : Anchored S U' := by
  refine ⟨h.layered hU.layered, ?_⟩
  cases h with
  | tree _ _ => exact hU.cycles
  | vectors _ _ _ => exact hU.cycles
  | @cycles t _ extra _ _ _ _ hextra hcycles =>
    intro cycles hc c hmem
    obtain rfl := Option.some.inj hc
    have hkey : c.1 ∈ extra := by
      rw [← keys_of_cycleVectors? hcycles]
      exact List.mem_map_of_mem hmem
    unfold Tree.extraArcs? at hextra
    split at hextra
    · cases hextra
    · rw [← Except.ok.inj hextra] at hkey
      exact (Tree.mem_extraArcs.1 hkey).1

theorem Anchored.fills (hU : Anchored S U) (h : Relation.ReflTransGen (Fill S) U U') :
    Anchored S U' := by
  induction h with
  | refl => exact hU
  | tail _ hstep ih => exact hstep.anchored ih

end RegionUtility

namespace Session

theorem Reached.anchored {s : Session} (hs : s.Reached) :
    ∀ u p, s.utility? u = some p → p.utility.Anchored p.system := by
  induction hs with
  | empty => exact fun u p hp => by cases hp
  | step watched c hprev ih =>
    intro u p hp
    rcases step_utility?_cases hprev watched c hp with
      (⟨U, hU, hfills⟩ | ⟨U, hblank, hfills⟩) | ⟨S, hold, hgrows⟩
    · have hbefore : U.Anchored p.system := ih u _ hU
      exact hbefore.fills hfills
    · exact hblank.anchored.fills hfills
    · have hbefore : p.utility.Anchored S := ih u _ hold
      exact hbefore.grows hgrows

end Session

end RegionCalculus
