import RegionCalculus.Proofs.CachedTrees
import RegionCalculus.Proofs.Slots

/-!
# Vectors that cannot be computed

A utility fixes its events when it is made and its tree when the tree is first needed. In between the
system may have grown, so that a tree arc carries a label that is no event. Then the Parikh vectors
cannot be computed, and this stays so: the tree is kept, and so are the events.

* `Tree.Grown.parikhTable?_cases`: the table of a grown tree fails at the first tree arc whose label is no
  event, and at no other.
* `RegionUtility.Uses S U t`: `t` is the tree that is kept, or is going to be kept if none is.
* `RegionUtility.Charted U`: kept vectors are those of the kept tree. It holds of every utility
  (`Session.Reached.charted`).
* `Fault.NoEntry f`: a lookup found no entry.
* `Session.Lacks e p s`: the utility `p` lacks an index for `e`, and so every vector.
* `Session.VectorAnswer arcs events v x`: `x` is what the labels of the tree arcs make of a query for the
  vector of `v`.
* `Session.vectors_missing_for_good`: when a query for a vector fails, and what becomes of the utility.
-/

namespace RegionCalculus
set_option autoImplicit false

/-! ## The table of a tree -/

theorem countEvent_eq_none {events : List String} {e : String} {v : List Int} :
    countEvent events e v = none ↔ e ∉ events := by
  rw [countEvent, Option.map_eq_none_iff, List.idxOf?_eq_none_iff]

theorem exists_lookup {κ β : Type} [DecidableEq κ] {table : List (κ × β)} {k : κ}
    (hk : k ∈ table.map Prod.fst) : ∃ v, table.lookup k = some v := by
  refine Option.ne_none_iff_exists'.1 fun hnone => ?_
  exact lookup_eq_none_iff.1 hnone hk

variable {ι : Type} [DecidableEq ι] {events : List String}

theorem extendTable_of_notMem {table : List (ι × List Int)} {a : Arc ι}
    (hs : a.source ∈ table.map Prod.fst) (hl : a.label ∉ events) :
    extendTable events table a = .error (.label a) := by
  obtain ⟨v, hv⟩ := exists_lookup hs
  simp only [extendTable, hv, countEvent_eq_none.2 hl]

theorem extendTable_of_mem {table : List (ι × List Int)} {a : Arc ι}
    (hs : a.source ∈ table.map Prod.fst) (hl : a.label ∈ events) :
    ∃ w, extendTable events table a = .ok (table ++ [(a.target, w)]) := by
  obtain ⟨v, hv⟩ := exists_lookup hs
  obtain ⟨w, hw⟩ := Option.ne_none_iff_exists'.1 fun h => countEvent_eq_none (v := v).1 h hl
  exact ⟨w, by simp only [extendTable, hv, hw]⟩

namespace Tree

variable {t : Tree ι}

/-- The table has one entry for each tree state, up to the first tree arc whose label is no event. -/
theorem Grown.parikhTable?_cases (ht : t.Grown) (events : List String) :
    (∃ a, t.arcs.find? (·.label ∉ events) = some a ∧ t.parikhTable? events = .error (.label a)) ∨
      t.arcs.find? (·.label ∉ events) = none ∧
        ∃ table, t.parikhTable? events = .ok table ∧ table.map Prod.fst = t.states := by
  induction ht with
  | single root => exact .inr ⟨rfl, _, rfl, rfl⟩
  | @attach t a ht hs hnew ih =>
    rw [parikhTable?_attach, attach_arcs, List.find?_append]
    rcases ih with ⟨b, hb, herror⟩ | ⟨hnone, table, htable, hkeys⟩
    · rw [hb, herror]
      exact .inl ⟨b, rfl, rfl⟩
    · rw [hnone, htable, Option.none_or]
      have hsource := hkeys ▸ hs
      by_cases hlabel : a.label ∈ events
      · obtain ⟨w, hw⟩ := extendTable_of_mem hsource hlabel
        refine .inr ⟨by simp [hlabel], _, hw, ?_⟩
        rw [List.map_append, hkeys, states_attach]
        rfl
      · exact .inl ⟨a, by simp [hlabel], extendTable_of_notMem hsource hlabel⟩

end Tree

/-! ## Utilities without vectors -/

namespace RegionUtility

variable {S : System} {U U' : RegionUtility} {t : WrittenTree}

def Charted (U : RegionUtility) : Prop :=
  ∀ table, U.vectors = some table →
    ∃ t, U.tree = some t ∧ t.tree.parikhTable? U.events = .ok table

theorem Blank.charted (h : Blank S U) : Charted U := fun _ hv => by simp [h.vectors] at hv

theorem Fill.charted (h : Fill S U U') (hU : Charted U) : Charted U' := by
  intro table hv
  cases h with
  | tree hnone _ =>
    obtain ⟨t, ht, _⟩ := hU table hv
    rw [hnone] at ht
    cases ht
  | vectors htree _ htable =>
    obtain rfl := Option.some.inj hv
    exact ⟨_, htree, htable⟩
  | cycles _ _ _ _ _ => exact hU table hv

theorem Charted.fills (hU : Charted U) (h : Relation.ReflTransGen (Fill S) U U') : Charted U' := by
  induction h with
  | refl => exact hU
  | tail _ hstep ih => exact hstep.charted ih

/-- The tree that is kept, or is going to be kept if none is. -/
def Uses (S : System) (U : RegionUtility) (t : WrittenTree) : Prop :=
  U.tree = some t ∨ U.tree = none ∧ S.spanningTree? = .ok t

theorem Uses.spanningTree_answer (h : Uses S U t) : (spanningTree S U).answer = .ok t := by
  rcases h with ht | ⟨hnone, ht⟩
  · rw [spanningTree_of_some ht]
  · rw [spanningTree_of_ok hnone ht]

theorem Uses.inside (h : Uses S U t) (hS : S.lts.Valid) (hU : Embedded S U) : t.Inside S := by
  rcases h with ht | ⟨_, ht⟩
  · exact hU t ht
  · exact System.inside_of_spanningTree? hS ht

theorem Uses.exists_start (h : Uses S U t) : ¬(U.tree = none ∧ S.written.initial = none) := by
  rintro ⟨htree, hinit⟩
  rcases h with ht | ⟨_, ht⟩
  · rw [htree] at ht
    cases ht
  · rw [System.spanningTree?, System.initial?, hinit] at ht
    cases ht

/-- Without a tree and without an initial state no tree is kept; otherwise there is one. -/
theorem spanningTree_cases (S : System) (U : RegionUtility) :
    (U.tree = none ∧ S.written.initial = none ∧
      spanningTree S U = ⟨.error .noInitialState, U, []⟩) ∨ ∃ t, Uses S U t := by
  cases htree : U.tree with
  | some t => exact .inr ⟨t, .inl htree⟩
  | none =>
    cases hinit : S.written.initial with
    | none =>
      have hbuilt : S.spanningTree? = .error .noInitialState := by
        simp only [System.spanningTree?, System.initial?, hinit]
        rfl
      exact .inl ⟨rfl, rfl, spanningTree_of_error htree hbuilt⟩
    | some init =>
      have hi : S.initial? = .ok init := by rw [System.initial?, hinit]
      exact .inr ⟨_, .inr ⟨htree, System.spanningTree?_of_initial hi⟩⟩

theorem parikhVectors_of_uses (hv : U.vectors = none) (h : Uses S U t) :
    (parikhVectors S U).answer = (t.tree.parikhTable? U.events).mapError (fault S t) ∧
      (parikhVectors S U).state.tree = some t := by
  have hanswer := h.spanningTree_answer
  rw [parikhVectors_of_none hv, Attempt.answer_bind_of_ok hanswer,
    Attempt.state_bind_of_ok hanswer, spanningTree_state hanswer]
  cases t.tree.parikhTable? U.events <;> exact ⟨rfl, rfl⟩

theorem lookupVector_of_has {v : Value} (hhas : S.Has v) (U : RegionUtility) :
    lookupVector S v U = (parikhVectors S >>= fun table => pure (table.lookup v.key)) U := by
  have hrequire : Attempt.ofExcept (S.require v) U = ⟨.ok (), U, []⟩ := by
    rw [Attempt.ofExcept_apply, System.require, if_pos hhas]
  rw [lookupVector, Attempt.bind_of_ok hrequire, List.nil_append]

/-- For a state of the system, the kept or new vectors decide. -/
theorem reachingVector_of_has {v : Value} (hhas : S.Has v) (U : RegionUtility) :
    (reachingVector S v U).answer =
        ((parikhVectors S U).answer >>= fun table =>
          (table.lookup v.key).elim (.error (.unreachable v)) .ok) ∧
      (reachingVector S v U).state = (parikhVectors S U).state := by
  have hlookup := lookupVector_of_has hhas U
  have hanswer := (congrArg Outcome.answer hlookup).trans (Attempt.answer_bind_pure _ _ _)
  have hstate := (congrArg Outcome.state hlookup).trans (Attempt.state_bind_pure _ _ _)
  rw [← hstate, reachingVector]
  cases hv : (parikhVectors S U).answer with
  | error f =>
    rw [hv] at hanswer
    exact ⟨Attempt.answer_bind_of_error hanswer, Attempt.state_bind_of_error hanswer⟩
  | ok table =>
    rw [hv] at hanswer
    rw [Attempt.answer_bind_of_ok hanswer, Attempt.state_bind_of_ok hanswer]
    change _ = (table.lookup v.key).elim (Except.error (Fault.unreachable v)) Except.ok ∧ _
    cases table.lookup v.key <;> exact ⟨rfl, rfl⟩

end RegionUtility

/-- The faults of a lookup that finds no entry. -/
def Fault.NoEntry : Fault → Prop
  | .noVector _ => True
  | .noIndex _ => True
  | _ => False

namespace Session

variable {s s' : Session} {u : UtilityId} {p : PlacedUtility} {t : WrittenTree}

theorem Reached.charted (hs : s.Reached) :
    ∀ u p, s.utility? u = some p → p.utility.Charted := by
  induction hs with
  | empty => exact fun u p hp => by cases hp
  | step watched c hprev ih =>
    intro u p hp
    rcases step_utility?_cases hprev watched c hp with
      (⟨U, hU, hfills⟩ | ⟨U, hblank, hfills⟩) | ⟨S, hold, _⟩
    · have hbefore : U.Charted := ih u _ hU
      exact hbefore.fills hfills
    · exact hblank.charted.fills hfills
    · exact ih u { p with system := S } hold

/-! ## Commands that need vectors -/

theorem tellUtility_reachingVector_eq (p : PlacedUtility) (v : Value) (s : Session) :
    (tellUtility p (.reachingVector v) s).answer =
      (RegionUtility.reachingVector p.system v p.utility).answer.map .numbers :=
  Attempt.answer_bind_pure _ _ _

theorem tellUtility_vector_error {f : Fault} {v : Value} (hhas : p.system.Has v)
    (hf : (RegionUtility.parikhVectors p.system p.utility).answer = .error f) :
    (tellUtility p (.lookupVector v) s).answer = .error f ∧
      (tellUtility p (.reachingVector v) s).answer = .error f := by
  have hlookup : (onUtility p (RegionUtility.lookupVector p.system v) s).answer = .error f := by
    change (RegionUtility.lookupVector p.system v p.utility).answer = _
    rw [RegionUtility.lookupVector_of_has hhas]
    exact Attempt.answer_bind_of_error hf
  refine ⟨Attempt.answer_bind_of_error hlookup, ?_⟩
  rw [tellUtility_reachingVector_eq, (RegionUtility.reachingVector_of_has hhas _).1, hf]
  rfl

theorem tellUtility_matrix_error {f : Fault} (hc : p.utility.cycles = none)
    (hf : (RegionUtility.parikhVectors p.system p.utility).answer = .error f) :
    (tellUtility p .parikhMatrix s).answer = .error f ∧
      (tellUtility p .cycleMatrix s).answer = .error f ∧
      (tellUtility p .cycleVectors s).answer = .error f := by
  have hrows : (onUtility p (RegionUtility.parikhRows p.system) s).answer = .error f :=
    Attempt.answer_bind_of_error hf
  have hcycles : (RegionUtility.cycleVectors p.system p.utility).answer = .error f := by
    rw [RegionUtility.cycleVectors_of_none hc]
    exact Attempt.answer_bind_of_error hf
  have hcycleRows : (onUtility p (RegionUtility.cycleRows p.system) s).answer = .error f :=
    Attempt.answer_bind_of_error hcycles
  have hwritten : (onUtility p (RegionUtility.writtenCycleVectors p.system) s).answer = .error f :=
    Attempt.answer_bind_of_error hcycles
  exact ⟨Attempt.answer_bind_of_error hrows, Attempt.answer_bind_of_error hcycleRows,
    Attempt.answer_bind_of_error hwritten⟩

/-- The utility keeps no vectors, and whatever needs one fails for want of an index for `e`. -/
structure Lacks (e : String) (p : PlacedUtility) (s : Session) : Prop where
  vectors : p.utility.vectors = none
  cycles : p.utility.cycles = none
  lookup : ∀ v, p.system.Has v →
    (tellUtility p (.lookupVector v) s).answer = .error (.noIndex e)
  reaching : ∀ v, p.system.Has v →
    (tellUtility p (.reachingVector v) s).answer = .error (.noIndex e)
  matrix : (tellUtility p .parikhMatrix s).answer = .error (.noIndex e)
  cycleMatrix : (tellUtility p .cycleMatrix s).answer = .error (.noIndex e)
  cycleVectors : (tellUtility p .cycleVectors s).answer = .error (.noIndex e)

/-- A kept tree with an arc whose label is no event rules out vectors. -/
theorem Reached.lacks (hs : s.Reached) (hp : s.utility? u = some p)
    (ht : p.utility.tree = some t) {a : Arc Key}
    (ha : t.tree.arcs.find? (·.label ∉ p.utility.events) = some a) : Lacks a.label p s := by
  have htable : t.tree.parikhTable? p.utility.events = .error (.label a) := by
    rcases (hs.embedded u p hp t ht).grown.parikhTable?_cases p.utility.events with
      ⟨b, hb, herror⟩ | ⟨hnone, _⟩
    · obtain rfl := Option.some.inj (ha.symm.trans hb)
      exact herror
    · rw [hnone] at ha
      cases ha
  have hvectors : p.utility.vectors = none := by
    by_contra hsome
    obtain ⟨table, hkept⟩ := Option.ne_none_iff_exists'.1 hsome
    obtain ⟨t', ht', htable'⟩ := hs.charted u p hp table hkept
    obtain rfl := Option.some.inj (ht.symm.trans ht')
    rw [htable] at htable'
    cases htable'
  have hcycles : p.utility.cycles = none := by
    by_contra hsome
    have hkept := (hs.anchored u p hp).layered.cycles (Option.isSome_iff_ne_none.2 hsome)
    rw [hvectors] at hkept
    cases hkept
  have hfault : (RegionUtility.parikhVectors p.system p.utility).answer =
      .error (.noIndex a.label) := by
    rw [(RegionUtility.parikhVectors_of_uses hvectors (.inl ht)).1, htable]
    rfl
  obtain ⟨hmatrix, hcycleMatrix, hcycleVectors⟩ := tellUtility_matrix_error (s := s) hcycles hfault
  exact
    { vectors := hvectors
      cycles := hcycles
      lookup := fun v hhas => (tellUtility_vector_error hhas hfault).1
      reaching := fun v hhas => (tellUtility_vector_error hhas hfault).2
      matrix := hmatrix
      cycleMatrix := hcycleMatrix
      cycleVectors := hcycleVectors }

/-! ## A first query -/

theorem step_reachingVector {on : SlotName} (hp : s.utilityIn? on = some p) {v : Value}
    (hhas : p.system.Has v) (watched : Bool) :
    (step watched (.toUtility on (.reachingVector v)) s).1.answer =
        ((RegionUtility.parikhVectors p.system p.utility).answer >>= fun table =>
          (table.lookup v.key).elim (.error (.unreachable v)) fun vector => .ok (.numbers vector)) ∧
      (step watched (.toUtility on (.reachingVector v)) s).2 =
        s.setUtility p.id (RegionUtility.parikhVectors p.system p.utility).state := by
  obtain ⟨hanswer, hafter⟩ := step_toUtility hp watched (.reachingVector v)
  obtain ⟨hvector, hstate⟩ := RegionUtility.reachingVector_of_has hhas p.utility
  have hleft : (tellUtility p (.reachingVector v) s).state =
      s.setUtility p.id (RegionUtility.reachingVector p.system v p.utility).state :=
    Attempt.state_bind_pure _ _ _
  rw [hanswer, hafter, tellUtility_reachingVector_eq, hleft, hvector, hstate]
  refine ⟨?_, rfl⟩
  cases (RegionUtility.parikhVectors p.system p.utility).answer with
  | error f => rfl
  | ok table =>
    change Except.map Answer.numbers ((table.lookup v.key).elim _ _) = (table.lookup v.key).elim _ _
    cases table.lookup v.key <;> rfl

/-- How the labels of the tree arcs decide about a query for the vector of `v`: a label that is no event
has no index, and otherwise `v` is in the tree or not. -/
inductive VectorAnswer (arcs : List (Arc Key)) (events : List String) (v : Value) :
    Except Fault Answer → Prop
  | noIndex {a : Arc Key} : arcs.find? (·.label ∉ events) = some a →
      VectorAnswer arcs events v (.error (.noIndex a.label))
  | unreachable : arcs.find? (·.label ∉ events) = none →
      VectorAnswer arcs events v (.error (.unreachable v))
  | found (vector : List Int) : arcs.find? (·.label ∉ events) = none →
      VectorAnswer arcs events v (.ok (.numbers vector))

namespace VectorAnswer

variable {arcs : List (Arc Key)} {events : List String} {v : Value} {x : Except Fault Answer}

theorem ne_noInitialState (h : VectorAnswer arcs events v x) : x ≠ .error .noInitialState := by
  rintro rfl
  cases h

theorem noEntry_iff (h : VectorAnswer arcs events v x) :
    (∃ f, f.NoEntry ∧ x = .error f) ↔ ∃ a ∈ arcs, a.label ∉ events := by
  cases h with
  | @noIndex a ha =>
    have hlabel : a.label ∉ events := by simpa using List.find?_some ha
    exact iff_of_true ⟨.noIndex a.label, trivial, rfl⟩ ⟨a, List.mem_of_find?_eq_some ha, hlabel⟩
  | unreachable hnone =>
    refine iff_of_false ?_ (by simpa using List.find?_eq_none.1 hnone)
    rintro ⟨f, hf, herror⟩
    obtain rfl := Except.error.inj herror
    exact hf
  | found vector hnone =>
    refine iff_of_false ?_ (by simpa using List.find?_eq_none.1 hnone)
    rintro ⟨f, _, herror⟩
    cases herror

theorem eq_noIndex (h : VectorAnswer arcs events v x) {a : Arc Key}
    (ha : arcs.find? (·.label ∉ events) = some a) : x = .error (.noIndex a.label) := by
  cases h with
  | noIndex hb =>
    obtain rfl := Option.some.inj (ha.symm.trans hb)
    rfl
  | unreachable hnone =>
    rw [hnone] at ha
    cases ha
  | found _ hnone =>
    rw [hnone] at ha
    cases ha

end VectorAnswer

/-- Without a tree and without an initial state, the query is refused and changes nothing. -/
theorem step_reachingVector_of_noStart {on : SlotName} (hp : s.utilityIn? on = some p)
    (hv : p.utility.vectors = none) {v : Value} (hhas : p.system.Has v) (watched : Bool)
    (hnothing : RegionUtility.spanningTree p.system p.utility =
      ⟨.error .noInitialState, p.utility, []⟩) :
    (step watched (.toUtility on (.reachingVector v)) s).1.answer = .error .noInitialState ∧
      (step watched (.toUtility on (.reachingVector v)) s).2 = s := by
  obtain ⟨hanswer, hafter⟩ := step_reachingVector hp hhas watched
  have hvectors : RegionUtility.parikhVectors p.system p.utility =
      ⟨.error .noInitialState, p.utility, []⟩ := by
    rw [RegionUtility.parikhVectors_of_none hv]
    exact Attempt.bind_of_error hnothing
  rw [hvectors] at hanswer hafter
  exact ⟨hanswer, hafter.trans (setUtility_self (utilityIn?_eq_some_iff.1 hp).2)⟩

/-- With a tree, the query keeps it, and the labels of its arcs decide about the answer. -/
theorem step_reachingVector_of_uses {on : SlotName} (hs : s.Reached)
    (hp : s.utilityIn? on = some p) (hv : p.utility.vectors = none) {v : Value}
    (hhas : p.system.Has v) (watched : Bool) (ht : p.utility.Uses p.system t) :
    let told := step watched (.toUtility on (.reachingVector v)) s
    (∃ q, told.2.utility? p.id = some q ∧ q.utility.tree = some t ∧
      q.utility.events = p.utility.events) ∧
    VectorAnswer t.tree.arcs p.utility.events v told.1.answer := by
  intro told
  obtain ⟨_, hplaced⟩ := utilityIn?_eq_some_iff.1 hp
  have hleads := RegionUtility.parikhVectors_leads p.system p.utility
  obtain ⟨hvectors, hkept⟩ := RegionUtility.parikhVectors_of_uses hv ht
  obtain ⟨hanswer, hafter⟩ := step_reachingVector hp hhas watched
  refine ⟨⟨{ p with utility := _ }, ?_, hkept, (RegionUtility.fills_frame hleads).2⟩, ?_⟩
  · rw [hafter]
    exact utility?_onUtility hplaced hleads
  · have hinside := ht.inside (hs.valid hplaced) (hs.embedded _ _ hplaced)
    rcases hinside.grown.parikhTable?_cases p.utility.events with
      ⟨a, ha, htable⟩ | ⟨hnone, table, htable, _⟩
    · rw [hvectors, htable] at hanswer
      exact hanswer ▸ .noIndex ha
    · rw [hvectors, htable] at hanswer
      cases hfound : table.lookup v.key with
      | none => exact hanswer.trans (congrArg (Option.elim · _ _) hfound) ▸ .unreachable hnone
      | some vector =>
        exact hanswer.trans (congrArg (Option.elim · _ _) hfound) ▸ .found vector hnone

/-- A query for the vector of a state, while no vectors are kept, is refused for want of an initial state
just if there is neither a kept tree nor an initial state, and then nothing is kept. Otherwise a tree
is kept from then on, and the query finds no entry just if a tree arc has a label that is no event: the
label of the first such arc has no index, and so it is for good. -/
theorem vectors_missing_for_good {on : SlotName} (hs : s.Reached) (hp : s.utilityIn? on = some p)
    (hv : p.utility.vectors = none) {v : Value} (hhas : p.system.Has v) (watched : Bool) :
    let told := step watched (.toUtility on (.reachingVector v)) s
    (told.1.answer = .error .noInitialState ↔
      p.utility.tree = none ∧ p.system.written.initial = none) ∧
    (told.1.answer = .error .noInitialState → told.2 = s) ∧
    (told.1.answer ≠ .error .noInitialState → ∃ t q, p.utility.Uses p.system t ∧
      told.2.utility? p.id = some q ∧ q.utility.tree = some t ∧
      ((∃ f, f.NoEntry ∧ told.1.answer = .error f) ↔
        ∃ a ∈ t.tree.arcs, a.label ∉ p.utility.events) ∧
      ∀ a, t.tree.arcs.find? (·.label ∉ p.utility.events) = some a →
        told.1.answer = .error (.noIndex a.label) ∧
        ∀ s', told.2.Later s' → ∃ q, s'.utility? p.id = some q ∧ Lacks a.label q s') := by
  intro told
  rcases RegionUtility.spanningTree_cases p.system p.utility with
    ⟨htree, hinit, hnothing⟩ | ⟨t, ht⟩
  · obtain ⟨hanswer, hsame⟩ := step_reachingVector_of_noStart hp hv hhas watched hnothing
    exact ⟨⟨fun _ => ⟨htree, hinit⟩, fun _ => hanswer⟩, fun _ => hsame, fun hne => absurd hanswer hne⟩
  · obtain ⟨⟨q, hq, hkept, hevents⟩, hvector⟩ :=
      step_reachingVector_of_uses hs hp hv hhas watched ht
    have hanswer := hvector.ne_noInitialState
    refine ⟨⟨fun h => absurd h hanswer, fun h => absurd h ht.exists_start⟩,
      fun h => absurd h hanswer, fun _ => ⟨t, q, ht, hq, hkept, hvector.noEntry_iff, fun a ha =>
        ⟨hvector.eq_noIndex ha, fun s' hlater => ?_⟩⟩⟩
    have hreached : told.2.Reached := .step watched _ hs
    obtain ⟨q', hq', hbecomes⟩ := hlater.utility? hreached hq
    refine ⟨q', hq', (hlater.reached hreached).lacks hq' (hbecomes.tree t hkept) ?_⟩
    rw [hbecomes.events, hevents]
    exact ha

/-! ## A label that comes too late -/

/-- The ring with an arc to its unreachable state, which was added after the utility was made. -/
def lateRing : Session :=
  (step false (.toSystem "lts" (.createArc (.text "s2") (.text "s3") (.text "d"))) ringSession).2

def lateUtility : PlacedUtility := ⟨0, ringRegion.holding.utility,
  ringSystem.addArc ⟨.text "s2", .text "s3", "d"⟩⟩

theorem reached_lateRing : lateRing.Reached := .step false _ steady_ringSession.reached

theorem vectors_missing_for_good_lateRing :
    lateRing.Reached ∧ lateRing.utilityIn? "utility" = some lateUtility ∧
      lateUtility.utility.vectors = none ∧ lateUtility.system.Has (.text "s0") ∧
      let told := step false (.toUtility "utility" (.reachingVector (.text "s0"))) lateRing
      told.1.answer = .error (.noIndex "d") ∧
        ∀ s', told.2.Later s' → ∃ q, s'.utility? 0 = some q ∧ Lacks "d" q s' := by
  have hp : lateRing.utilityIn? "utility" = some lateUtility := by rfl
  have hhas : lateUtility.system.Has (.text "s0") := by decide
  obtain ⟨hstart, _, hrest⟩ := vectors_missing_for_good reached_lateRing hp rfl hhas false
  have hne : (step false (.toUtility "utility" (.reachingVector (.text "s0"))) lateRing).1.answer ≠
      .error .noInitialState := by
    intro h
    exact absurd (hstart.1 h).2 (by decide)
  obtain ⟨t, _, ht, _, _, _, hfirst⟩ := hrest hne
  have hinit : lateUtility.system.initial? = .ok (.text "s0") := rfl
  obtain rfl : lateUtility.system.treeFrom (.text "s0") = t := by
    rcases ht with hkept | ⟨_, hbuilt⟩
    · cases hkept
    · exact Except.ok.inj ((System.spanningTree?_of_initial hinit).symm.trans hbuilt)
  have harc : (lateUtility.system.treeFrom (.text "s0")).tree.arcs.find?
      (·.label ∉ lateUtility.utility.events) =
      some ⟨(Value.text "s2").key, (Value.text "s3").key, "d"⟩ := by decide +kernel
  exact ⟨reached_lateRing, hp, rfl, hhas, hfirst _ harc⟩

end Session

end RegionCalculus
