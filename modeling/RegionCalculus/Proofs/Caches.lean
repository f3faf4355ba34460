import RegionCalculus.Proofs.Attempts
import RegionCalculus.Proofs.Consistency
import RegionCalculus.RegionUtility.Queries

/-!
# The kept results of a utility

A utility keeps its tree, its Parikh vectors and its cycle vectors, each from its first use on. While
the system stays as it is, a kept result is what would be computed anew, so queries answer as if
nothing were kept.

* `Fill S U U'`: one result more is kept, computed for the system `S`. Every query to a utility of
  `S` takes such steps only.
* `System.vectors? S events`, `cycleVectors?`, `normalMarking?`: the results, computed anew.
* `InStep S U`: what `U` keeps is what would be computed for `S`.
-/

namespace RegionCalculus
set_option autoImplicit false

/-! ## Results computed anew -/

namespace System

def vectors? (S : System) (events : List String) : Except Fault (List (Key × List Int)) := do
  let t ← S.spanningTree?
  (t.tree.parikhTable? events).mapError (RegionUtility.fault S t)

def normalMarking? (S : System) (events : List String) (net : List Int) : Except Fault Int :=
  if S.written.states.isEmpty then .ok 0
  else (S.vectors? events).map fun table => normalMarking table S.lts.states net

def cycleVectors? (S : System) (events : List String) :
    Except Fault (List (Arc Key × List Int)) := do
  let table ← S.vectors? events
  let t ← S.spanningTree?
  let extra ← (t.tree.extraArcs? S.lts).mapError (t.fault S)
  (RegionCalculus.cycleVectors? events table extra).mapError (RegionUtility.fault S t)

end System

namespace RegionUtility

variable {S : System} {U U' : RegionUtility}

inductive Fill (S : System) : RegionUtility → RegionUtility → Prop
  | tree {U : RegionUtility} {t : WrittenTree} :
      U.tree = none → S.spanningTree? = .ok t → Fill S U { U with tree := some t }
  | vectors {U : RegionUtility} {t : WrittenTree} {table : List (Key × List Int)} :
      U.tree = some t → U.vectors = none → t.tree.parikhTable? U.events = .ok table →
      Fill S U { U with vectors := some table }
  | cycles {U : RegionUtility} {t : WrittenTree} {table : List (Key × List Int)}
      {extra : List (Arc Key)} {cycles : List (Arc Key × List Int)} :
      U.tree = some t → U.vectors = some table → U.cycles = none →
      t.tree.extraArcs? S.lts = .ok extra →
      RegionCalculus.cycleVectors? U.events table extra = .ok cycles →
      Fill S U { U with cycles := some cycles }

theorem Fill.system_eq (h : Fill S U U') : U'.system = U.system := by
  cases h <;> rfl

theorem Fill.events_eq (h : Fill S U U') : U'.events = U.events := by
  cases h <;> rfl

theorem Fill.vectors_eq (h : Fill S U U') {table : List (Key × List Int)}
    (hv : U.vectors = some table) : U'.vectors = some table := by
  cases h with
  | tree _ _ => exact hv
  | vectors _ hnone _ => rw [hnone] at hv; cases hv
  | cycles _ _ _ _ _ => exact hv

/-! ## One spec for each kept result -/

theorem spanningTree_of_some {t : WrittenTree} (h : U.tree = some t) :
    spanningTree S U = ⟨.ok t, U, []⟩ := by
  simp [spanningTree, Attempt.bind_apply, Attempt.andThen, h]

theorem spanningTree_of_error {f : Fault} (h : U.tree = none) (ht : S.spanningTree? = .error f) :
    spanningTree S U = ⟨.error f, U, []⟩ := by
  simp [spanningTree, System.buildTree, Attempt.bind_apply, Attempt.andThen, h, ht]

theorem spanningTree_of_ok {t : WrittenTree} (h : U.tree = none) (ht : S.spanningTree? = .ok t) :
    spanningTree S U =
      ⟨.ok t, { U with tree := some t }, [.treeBuilt t.tree.size S.size]⟩ := by
  simp only [spanningTree, System.buildTree, Attempt.bind_apply, Attempt.andThen,
    Attempt.state_apply, Attempt.ofExcept_apply, Attempt.note_apply, Attempt.update_apply,
    Attempt.pure_apply, h, ht, List.nil_append, List.append_nil]

/-- The tree is the only result that is touched. -/
theorem spanningTree_frame (S : System) (U : RegionUtility) :
    (spanningTree S U).state = { U with tree := (spanningTree S U).state.tree } := by
  cases hU : U.tree with
  | some t => rw [spanningTree_of_some hU]
  | none =>
    cases ht : S.spanningTree? with
    | error f => rw [spanningTree_of_error hU ht]
    | ok t => rw [spanningTree_of_ok hU ht]

/-- An answered tree is kept, and nothing else changes. -/
theorem spanningTree_state {t : WrittenTree} (h : (spanningTree S U).answer = .ok t) :
    (spanningTree S U).state = { U with tree := some t } := by
  cases hU : U.tree with
  | some t' =>
    rw [spanningTree_of_some hU] at h ⊢
    obtain rfl : t' = t := by simpa using h
    rw [← hU]
  | none =>
    cases ht : S.spanningTree? with
    | error f => simp [spanningTree_of_error hU ht] at h
    | ok t' =>
      rw [spanningTree_of_ok hU ht] at h ⊢
      obtain rfl : t' = t := by simpa using h
      rfl

theorem spanningTree_leads (S : System) (U : RegionUtility) :
    (spanningTree S).Leads (Fill S) U := by
  cases hU : U.tree with
  | some t => exact .of_state_eq (by rw [spanningTree_of_some hU])
  | none =>
    cases ht : S.spanningTree? with
    | error f => exact .of_state_eq (by rw [spanningTree_of_error hU ht])
    | ok t =>
      unfold Attempt.Leads
      rw [spanningTree_of_ok hU ht]
      exact .single (.tree hU ht)

theorem parikhVectors_of_some {table : List (Key × List Int)} (h : U.vectors = some table) :
    parikhVectors S U = ⟨.ok table, U, []⟩ := by
  simp [parikhVectors, Attempt.bind_apply, Attempt.andThen, h]

theorem parikhVectors_of_none (h : U.vectors = none) :
    parikhVectors S U = (spanningTree S >>= fun t =>
      match t.tree.parikhTable? U.events with
      | .error gap => Attempt.fail (fault S t gap)
      | .ok table => do
        Attempt.update fun U => { U with vectors := some table }
        Attempt.note (.vectorsComputed table.length)
        return table) U := by
  rewrite [parikhVectors, Attempt.bind_of_ok (Attempt.state_apply U), h, List.nil_append]
  rfl

theorem parikhVectors_state {table : List (Key × List Int)}
    (h : (parikhVectors S U).answer = .ok table) :
    (parikhVectors S U).state.vectors = some table := by
  cases hU : U.vectors with
  | some table' =>
    rw [parikhVectors_of_some hU] at h ⊢
    obtain rfl : table' = table := by simpa using h
    exact hU
  | none =>
    rw [parikhVectors_of_none hU] at h ⊢
    obtain ⟨t, _, htable, hstate⟩ := Attempt.bind_ok h
    rw [hstate]
    cases hp : t.tree.parikhTable? U.events with
    | error gap => simp [hp] at htable
    | ok table' =>
      simp only [hp] at htable ⊢
      obtain rfl : table' = table := Except.ok.inj htable
      rfl

theorem parikhVectors_leads (S : System) (U : RegionUtility) :
    (parikhVectors S).Leads (Fill S) U := by
  cases hU : U.vectors with
  | some table => exact .of_state_eq (by rw [parikhVectors_of_some hU])
  | none =>
    unfold Attempt.Leads
    rw [parikhVectors_of_none hU]
    refine (spanningTree_leads S U).bind fun t ht => ?_
    rw [spanningTree_state ht]
    cases hp : t.tree.parikhTable? U.events with
    | error gap => exact .fail _
    | ok table =>
      exact (Attempt.Leads.update (.single (.vectors rfl hU hp))).bind fun _ _ =>
        (Attempt.Leads.note _).bind fun _ _ => .pure _

theorem cycleVectors_of_some {cycles : List (Arc Key × List Int)} (h : U.cycles = some cycles) :
    cycleVectors S U = ⟨.ok cycles, U, []⟩ := by
  simp [cycleVectors, Attempt.bind_apply, Attempt.andThen, h]

/-- Without kept cycle vectors, they are computed from the table and the extra arcs of the tree. -/
theorem cycleVectors_of_none (h : U.cycles = none) :
    cycleVectors S U = (parikhVectors S >>= fun table => spanningTree S >>= fun t =>
      match t.tree.extraArcs? S.lts with
      | .error m => Attempt.fail (t.fault S m)
      | .ok extra =>
        match RegionCalculus.cycleVectors? U.events table extra with
        | .error gap => Attempt.fail (fault S t gap)
        | .ok cycles => do
          Attempt.update fun U => { U with cycles := some cycles }
          Attempt.note (.cyclesComputed cycles.length)
          return cycles) U := by
  rewrite [cycleVectors, Attempt.bind_of_ok (Attempt.state_apply U), h, List.nil_append]
  rfl

theorem parikhVectors_keeps_cycles (S : System) (U : RegionUtility) :
    (parikhVectors S U).state.cycles = U.cycles := by
  cases hU : U.vectors with
  | some table => rw [parikhVectors_of_some hU]
  | none =>
    rw [parikhVectors_of_none hU]
    cases ht : (spanningTree S U).answer with
    | error f => rw [Attempt.state_bind_of_error ht, spanningTree_frame]
    | ok t =>
      rw [Attempt.state_bind_of_ok ht, spanningTree_frame]
      cases t.tree.parikhTable? U.events <;> rfl

theorem fills_frame (h : Relation.ReflTransGen (Fill S) U U') :
    U'.system = U.system ∧ U'.events = U.events := by
  induction h with
  | refl => exact ⟨rfl, rfl⟩
  | tail _ hstep ih => exact ⟨hstep.system_eq.trans ih.1, hstep.events_eq.trans ih.2⟩

theorem fills_size (h : Relation.ReflTransGen (Fill S) U U') : U'.size = U.size :=
  congrArg List.length (fills_frame h).2

theorem fills_vectors (h : Relation.ReflTransGen (Fill S) U U') {table : List (Key × List Int)}
    (hv : U.vectors = some table) : U'.vectors = some table := by
  induction h with
  | refl => exact hv
  | tail _ hstep ih => exact hstep.vectors_eq ih

theorem cycleVectors_leads (S : System) (U : RegionUtility) :
    (cycleVectors S).Leads (Fill S) U := by
  cases hU : U.cycles with
  | some cycles => exact .of_state_eq (by rw [cycleVectors_of_some hU])
  | none =>
    unfold Attempt.Leads
    rw [cycleVectors_of_none hU]
    refine (parikhVectors_leads S U).bind fun table htable => ?_
    have hvectors := parikhVectors_state htable
    have hcycles := (parikhVectors_keeps_cycles S U).trans hU
    have hevents := (fills_frame (parikhVectors_leads S U)).2
    refine (spanningTree_leads S _).bind fun t ht => ?_
    rw [spanningTree_state ht]
    cases hx : t.tree.extraArcs? S.lts with
    | error m => exact .fail _
    | ok extra =>
      dsimp only
      cases hc : RegionCalculus.cycleVectors? U.events table extra with
      | error gap => exact .fail _
      | ok cycles =>
        have hfill : Fill S { (parikhVectors S U).state with tree := some t }
            { (parikhVectors S U).state with tree := some t, cycles := some cycles } :=
          .cycles rfl hvectors hcycles hx (hevents ▸ hc)
        exact (Attempt.Leads.update (.single hfill)).bind fun _ _ =>
          (Attempt.Leads.note _).bind fun _ _ => .pure _

/-! ## Queries fill -/

theorem reachableStates_leads (S : System) (U : RegionUtility) :
    (reachableStates S).Leads (Fill S) U :=
  (spanningTree_leads S U).bind fun _ _ => .pure _

theorem unreachableStates_leads (S : System) (U : RegionUtility) :
    (unreachableStates S).Leads (Fill S) U :=
  (spanningTree_leads S U).bind fun _ _ => .pure _

theorem lookupVector_leads (S : System) (v : Value) (U : RegionUtility) :
    (lookupVector S v).Leads (Fill S) U :=
  (Attempt.Leads.ofExcept _).bind fun _ _ => (parikhVectors_leads S _).bind fun _ _ => .pure _

theorem reachingVector_leads (S : System) (v : Value) (U : RegionUtility) :
    (reachingVector S v).Leads (Fill S) U := by
  refine (lookupVector_leads S v U).bind fun found _ => ?_
  cases found with
  | none => exact .fail _
  | some vector => exact .pure _

theorem parikhRows_leads (S : System) (U : RegionUtility) : (parikhRows S).Leads (Fill S) U :=
  (parikhVectors_leads S U).bind fun _ _ => (spanningTree_leads S _).bind fun _ _ => .pure _

theorem cycleRows_leads (S : System) (U : RegionUtility) : (cycleRows S).Leads (Fill S) U :=
  (cycleVectors_leads S U).bind fun _ _ => .pure _

theorem writtenCycleVectors_leads (S : System) (U : RegionUtility) :
    (writtenCycleVectors S).Leads (Fill S) U :=
  (cycleVectors_leads S U).bind fun _ _ => (spanningTree_leads S _).bind fun _ _ => .pure _

theorem isConsistent_leads (S : System) (net : List Int) (U : RegionUtility) :
    (isConsistent S net).Leads (Fill S) U :=
  (cycleVectors_leads S U).bind fun _ _ => .pure _

theorem normalMarkingFor_of_empty (h : S.written.states.isEmpty = true) (net : List Int) :
    normalMarkingFor S net = pure 0 := if_pos h

theorem normalMarkingFor_of_nonempty (h : S.written.states.isEmpty = false) (net : List Int) :
    normalMarkingFor S net = (parikhVectors S >>= fun table =>
      pure (normalMarking table S.lts.states net)) := if_neg (by simp [h])

theorem normalMarkingFor_leads (S : System) (net : List Int) (U : RegionUtility) :
    (normalMarkingFor S net).Leads (Fill S) U := by
  cases h : S.written.states.isEmpty with
  | true =>
    rw [normalMarkingFor_of_empty h]
    exact .pure _
  | false =>
    rw [normalMarkingFor_of_nonempty h]
    exact (parikhVectors_leads S U).bind fun _ _ => .pure _

/-! ## Utilities in step with their system -/

/-- The events name the labels of the system, and what is kept is what would be computed. -/
structure InStep (S : System) (U : RegionUtility) : Prop where
  order : EventOrder S.lts U.events
  tree : ∀ t, U.tree = some t → S.spanningTree? = .ok t
  vectors : ∀ table, U.vectors = some table → S.vectors? U.events = .ok table
  cycles : ∀ cycles, U.cycles = some cycles → S.cycleVectors? U.events = .ok cycles

/-- A new utility is in step, as nothing is kept in it. -/
theorem inStep_new {i : SystemId} {events : List String} (he : EventOrder S.lts events) :
    InStep S { system := i, events } where
  order := he
  tree := fun _ h => by cases h
  vectors := fun _ h => by cases h
  cycles := fun _ h => by cases h

theorem vectors?_of_ok {events : List String} {t : WrittenTree} (ht : S.spanningTree? = .ok t) :
    S.vectors? events = (t.tree.parikhTable? events).mapError (fault S t) := by
  rw [System.vectors?, ht]
  rfl

theorem cycleVectors?_of_ok {events : List String} {t : WrittenTree} {table : List (Key × List Int)}
    (ht : S.spanningTree? = .ok t) (hv : S.vectors? events = .ok table) :
    S.cycleVectors? events = ((t.tree.extraArcs? S.lts).mapError (t.fault S) >>= fun extra =>
      (RegionCalculus.cycleVectors? events table extra).mapError (fault S t)) := by
  rw [System.cycleVectors?, hv, ht]
  rfl

theorem Fill.inStep (h : Fill S U U') (hU : InStep S U) : InStep S U' := by
  cases h with
  | @tree t hnone ht =>
    refine ⟨hU.order, fun t' ht' => ?_, hU.vectors, hU.cycles⟩
    rw [← Option.some.inj ht']
    exact ht
  | @vectors t table htree hnone htable =>
    refine ⟨hU.order, hU.tree, fun table' h' => ?_, hU.cycles⟩
    rw [← Option.some.inj h', vectors?_of_ok (hU.tree t htree), htable]
    rfl
  | @cycles t table extra cycles htree hvectors hnone hextra hcycles =>
    refine ⟨hU.order, hU.tree, hU.vectors, fun cycles' h' => ?_⟩
    rw [← Option.some.inj h',
      cycleVectors?_of_ok (hU.tree t htree) (hU.vectors table hvectors), hextra]
    change (RegionCalculus.cycleVectors? U.events table extra).mapError _ = _
    rw [hcycles]
    rfl

theorem InStep.fills (hU : InStep S U) (h : Relation.ReflTransGen (Fill S) U U') :
    InStep S U' := by
  induction h with
  | refl => exact hU
  | tail _ hstep ih => exact hstep.inStep ih

/-! ## Answers in step -/

theorem InStep.spanningTree_answer (hU : InStep S U) :
    (spanningTree S U).answer = S.spanningTree? := by
  cases h : U.tree with
  | some t => rw [spanningTree_of_some h, hU.tree t h]
  | none =>
    cases ht : S.spanningTree? with
    | error f => rw [spanningTree_of_error h ht]
    | ok t => rw [spanningTree_of_ok h ht]

theorem InStep.parikhVectors_answer (hU : InStep S U) :
    (parikhVectors S U).answer = S.vectors? U.events := by
  cases h : U.vectors with
  | some table => rw [parikhVectors_of_some h, hU.vectors table h]
  | none =>
    rw [parikhVectors_of_none h]
    cases ht : S.spanningTree? with
    | error f =>
      rw [Attempt.answer_bind_of_error (hU.spanningTree_answer.trans ht), System.vectors?, ht]
      rfl
    | ok t =>
      rw [Attempt.answer_bind_of_ok (hU.spanningTree_answer.trans ht), vectors?_of_ok ht]
      cases t.tree.parikhTable? U.events <;> rfl

theorem InStep.cycleVectors_answer (hU : InStep S U) :
    (cycleVectors S U).answer = S.cycleVectors? U.events := by
  cases h : U.cycles with
  | some cycles => rw [cycleVectors_of_some h, hU.cycles cycles h]
  | none =>
    rw [cycleVectors_of_none h]
    cases hv : S.vectors? U.events with
    | error f =>
      rw [Attempt.answer_bind_of_error (hU.parikhVectors_answer.trans hv), System.cycleVectors?, hv]
      rfl
    | ok table =>
      have hU' := hU.fills (parikhVectors_leads S U)
      rw [Attempt.answer_bind_of_ok (hU.parikhVectors_answer.trans hv)]
      cases ht : S.spanningTree? with
      | error f =>
        rw [System.vectors?, ht] at hv
        cases hv
      | ok t =>
        rw [Attempt.answer_bind_of_ok (hU'.spanningTree_answer.trans ht), cycleVectors?_of_ok ht hv]
        cases t.tree.extraArcs? S.lts with
        | error m => rfl
        | ok extra =>
          dsimp only
          change _ = (RegionCalculus.cycleVectors? U.events table extra).mapError (fault S t)
          cases RegionCalculus.cycleVectors? U.events table extra <;> rfl

theorem InStep.isConsistent_answer (hU : InStep S U) (net : List Int) :
    (isConsistent S net U).answer =
      (S.cycleVectors? U.events).map fun cycles => cycleConsistent cycles net := by
  cases h : S.cycleVectors? U.events with
  | error f => exact Attempt.answer_bind_of_error (hU.cycleVectors_answer.trans h)
  | ok cycles => exact Attempt.answer_bind_of_ok (hU.cycleVectors_answer.trans h)

theorem InStep.normalMarkingFor_answer (hU : InStep S U) (net : List Int) :
    (normalMarkingFor S net U).answer = S.normalMarking? U.events net := by
  cases hempty : S.written.states.isEmpty with
  | true => rw [normalMarkingFor_of_empty hempty, System.normalMarking?, if_pos hempty]; rfl
  | false =>
    rw [normalMarkingFor_of_nonempty hempty, System.normalMarking?, if_neg (by simp [hempty])]
    cases h : S.vectors? U.events with
    | error f => exact Attempt.answer_bind_of_error (hU.parikhVectors_answer.trans h)
    | ok table => exact Attempt.answer_bind_of_ok (hU.parikhVectors_answer.trans h)

theorem InStep.lookupVector_answer (hU : InStep S U) {v : Value} (hv : S.Has v) :
    (lookupVector S v U).answer = (S.vectors? U.events).map fun table => table.lookup v.key := by
  have hrequire : (Attempt.ofExcept (S.require v) U).answer = .ok () := by
    simp [System.require, hv]
  rw [lookupVector, Attempt.answer_bind_of_ok hrequire]
  cases h : S.vectors? U.events with
  | error f => exact Attempt.answer_bind_of_error (hU.parikhVectors_answer.trans h)
  | ok table => exact Attempt.answer_bind_of_ok (hU.parikhVectors_answer.trans h)

end RegionUtility

end RegionCalculus
