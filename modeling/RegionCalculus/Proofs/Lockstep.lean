import RegionCalculus.Proofs.Histories

/-!
# Commands that do not see the cycle vectors

Two sessions that differ only in which cycle vectors their utilities keep answer every command alike,
and differ in no more afterwards.

* `Attempt.Alike view x y s s'`: `x` from `s` and `y` from `s'` answer the same, and the states that
  they leave look the same through `view`. It is proved part by part, along `bind`.
* `RegionUtility.withoutCycles`, `Session.withoutCycles`: the view, which forgets the cycle vectors.
* `RegionUtility.Layered U`: cycle vectors are kept with Parikh vectors only, and those with a tree only.
* `Session.perform_alike`: a watched and an unwatched run of a command, from sessions whose utilities
  are in step with their systems.
-/

namespace RegionCalculus
set_option autoImplicit false

/-! ## Two runs of attempts -/

namespace Attempt

variable {σ τ ρ α β : Type} {view : σ → τ}

def Alike (view : σ → τ) (x y : Attempt σ α) (s s' : σ) : Prop :=
  (x s).answer = (y s').answer ∧ view (x s).state = view (y s').state

namespace Alike

variable {s s' : σ}

theorem pure (h : view s = view s') (a : α) : Alike view (Pure.pure a) (Pure.pure a) s s' := ⟨rfl, h⟩

theorem fail (h : view s = view s') (f : Fault) :
    Alike view (Attempt.fail f : Attempt σ α) (Attempt.fail f) s s' := ⟨rfl, h⟩

theorem ofExcept (h : view s = view s') (e : Except Fault α) :
    Alike view (Attempt.ofExcept e) (Attempt.ofExcept e) s s' := ⟨rfl, h⟩

theorem note (h : view s = view s') (n : Note) :
    Alike view (Attempt.note n) (Attempt.note n) s s' := ⟨rfl, h⟩

theorem update {f g : σ → σ} (h : view (f s) = view (g s')) :
    Alike view (Attempt.update f) (Attempt.update g) s s' := ⟨rfl, h⟩

theorem bind {x y : Attempt σ α} {k l : α → Attempt σ β} (hx : Alike view x y s s')
    (hk : ∀ a, view (x s).state = view (y s').state → Alike view (k a) (l a) (x s).state (y s').state) :
    Alike view (x >>= k) (y >>= l) s s' := by
  obtain ⟨hanswer, hview⟩ := hx
  unfold Alike
  cases h : (x s).answer with
  | error f =>
    have h' : (y s').answer = .error f := hanswer.symm.trans h
    rw [answer_bind_of_error h, answer_bind_of_error h', state_bind_of_error h,
      state_bind_of_error h']
    exact ⟨rfl, hview⟩
  | ok a =>
    have h' : (y s').answer = .ok a := hanswer.symm.trans h
    rw [answer_bind_of_ok h, answer_bind_of_ok h', state_bind_of_ok h, state_bind_of_ok h']
    exact hk a hview

/-- Two runs that look at their states and go on. -/
theorem state_bind {k l : σ → Attempt σ β} (h : Alike view (k s) (l s') s s') :
    Alike view (Attempt.state >>= k) (Attempt.state >>= l) s s' := by
  unfold Alike
  rw [bind_of_ok (state_apply s), bind_of_ok (state_apply s')]
  exact h

/-- Two runs that check the same and go on with what was found. -/
theorem ofExcept_bind {e : Except Fault α} {k l : α → Attempt σ β} (h : view s = view s')
    (hk : ∀ a, e = .ok a → Alike view (k a) (l a) s s') :
    Alike view (Attempt.ofExcept e >>= k) (Attempt.ofExcept e >>= l) s s' := by
  cases e with
  | error f => exact ⟨rfl, h⟩
  | ok a => exact hk a rfl

theorem mapM {f g : α → Attempt σ β}
    (h : ∀ a s s', view s = view s' → Alike view (f a) (g a) s s') (l : List α)
    (hs : view s = view s') : Alike view (l.mapM f) (l.mapM g) s s' := by
  induction l generalizing s s' with
  | nil => exact pure hs []
  | cons a l ih =>
    rw [List.mapM_cons, List.mapM_cons]
    exact (h a s s' hs).bind fun _ h' => (ih h').bind fun _ h'' => pure h'' _

/-- Attempts on parts of two states that look the same on the parts. -/
theorem within {ω π : Type} {get get' : σ → ω} {set set' : ω → σ → σ} {part : ω → π}
    {x y : Attempt ω α} (h : Alike part x y (get s) (get' s'))
    (hset : ∀ t t', part t = part t' → view (set t s) = view (set' t' s')) :
    Alike view (Attempt.within get set x) (Attempt.within get' set' y) s s' :=
  ⟨h.1, hset _ _ h.2⟩

end Alike

end Attempt

open Attempt

/-- Two options that look the same are both empty or both full. -/
theorem map_eq_cases {α β : Type} {view : α → β} {o o' : Option α} (h : o.map view = o'.map view) :
    o = none ∧ o' = none ∨ ∃ a a', o = some a ∧ o' = some a' ∧ view a = view a' := by
  cases o with
  | none =>
    rw [Option.map_none, eq_comm, Option.map_eq_none_iff] at h
    exact .inl ⟨rfl, h⟩
  | some a =>
    rw [Option.map_some, eq_comm, Option.map_eq_some_iff] at h
    obtain ⟨a', h', ha⟩ := h
    exact .inr ⟨a, a', rfl, h', ha.symm⟩

/-! ## Queries to a utility -/

namespace RegionUtility

variable {S : System} {U U' : RegionUtility}

def withoutCycles (U : RegionUtility) : RegionUtility := { U with cycles := none }

theorem fields_of_withoutCycles_eq (h : U.withoutCycles = U'.withoutCycles) :
    U.system = U'.system ∧ U.events = U'.events ∧ U.tree = U'.tree ∧ U.vectors = U'.vectors := by
  simpa [withoutCycles] using h

theorem exists_of_withoutCycles_eq (h : U.withoutCycles = U'.withoutCycles) :
    ∃ cycles, U' = { U with cycles } := by
  obtain ⟨hsystem, hevents, htree, hvectors⟩ := fields_of_withoutCycles_eq h
  exact ⟨U'.cycles, by rw [hsystem, hevents, htree, hvectors]⟩

theorem spanningTree_alike (S : System) (h : U.withoutCycles = U'.withoutCycles) :
    Alike withoutCycles (spanningTree S) (spanningTree S) U U' := by
  obtain ⟨_, _, htree, _⟩ := fields_of_withoutCycles_eq h
  unfold Alike
  cases hU : U.tree with
  | some t =>
    rw [spanningTree_of_some hU, spanningTree_of_some (htree.symm.trans hU)]
    exact ⟨rfl, h⟩
  | none =>
    cases ht : S.spanningTree? with
    | error f =>
      rw [spanningTree_of_error hU ht, spanningTree_of_error (htree.symm.trans hU) ht]
      exact ⟨rfl, h⟩
    | ok t =>
      rw [spanningTree_of_ok hU ht, spanningTree_of_ok (htree.symm.trans hU) ht]
      exact ⟨rfl, congrArg (fun V => { V with tree := some t }) h⟩

theorem parikhVectors_alike (S : System) (h : U.withoutCycles = U'.withoutCycles) :
    Alike withoutCycles (parikhVectors S) (parikhVectors S) U U' := by
  obtain ⟨_, hevents, _, hvectors⟩ := fields_of_withoutCycles_eq h
  unfold Alike
  cases hU : U.vectors with
  | some table =>
    rw [parikhVectors_of_some hU, parikhVectors_of_some (hvectors.symm.trans hU)]
    exact ⟨rfl, h⟩
  | none =>
    rw [parikhVectors_of_none hU, parikhVectors_of_none (hvectors.symm.trans hU), hevents]
    refine (spanningTree_alike S h).bind fun t h' => ?_
    cases t.tree.parikhTable? U'.events with
    | error gap => exact .fail h' _
    | ok table =>
      have hkept := congrArg (fun V => { V with vectors := some table }) h'
      exact (Alike.update hkept).bind fun _ h'' =>
        (Alike.note h'' _).bind fun _ h''' => .pure h''' _

theorem reachableStates_alike (S : System) (h : U.withoutCycles = U'.withoutCycles) :
    Alike withoutCycles (reachableStates S) (reachableStates S) U U' :=
  (spanningTree_alike S h).bind fun _ h' => .pure h' _

theorem unreachableStates_alike (S : System) (h : U.withoutCycles = U'.withoutCycles) :
    Alike withoutCycles (unreachableStates S) (unreachableStates S) U U' :=
  (spanningTree_alike S h).bind fun _ h' => .pure h' _

theorem lookupVector_alike (S : System) (v : Value) (h : U.withoutCycles = U'.withoutCycles) :
    Alike withoutCycles (lookupVector S v) (lookupVector S v) U U' :=
  (Alike.ofExcept h _).bind fun _ h' => (parikhVectors_alike S h').bind fun _ h'' => .pure h'' _

theorem reachingVector_alike (S : System) (v : Value) (h : U.withoutCycles = U'.withoutCycles) :
    Alike withoutCycles (reachingVector S v) (reachingVector S v) U U' := by
  refine (lookupVector_alike S v h).bind fun found h' => ?_
  cases found with
  | none => exact .fail h' _
  | some vector => exact .pure h' _

theorem parikhRows_alike (S : System) (h : U.withoutCycles = U'.withoutCycles) :
    Alike withoutCycles (parikhRows S) (parikhRows S) U U' :=
  (parikhVectors_alike S h).bind fun _ h' => (spanningTree_alike S h').bind fun _ h'' =>
    .pure h'' _

theorem normalMarkingFor_alike (S : System) (net : List Int)
    (h : U.withoutCycles = U'.withoutCycles) :
    Alike withoutCycles (normalMarkingFor S net) (normalMarkingFor S net) U U' := by
  unfold normalMarkingFor
  split
  · exact .pure h _
  · exact (parikhVectors_alike S h).bind fun _ h' => .pure h' _

/-! ## Cycle vectors -/

/-- Later results are kept only together with the earlier ones. -/
structure Layered (U : RegionUtility) : Prop where
  vectors : U.vectors.isSome → U.tree.isSome
  cycles : U.cycles.isSome → U.vectors.isSome

theorem Blank.layered (h : U.Blank S) : U.Layered where
  vectors := fun hv => by simp [h.vectors] at hv
  cycles := fun hc => by simp [h.cycles] at hc

theorem Fill.layered (h : Fill S U U') (hU : U.Layered) : U'.Layered := by
  cases h with
  | tree _ _ => exact ⟨fun _ => rfl, hU.cycles⟩
  | vectors htree _ _ => exact ⟨fun _ => by simp [htree], fun _ => rfl⟩
  | cycles htree hvectors _ _ _ => exact ⟨hU.vectors, fun _ => by simp [hvectors]⟩

theorem Layered.fills (hU : U.Layered) (h : Relation.ReflTransGen (Fill S) U U') :
    U'.Layered := by
  induction h with
  | refl => exact hU
  | tail _ hstep ih => exact hstep.layered ih

/-- Asking for the cycle vectors computes, apart from them, what asking for the Parikh vectors does. -/
theorem withoutCycles_cycleVectors (S : System) (hU : U.Layered) :
    (cycleVectors S U).state.withoutCycles = (parikhVectors S U).state.withoutCycles := by
  cases hc : U.cycles with
  | some cycles =>
    obtain ⟨table, hv⟩ := Option.isSome_iff_exists.1 (hU.cycles (by simp [hc]))
    rw [cycleVectors_of_some hc, parikhVectors_of_some hv]
  | none =>
    rw [cycleVectors_of_none hc]
    cases hv : (parikhVectors S U).answer with
    | error f => rw [Attempt.state_bind_of_error hv]
    | ok table =>
      rw [Attempt.state_bind_of_ok hv]
      have hlayered := hU.fills (parikhVectors_leads S U)
      obtain ⟨t, ht⟩ := Option.isSome_iff_exists.1
        (hlayered.vectors (by simp [parikhVectors_state hv]))
      have htree := spanningTree_of_some (S := S) ht
      have hanswer : (spanningTree S (parikhVectors S U).state).answer = .ok t := by rw [htree]
      rw [Attempt.state_bind_of_ok hanswer, htree]
      cases t.tree.extraArcs? S.lts with
      | error m => rfl
      | ok extra =>
        dsimp only
        cases RegionCalculus.cycleVectors? U.events table extra <;> rfl

theorem Blank.inStep (h : U.Blank S) : U.InStep S where
  order := h.order
  tree := fun t ht => by simp [h.tree] at ht
  vectors := fun table hv => by simp [h.vectors] at hv
  cycles := fun cycles hc => by simp [h.cycles] at hc

/-! ## Utilities in step -/

/-- A utility of a valid system with states, in step with it. -/
structure Calm (S : System) (U : RegionUtility) : Prop where
  valid : S.lts.Valid
  states : S.written.states.isEmpty = false
  inStep : U.InStep S
  layered : U.Layered

theorem Calm.cycleVectors_alike (hU : Calm S U) (hU' : Calm S U')
    (h : U.withoutCycles = U'.withoutCycles) :
    Alike withoutCycles (cycleVectors S) (cycleVectors S) U U' := by
  refine ⟨?_, ?_⟩
  · obtain ⟨_, hevents, _⟩ := fields_of_withoutCycles_eq h
    rw [hU.inStep.cycleVectors_answer, hU'.inStep.cycleVectors_answer, hevents]
  · rw [withoutCycles_cycleVectors S hU.layered, withoutCycles_cycleVectors S hU'.layered]
    exact (parikhVectors_alike S h).2

theorem Calm.cycleRows_alike (hU : Calm S U) (hU' : Calm S U')
    (h : U.withoutCycles = U'.withoutCycles) :
    Alike withoutCycles (cycleRows S) (cycleRows S) U U' :=
  (hU.cycleVectors_alike hU' h).bind fun _ h' => .pure h' _

theorem Calm.writtenCycleVectors_alike (hU : Calm S U) (hU' : Calm S U')
    (h : U.withoutCycles = U'.withoutCycles) :
    Alike withoutCycles (writtenCycleVectors S) (writtenCycleVectors S) U U' :=
  (hU.cycleVectors_alike hU' h).bind fun _ h' => (spanningTree_alike S h').bind fun _ h'' =>
    .pure h'' _

theorem Calm.isConsistent_alike (hU : Calm S U) (hU' : Calm S U') (net : List Int)
    (h : U.withoutCycles = U'.withoutCycles) :
    Alike withoutCycles (isConsistent S net) (isConsistent S net) U U' :=
  (hU.cycleVectors_alike hU' h).bind fun _ h' => .pure h' _

/-- If the Parikh vectors can be computed, so can the cycle vectors. -/
theorem Calm.cycleVectors_of_vectors (hU : Calm S U) {table : List (Key × List Int)}
    (hv : S.vectors? U.events = .ok table) :
    ∃ cycles, S.cycleVectors? U.events = .ok cycles := by
  obtain ⟨t, ht, _⟩ := except_bind_eq_ok.1 hv
  obtain ⟨init, hinit, _⟩ := except_bind_eq_ok.1 ht
  exact ⟨_, System.cycleVectors?_eq hU.valid hinit hU.inStep.order⟩

end RegionUtility

/-! ## Finishing a builder -/

namespace Builder

open RegionUtility

variable {S : System} {U U' : RegionUtility}

/-- Inspecting the weights asks for the cycle vectors and does no more to the utility. -/
theorem inspect_outcome (B : Builder) (S : System) (U : RegionUtility) :
    (B.inspect S U).answer = (cycleVectors S U).answer.map (fun _ => ()) ∧
      (B.inspect S U).state = (cycleVectors S U).state := by
  have hinspect : B.inspect S = (cycleVectors S >>= fun cycles =>
      if cycleConsistent cycles B.weights.net then pure ()
      else Attempt.note .inconsistentWeights) := by
    simp only [inspect, RegionUtility.isConsistent, bind_assoc, pure_bind]
  rw [hinspect]
  cases hc : (cycleVectors S U).answer with
  | error f =>
    rw [Attempt.answer_bind_of_error hc, Attempt.state_bind_of_error hc]
    exact ⟨rfl, rfl⟩
  | ok cycles =>
    rw [Attempt.answer_bind_of_ok hc, Attempt.state_bind_of_ok hc]
    split <;> exact ⟨rfl, rfl⟩

/-- Inspecting the weights first makes no difference for the Parikh vectors. -/
theorem inspect_alike (B : Builder) (hU' : Calm S U')
    (h : U.withoutCycles = U'.withoutCycles) :
    Alike withoutCycles (parikhVectors S) (B.inspect S >>= fun _ => parikhVectors S) U U' := by
  obtain ⟨hanswer, hview⟩ := parikhVectors_alike S h
  obtain ⟨hinspect, hstate⟩ := B.inspect_outcome S U'
  have hview' := hview.trans (withoutCycles_cycleVectors S hU'.layered).symm
  rw [hU'.inStep.cycleVectors_answer] at hinspect
  unfold Alike
  cases hv : S.vectors? U'.events with
  | error f =>
    have herror : S.cycleVectors? U'.events = .error f := by
      rw [System.cycleVectors?, hv]
      rfl
    rw [herror] at hinspect
    rw [Attempt.answer_bind_of_error hinspect, Attempt.state_bind_of_error hinspect, hstate]
    exact ⟨hanswer.trans (hU'.inStep.parikhVectors_answer.trans hv), hview'⟩
  | ok table =>
    obtain ⟨cycles, hcycles⟩ := hU'.cycleVectors_of_vectors hv
    have hvectors := hanswer.trans (hU'.inStep.parikhVectors_answer.trans hv)
    have hkept : (cycleVectors S U').state.vectors = some table :=
      (fields_of_withoutCycles_eq hview').2.2.2.symm.trans (parikhVectors_state hvectors)
    rw [hcycles] at hinspect
    rw [Attempt.answer_bind_of_ok hinspect, Attempt.state_bind_of_ok hinspect, hstate,
      parikhVectors_of_some hkept]
    exact ⟨hvectors, hview'⟩

/-- The region that is finished once the Parikh vectors are there. -/
def finishFrom (B : Builder) (S : System) (table : List (Key × List Int)) :
    Attempt RegionUtility Region := do
  let U ← Attempt.state
  Attempt.ofExcept (Region.ofWeights? B.utility U.size B.weights
    (some (normalMarking table S.lts.states B.weights.net)))

theorem finishNormal_eq (B : Builder) (hS : S.written.states.isEmpty = false) (watched : Bool) :
    B.finishNormal S watched =
      (Attempt.provided watched (B.inspect S) >>= fun _ => parikhVectors S) >>= B.finishFrom S := by
  rw [finishNormal, normalMarkingFor_of_nonempty hS]
  simp only [bind_assoc, pure_bind]
  rfl

theorem finishFrom_alike (B : Builder) (S : System) (table : List (Key × List Int))
    (h : U.withoutCycles = U'.withoutCycles) :
    Alike withoutCycles (B.finishFrom S table) (B.finishFrom S table) U U' := by
  have hsize : U.size = U'.size := congrArg List.length (fields_of_withoutCycles_eq h).2.1
  have hanswer : ∀ V, (B.finishFrom S table V).answer =
      Region.ofWeights? B.utility V.size B.weights
        (some (normalMarking table S.lts.states B.weights.net)) := fun _ => rfl
  refine ⟨?_, h⟩
  rw [hanswer, hanswer, hsize]

/-- A watched builder finishes as an unwatched one does. -/
theorem finishNormal_alike (B : Builder) (hU : Calm S U) (hU' : Calm S U')
    (h : U.withoutCycles = U'.withoutCycles) :
    Alike withoutCycles (B.finishNormal S false) (B.finishNormal S true) U U' := by
  rw [B.finishNormal_eq hU.states, B.finishNormal_eq hU.states, Attempt.provided_false,
    Attempt.provided_true, pure_bind]
  exact (B.inspect_alike hU' h).bind fun table h' => B.finishFrom_alike S table h'

end Builder

/-- A watched session purifies a region as an unwatched one does. -/
theorem Region.purified_alike {S : System} {U U' : RegionUtility} (R : Region)
    (hU : U.Calm S) (hU' : U'.Calm S) (h : U.withoutCycles = U'.withoutCycles) :
    Alike RegionUtility.withoutCycles (R.purified S false) (R.purified S true) U U' := by
  have hsize : U.size = U'.size :=
    congrArg List.length (RegionUtility.fields_of_withoutCycles_eq h).2.1
  refine .state_bind ?_
  rw [hsize]
  exact .ofExcept_bind h fun B _ => B.finishNormal_alike hU hU' h

/-! ## Derivations -/

def Holding.withoutCycles (h : Holding) : Holding := { h with utility := h.utility.withoutCycles }

namespace Region

variable {S : System} {h h' : Holding}

theorem holding_eq (heq : h.withoutCycles = h'.withoutCycles) :
    h.region = h'.region ∧ h.utility.withoutCycles = h'.utility.withoutCycles := by
  simpa [Holding.withoutCycles] using heq

theorem ask_alike {α : Type} {q : Attempt RegionUtility α} (heq : h.withoutCycles = h'.withoutCycles)
    (hq : Alike RegionUtility.withoutCycles q q h.utility h'.utility) :
    Alike Holding.withoutCycles (ask q) (ask q) h h' := by
  obtain ⟨hregion, _⟩ := holding_eq heq
  refine ⟨hq.1, ?_⟩
  rw [ask_state, ask_state, hregion]
  exact congrArg (Holding.mk h'.region) hq.2

theorem isConsistent_alike (hU : h.utility.Calm S) (hU' : h'.utility.Calm S)
    (heq : h.withoutCycles = h'.withoutCycles) :
    Alike Holding.withoutCycles (isConsistent S) (isConsistent S) h h' := by
  obtain ⟨hregion, hutility⟩ := holding_eq heq
  unfold Alike
  rw [isConsistent_eq, isConsistent_eq, hregion]
  exact ask_alike heq (hU.isConsistent_alike hU' _ hutility)

theorem normalMarking_alike (S : System) (heq : h.withoutCycles = h'.withoutCycles) :
    Alike Holding.withoutCycles (normalMarking S) (normalMarking S) h h' := by
  obtain ⟨hregion, hutility⟩ := holding_eq heq
  unfold Alike
  rw [normalMarking_eq, normalMarking_eq, hregion]
  exact ask_alike heq (RegionUtility.normalMarkingFor_alike S _ hutility)

theorem initialMarking_alike (S : System) (heq : h.withoutCycles = h'.withoutCycles) :
    Alike Holding.withoutCycles (initialMarking S) (initialMarking S) h h' := by
  obtain ⟨hregion, _⟩ := holding_eq heq
  unfold Alike
  cases hm : h.region.marking? with
  | some m =>
    have hm' : h'.region.marking? = some m := hregion ▸ hm
    rw [initialMarking_of_some hm, initialMarking_of_some hm']
    exact ⟨rfl, heq⟩
  | none =>
    have hm' : h'.region.marking? = none := hregion ▸ hm
    rw [initialMarking_of_none hm, initialMarking_of_none hm']
    refine (normalMarking_alike S heq).bind fun m h₁ => ?_
    have hkept := congrArg
      (fun k : Holding => { k with region := { k.region with derived := some m } }) h₁
    exact (Alike.update hkept).bind fun _ h₂ => (Alike.note h₂ _).bind fun _ h₃ => .pure h₃ _

theorem markingOf_alike (S : System) (v : Value) (heq : h.withoutCycles = h'.withoutCycles) :
    Alike Holding.withoutCycles (markingOf S v) (markingOf S v) h h' := by
  obtain ⟨hregion, hutility⟩ := holding_eq heq
  have hsize : h.utility.size = h'.utility.size :=
    congrArg List.length (RegionUtility.fields_of_withoutCycles_eq hutility).2.1
  unfold Alike
  cases hm : h.region.markings.lookup v.key with
  | some m =>
    have hm' : h'.region.markings.lookup v.key = some m := hregion ▸ hm
    rw [markingOf_of_some hm, markingOf_of_some hm']
    exact ⟨rfl, heq⟩
  | none =>
    have hm' : h'.region.markings.lookup v.key = none := hregion ▸ hm
    rw [markingOf_of_none hm, markingOf_of_none hm', hregion, hsize]
    refine (ask_alike heq (RegionUtility.reachingVector_alike S v hutility)).bind fun vector h₁ => ?_
    refine (initialMarking_alike S h₁).bind fun start h₂ => ?_
    refine (Alike.ofExcept h₂ _).bind fun effect h₃ => ?_
    have hkept := congrArg (fun k : Holding => { k with region :=
      { k.region with markings := (v.key, start + effect) :: k.region.markings } }) h₃
    exact (Alike.update hkept).bind fun _ h₄ => .pure h₄ _

end Region

end RegionCalculus
