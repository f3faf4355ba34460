import RegionCalculus.Proofs.Caches
import RegionCalculus.Proofs.Validity

/-!
# What the results are

For a valid system with an initial state, none of the results of a utility fails, and each is read off
the spanning tree from the initial state.

* `System.treeFrom S init`: the spanning tree, as written.
* `Lts.vectorTable G root events`: the Parikh vectors of the tree states.
* `RegionUtility.InStep.isConsistent_iff`, `normalMarkingFor_least`, `reachingVector_of_reach`: what
  a utility in step answers about net weights and states.
-/

namespace RegionCalculus
set_option autoImplicit false

def Lts.vectorTable {ι : Type} [DecidableEq ι] (G : Lts ι) (root : ι) (events : List String) :
    List (ι × List Int) :=
  (G.spanningTree root).states.map fun s => (s, (G.spanningTree root).vector events s)

theorem Lts.lookup_vectorTable {ι : Type} [DecidableEq ι] {G : Lts ι} (hG : G.Valid) {root s : ι}
    (events : List String) (hs : G.Reach root s) :
    (G.vectorTable root events).lookup s = some ((G.spanningTree root).vector events s) := by
  rw [vectorTable, lookup_map_pair, if_pos ((mem_states_spanningTree hG).2 hs)]

namespace System

variable {S : System} {init : Value} {events : List String}

/-! ## The results of a valid system -/

def treeFrom (S : System) (init : Value) : WrittenTree :=
  ⟨S.lts.spanningTree init.key, init :: (S.lts.spanningTree init.key).arcs.map S.targetForm⟩

theorem spanningTree?_of_initial (hi : S.initial? = .ok init) :
    S.spanningTree? = .ok (S.treeFrom init) := by
  rw [spanningTree?, hi]
  rfl

theorem initial_of_ok (hi : S.initial? = .ok init) : S.lts.initial = some init.key := by
  unfold initial? at hi
  cases h : S.written.initial with
  | none => simp [h] at hi
  | some v =>
    obtain rfl : v = init := by simpa [h] using hi
    simp [h]

theorem initial_mem (hS : S.lts.Valid) (hi : S.initial? = .ok init) : init.key ∈ S.lts.states :=
  hS.initial_mem _ (initial_of_ok hi)

theorem states_ne_nil (hS : S.lts.Valid) (hi : S.initial? = .ok init) :
    S.written.states.isEmpty = false := by
  have hmem := initial_mem hS hi
  rw [lts_states] at hmem
  cases h : S.written.states with
  | nil => simp [h] at hmem
  | cons v vs => rfl

theorem vectors?_eq (hS : S.lts.Valid) (hi : S.initial? = .ok init)
    (he : EventOrder S.lts events) :
    S.vectors? events = .ok (S.lts.vectorTable init.key events) := by
  rw [RegionUtility.vectors?_of_ok (spanningTree?_of_initial hi), treeFrom,
    Lts.parikhTable?_spanningTree hS he]
  rfl

theorem cycleVectors?_eq (hS : S.lts.Valid) (hi : S.initial? = .ok init)
    (he : EventOrder S.lts events) :
    S.cycleVectors? events = .ok (((S.lts.spanningTree init.key).extraArcs S.lts).map fun a =>
      (a, (S.lts.spanningTree init.key).cycleVector events a)) := by
  rw [RegionUtility.cycleVectors?_of_ok (spanningTree?_of_initial hi) (vectors?_eq hS hi he),
    treeFrom, Lts.extraArcs?_spanningTree hS (initial_mem hS hi)]
  change (RegionCalculus.cycleVectors? events (S.lts.vectorTable init.key events) _).mapError _ = _
  rw [Lts.vectorTable, Lts.cycleVectors?_spanningTree hS he]
  rfl

theorem normalMarking?_eq (hS : S.lts.Valid) (hi : S.initial? = .ok init)
    (he : EventOrder S.lts events) (net : List Int) :
    S.normalMarking? events net =
      .ok (normalMarking (S.lts.vectorTable init.key events) S.lts.states net) := by
  rw [normalMarking?, states_ne_nil hS hi, vectors?_eq hS hi he]
  rfl

end System

namespace RegionUtility.InStep

variable {S : System} {U : RegionUtility} {init : Value}

/-! ## The answers of a utility in step -/

/-- Consistency is answered, and it says that the net effect of the tree paths is a potential. -/
theorem isConsistent_iff (hU : InStep S U) (hS : S.lts.Valid) (hi : S.initial? = .ok init)
    (net : List Int) :
    ∃ b, (isConsistent S net U).answer = .ok b ∧
      (b = true ↔ S.lts.Potential init.key (weightOf U.events net)
        (S.lts.treePotential init.key U.events net)) := by
  refine ⟨_, ?_, S.lts.cycleConsistent_iff hS hU.order net⟩
  rw [hU.isConsistent_answer, System.cycleVectors?_eq hS hi hU.order]
  rfl

/-- The normal marking is the least that leaves no reachable state below zero. -/
theorem normalMarkingFor_least (hU : InStep S U) (hS : S.lts.Valid) (hi : S.initial? = .ok init)
    (net : List Int) :
    ∃ n, (normalMarkingFor S net U).answer = .ok n ∧
      ∀ m, n ≤ m ↔ 0 ≤ m ∧
        ∀ s, S.lts.Reach init.key s → 0 ≤ m + S.lts.treePotential init.key U.events net s := by
  refine ⟨normalMarking (S.lts.vectorTable init.key U.events) S.lts.states net, ?_, fun m => ?_⟩
  · rw [hU.normalMarkingFor_answer, System.normalMarking?_eq hS hi hU.order]
  · exact Lts.normalMarking_spanningTree_le_iff hS (System.initial_mem hS hi)

theorem reachingVector_of_reach (hU : InStep S U) (hS : S.lts.Valid) (hi : S.initial? = .ok init)
    {v : Value} (hv : S.lts.Reach init.key v.key) :
    (reachingVector S v U).answer =
      .ok ((S.lts.spanningTree init.key).vector U.events v.key) := by
  have hhas : S.Has v := hv.mem_states hS (System.initial_mem hS hi)
  have hlookup : (lookupVector S v U).answer =
      .ok (some ((S.lts.spanningTree init.key).vector U.events v.key)) := by
    rw [hU.lookupVector_answer hhas, System.vectors?_eq hS hi hU.order, Except.map,
      Lts.lookup_vectorTable hS U.events hv]
  exact Attempt.answer_bind_of_ok hlookup

end RegionUtility.InStep

end RegionCalculus
