import RegionCalculus.Proofs.Discovery
import RegionCalculus.Proofs.Vectors

/-!
# Cycle consistency and potentials

Over the spanning tree of a valid system, the test of the extra arcs says that the net effect of the
root paths is a potential. The least marking that keeps every reachable state from falling below zero
is read off the same potential.

* `EventOrder G events`: the events are distinct and name every label.
* `cycleConsistent_iff`: the test of the cycle vectors against potentials.
* `normalMarking_le_iff`: the normal marking is a least upper bound.
-/

namespace RegionCalculus
set_option autoImplicit false

variable {ι : Type}

structure EventOrder (G : Lts ι) (events : List String) : Prop where
  nodup : events.Nodup
  label_mem : ∀ a ∈ G.arcs, a.label ∈ events

namespace Lts

variable [DecidableEq ι] {G : Lts ι} {root : ι} {events : List String}

theorem extraArcs?_spanningTree (hG : G.Valid) (hroot : root ∈ G.states) :
    (G.spanningTree root).extraArcs? G = .ok ((G.spanningTree root).extraArcs G) :=
  Tree.extraArcs?_of_subset fun _ hs => ((mem_states_spanningTree hG).1 hs).mem_states hG hroot

theorem mem_extraArcs_spanningTree (hG : G.Valid) {a : Arc ι} :
    a ∈ (G.spanningTree root).extraArcs G ↔
      a ∈ G.arcs ∧ G.Reach root a.source ∧ a ∉ (G.spanningTree root).arcs := by
  rw [Tree.mem_extraArcs, mem_states_spanningTree hG]

theorem parikhTable?_spanningTree (hG : G.Valid) (he : EventOrder G events) (root : ι) :
    (G.spanningTree root).parikhTable? events =
      .ok ((G.spanningTree root).states.map fun s =>
        (s, (G.spanningTree root).vector events s)) :=
  (grown_spanningTree hG root).parikhTable?_eq he.nodup fun a ha =>
    he.label_mem a (mem_arcs_of_mem_spanningTree ha)

theorem cycleVectors?_spanningTree (hG : G.Valid) (he : EventOrder G events) (root : ι) :
    cycleVectors? events ((G.spanningTree root).states.map fun s =>
        (s, (G.spanningTree root).vector events s)) ((G.spanningTree root).extraArcs G) =
      .ok (((G.spanningTree root).extraArcs G).map fun a =>
        (a, (G.spanningTree root).cycleVector events a)) := by
  refine Tree.cycleVectors?_eq he.nodup fun a ha => ?_
  obtain ⟨ha, hs, _⟩ := (mem_extraArcs_spanningTree hG).1 ha
  exact ⟨(mem_states_spanningTree hG).2 hs, (mem_states_spanningTree hG).2 (.arc ha hs),
    he.label_mem a ha⟩

/-! ## The potential of a spanning tree -/

/-- The net effect of the way to `s` in the spanning tree. -/
def treePotential (G : Lts ι) (root : ι) (events : List String) (net : List Int) : ι → Int :=
  (G.spanningTree root).potential events net

theorem treePotential_root (hG : G.Valid) (net : List Int) :
    G.treePotential root events net root = 0 :=
  (grown_spanningTree hG root).potential_root net

/-- The way to each state in the spanning tree realises the potential. -/
theorem realised_treePotential (hG : G.Valid) (he : EventOrder G events) (net : List Int) :
    G.Realised root (weightOf events net) (G.treePotential root events net) := by
  have hgrown := grown_spanningTree hG root
  intro s hs
  have hmem := (mem_states_spanningTree hG).2 hs
  refine ⟨(G.spanningTree root).rootPath s,
    hgrown.run_rootPath (fun a ha => mem_arcs_of_mem_spanningTree ha) s hmem, ?_⟩
  exact (hgrown.potential_eq_runEffect he.nodup
    (fun a ha => he.label_mem a (mem_arcs_of_mem_spanningTree ha)) net hmem).symm

/-- The cycle vectors have no net effect exactly if the net effect of the root paths is a potential:
tree arcs obey the equation of a potential anyway, and a cycle vector states it for an extra arc. -/
theorem cycleConsistent_iff (hG : G.Valid) (he : EventOrder G events) (net : List Int) :
    cycleConsistent (((G.spanningTree root).extraArcs G).map fun a =>
        (a, (G.spanningTree root).cycleVector events a)) net = true ↔
      G.Potential root (weightOf events net) (G.treePotential root events net) := by
  have hgrown := grown_spanningTree hG root
  have hlabel : ∀ a ∈ (G.spanningTree root).arcs, a.label ∈ events := fun a ha =>
    he.label_mem a (mem_arcs_of_mem_spanningTree ha)
  simp only [cycleConsistent, List.all_map, List.all_eq_true, Function.comp_apply,
    decide_eq_true_eq, treePotential]
  constructor
  · intro h a ha hs
    by_cases htree : a ∈ (G.spanningTree root).arcs
    · exact hgrown.potential_target he.nodup hlabel net htree
    · have hcycle := h a ((mem_extraArcs_spanningTree hG).2 ⟨ha, hs, htree⟩)
      rw [Tree.dot_cycleVector he.nodup (he.label_mem a ha)] at hcycle
      omega
  · intro h a hextra
    obtain ⟨ha, hs, _⟩ := (mem_extraArcs_spanningTree hG).1 hextra
    have hstep := h a ha hs
    rw [Tree.dot_cycleVector he.nodup (he.label_mem a ha)]
    omega

end Lts

/-! ## The normal marking -/

/-- The fold of the normal marking stays below a bound exactly if its start and all values do. -/
theorem foldl_marking_le_iff (value : ι → Option Int) (states : List ι) (start bound : Int) :
    states.foldl (fun m s =>
        match value s with
        | none => m
        | some x => max m (-x)) start ≤ bound ↔
      start ≤ bound ∧ ∀ s ∈ states, ∀ x, value s = some x → 0 ≤ bound + x := by
  induction states generalizing start with
  | nil => simp
  | cons s states ih =>
    rw [List.foldl_cons, ih, List.forall_mem_cons]
    cases hs : value s with
    | none => simp
    | some x =>
      simp only [Option.some.injEq, forall_eq', max_le_iff, and_assoc]
      refine and_congr_right fun _ => and_congr_left fun _ => ?_
      omega

variable [DecidableEq ι]

theorem normalMarking_le_iff {table : List (ι × List Int)} {states : List ι} {net : List Int}
    {m : Int} :
    normalMarking table states net ≤ m ↔
      0 ≤ m ∧ ∀ s ∈ states, ∀ v, table.lookup s = some v → 0 ≤ m + dot v net := by
  have hfold : normalMarking table states net =
      states.foldl (fun m s =>
        match (table.lookup s).map fun v => dot v net with
        | none => m
        | some x => max m (-x)) 0 := by
    unfold normalMarking
    congr 1
    funext m s
    cases table.lookup s <;> rfl
  rw [hfold, foldl_marking_le_iff]
  simp

/-- Over the spanning tree, the normal marking is the least one that is not negative and leaves no
reachable state below zero. -/
theorem Lts.normalMarking_spanningTree_le_iff {G : Lts ι} (hG : G.Valid) {root : ι}
    (hroot : root ∈ G.states) {events : List String} {net : List Int} {m : Int} :
    normalMarking ((G.spanningTree root).states.map fun s =>
        (s, (G.spanningTree root).vector events s)) G.states net ≤ m ↔
      0 ≤ m ∧ ∀ s, G.Reach root s → 0 ≤ m + G.treePotential root events net s := by
  rw [normalMarking_le_iff]
  refine and_congr_right fun _ => ?_
  simp only [lookup_map_pair]
  constructor
  · intro h s hs
    exact h s (hs.mem_states hG hroot) _ (if_pos ((mem_states_spanningTree hG).2 hs))
  · intro h s _ v hv
    by_cases hs : s ∈ (G.spanningTree root).states
    · rw [if_pos hs] at hv
      rw [← Option.some.inj hv]
      exact h s ((mem_states_spanningTree hG).1 hs)
    · simp [hs] at hv

end RegionCalculus
