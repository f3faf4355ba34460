import RegionCalculus.Region.Basic

/-!
# Region builders

A builder collects weights step by step; they may be negative on the way. Finishing it copies the
weights into a region, which checks them.

* `Builder`: the weights of a builder.
* `Builder.read?`, `ofNet?`, `ofRegion`: new builders.
* `Builder.addLoop?`, `addScaled?`, `purified`: the steps.
* `Builder.finish?`, `finishNormal`: regions with a given and with the normal marking.
-/

namespace RegionCalculus
set_option autoImplicit false

/-- Weights of a utility that are being collected. -/
structure Builder where
  utility : UtilityId
  weights : Weights

namespace Builder

/-! ## New builders -/

/-- A builder from values; a list that is left out is all zero. -/
def read? (utility : UtilityId) (events : Nat) (backward forward : Option (List Value)) :
    Except Fault Builder := do
  let zeros := List.replicate events (Value.integer 0)
  let w ← Weights.read? events (backward.getD zeros) (forward.getD zeros)
  return ⟨utility, w⟩

/-- A builder whose weights have a given net effect and never both take and put. -/
def ofNet? (utility : UtilityId) (events : Nat) (net : List Value) : Except Fault Builder := do
  let v ← readWeights .net events net
  return ⟨utility, Weights.ofNet v⟩

/-- A builder with the weights of a region. -/
def ofRegion (R : Region) : Builder := ⟨R.utility, R.weights⟩

def shown (B : Builder) : String :=
  let b := Value.bracketed (B.weights.backward.map toString)
  let f := Value.bracketed (B.weights.forward.map toString)
  s!"RegionBuilder(backward={b}, forward={f})"

/-! ## Steps -/

/-- Lets an event take and put more. -/
def addLoop? (B : Builder) (U : RegionUtility) (event weight : Value) : Except Fault Builder := do
  let i ← U.resolve? event
  let k ← weight.integer? .loopWeight
  return { B with weights := B.weights.addLoop i k }

/-- Adds `factor` times a region of the same utility. -/
def addScaled? (B : Builder) (R : Region) (events : Nat) (factor : Value) : Except Fault Builder :=
  if R.utility ≠ B.utility then .error .notAddable
  else do
    let k ← factor.integer? .factor
    return { B with weights := B.weights.accumulate events R.weights k }

/-- Keeps the net effect, but no event both takes and puts. -/
def purified (B : Builder) : Builder := { B with weights := B.weights.purified }

/-! ## Regions -/

/-- A region with the collected weights and a given marking. -/
def finish? (B : Builder) (events : Nat) (marking : Value) : Except Fault Region :=
  Region.read? B.utility events (B.weights.backward.map .integer)
    (B.weights.forward.map .integer) marking

/-- Looks whether the weights are cycle-consistent, and notes if they are not. -/
def inspect (B : Builder) (S : System) : Attempt RegionUtility Unit := do
  let consistent ← RegionUtility.isConsistent S B.weights.net
  if consistent then return () else Attempt.note .inconsistentWeights

/-- A region with the collected weights and their normal marking. A watched run inspects the weights
before the marking is derived. -/
def finishNormal (B : Builder) (S : System) (watched : Bool) : Attempt RegionUtility Region := do
  Attempt.provided watched (B.inspect S)
  let m ← RegionUtility.normalMarkingFor S B.weights.net
  let U ← Attempt.state
  Attempt.ofExcept (Region.ofWeights? B.utility U.size B.weights (some m))

end Builder

/-- The region with the same net weights, no event that both takes and puts, and the normal marking. It
comes from a new builder with these net weights. -/
def Region.purified (R : Region) (S : System) (watched : Bool) : Attempt RegionUtility Region := do
  let U ← Attempt.state
  let B ← Attempt.ofExcept (Builder.ofNet? R.utility U.size (R.weights.net.map .integer))
  B.finishNormal S watched

end RegionCalculus
