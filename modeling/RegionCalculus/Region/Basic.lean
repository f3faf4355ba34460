import RegionCalculus.RegionUtility.Queries

/-!
# Regions

A region gives weights that are not negative to the events of a utility, and an initial marking. A
marking that was not given is derived on first use: it is the normal marking of the net weights.

* `Region`: the weights, the given marking, and what has been derived so far.
* `Region.read?`: a region from values; the one place where weights and marking are checked.
* `Region.ofWeights?`: the same from integers.
* `Region.addScaled?`: the sum with a multiple of another region.
* `Holding`: a region with its utility, on which derivations work.
* `Region.initialMarking`, `normalMarking`, `markingOf`, `isConsistent`: the derivations.
-/

namespace RegionCalculus
set_option autoImplicit false

abbrev UtilityId := Nat

/-- A region of a utility. Markings of states that have been asked for are kept. -/
structure Region where
  utility : UtilityId
  weights : Weights
  given : Option Int := none
  derived : Option Int := none
  markings : List (Key × Int) := []

namespace Region

/-! ## Construction -/

/-- A marking that a value gives; `null` leaves it to be derived. -/
def readMarking : Value → Except Fault (Option Int)
  | .null => .ok none
  | v => (v.integer? .initialMarking).map some

/-- Refuses a negative marking. -/
def checkMarking : Option Int → Except Fault Unit
  | some m => if m < 0 then .error (.negativeMarking m) else .ok ()
  | none => .ok ()

/-- A region of utility `utility` with `events` events, from values. -/
def read? (utility : UtilityId) (events : Nat) (backward forward : List Value) (marking : Value) :
    Except Fault Region := do
  let w ← Weights.read? events backward forward
  w.checkSigns
  let m ← readMarking marking
  checkMarking m
  return { utility, weights := w, given := m }

/-- A region of utility `utility` with `events` events, from integers. -/
def ofWeights? (utility : UtilityId) (events : Nat) (w : Weights) (marking : Option Int) :
    Except Fault Region :=
  read? utility events (w.backward.map .integer) (w.forward.map .integer)
    (match marking with
     | some m => .integer m
     | none => .null)

/-! ## Accessors -/

/-- The initial marking, if it was given or has been derived. -/
def marking? (R : Region) : Option Int := R.given <|> R.derived

def evaluate (R : Region) (vector : List Int) : Int := dot vector R.weights.net

/-- The net effect of a vector that must have one entry per event. -/
def evaluate? (R : Region) (events : Nat) (vector : List Int) : Except Fault Int :=
  if vector.length = events then .ok (R.evaluate vector)
  else .error (.vectorLength vector.length events)

/-- The weights and the marking, `lazy` while it is not derived. -/
def shown (R : Region) : String :=
  let b := Value.bracketed (R.weights.backward.map toString)
  let f := Value.bracketed (R.weights.forward.map toString)
  let m := match R.marking? with
    | some m => toString m
    | none => "lazy"
  s!"Region(backward={b}, forward={f}, initial_marking={m})"

/-- An event between its weights. -/
def shownEvent (R : Region) (e : Nat × String) : String :=
  s!"{R.weights.backward.getD e.1 0}:{e.2}:{R.weights.forward.getD e.1 0}"

def shownEvents (R : Region) (events : List String) (marking : Int) : String :=
  let parts := s!"init={marking}" :: ((List.range events.length).zip events).map R.shownEvent
  "\x7b " ++ ", ".intercalate parts ++ " \x7d"

/-! ## Arithmetic -/

/-- The sum with `factor` times another region of the same utility; nothing new for the factor 0. -/
def addScaled? (R other : Region) (events : Nat) (factor : Value) :
    Except Fault (Option Region) :=
  if other.utility ≠ R.utility then .error .otherUtility
  else do
    let k ← factor.integer? .factor
    if k = 0 then return none
    else (ofWeights? R.utility events (R.weights.addScaled other.weights k) none).map some

/-- The same weights with another marking. -/
def withMarking? (R : Region) (events : Nat) (marking : Value) : Except Fault Region :=
  read? R.utility events (R.weights.backward.map .integer) (R.weights.forward.map .integer) marking

end Region

/-! ## Derivations -/

structure Holding where
  region : Region
  utility : RegionUtility

namespace Region

/-- A query to the utility of a region. -/
def ask {α : Type} (q : Attempt RegionUtility α) : Attempt Holding α :=
  Attempt.within Holding.utility (fun U h => { h with utility := U }) q

/-- The weights have no effect on any cycle. -/
def isConsistent (S : System) : Attempt Holding Bool := do
  let h ← Attempt.state
  ask (RegionUtility.isConsistent S h.region.weights.net)

/-- The least marking at which no reachable state falls below zero. It is not kept. -/
def normalMarking (S : System) : Attempt Holding Int := do
  let h ← Attempt.state
  ask (RegionUtility.normalMarkingFor S h.region.weights.net)

/-- The initial marking, derived on first use unless it was given. -/
def initialMarking (S : System) : Attempt Holding Int := do
  let h ← Attempt.state
  match h.region.marking? with
  | some m => return m
  | none => do
    let m ← normalMarking S
    Attempt.update fun h => { h with region := { h.region with derived := some m } }
    Attempt.note (.markingDerived m)
    return m

/-- The marking of a state, computed on first use. -/
def markingOf (S : System) (v : Value) : Attempt Holding Int := do
  let h ← Attempt.state
  match h.region.markings.lookup v.key with
  | some m => return m
  | none => do
    let vector ← ask (RegionUtility.reachingVector S v)
    let start ← initialMarking S
    let effect ← Attempt.ofExcept (h.region.evaluate? h.utility.size vector)
    let m := start + effect
    Attempt.update fun h =>
      { h with region := { h.region with markings := (v.key, m) :: h.region.markings } }
    return m

end Region

end RegionCalculus
