import RegionCalculus.Value.Text

/-!
# Faults

Why a command is refused, by cause, and the wording of each cause.

* `Quantity`: what an integer was asked for.
* `Fault`: the causes. A fault shows ids and labels as they were given.
* `Fault.message`: the wording.
-/

namespace RegionCalculus
set_option autoImplicit false

/-- What a weight list weighs. -/
inductive Side where
  | backward
  | forward
  | net
deriving DecidableEq

/-- What an integer was asked for. -/
inductive Quantity where
  | weight (side : Side)
  | initialMarking
  | factor
  | loopWeight
  | eventIndex
deriving DecidableEq

/-- The cause of a refusal. -/
inductive Fault where
  | stateExists (id : Value)
  | labelInvalid (label : Value)
  | noInitialState
  | unknownState (id : Value)
  | unreachable (id : Value)
  | duplicateEvent (event : String)
  | labelsMissing (labels : List String)
  | unknownEvent (event : Value)
  | notInteger (what : Quantity) (given : Value)
  | indexOutOfRange (index : Int) (events : Nat)
  | weightCount (side : Side) (given events : Nat)
  | negativeWeight (side : Side) (weight : Int) (index : Nat)
  | negativeMarking (marking : Int)
  | vectorLength (entries events : Nat)
  | notARegion (kind : String)
  | otherUtility
  | notAddable
  | noVector (state : Value)
  | noIndex (label : String)
  | rootPassed
  | emptySlot (name : String)

namespace Side

/-- The word for a side inside a sentence. -/
def word : Side → String
  | backward => "backward"
  | forward => "forward"
  | net => "net"

/-- The word for a side at the start of a sentence. -/
def title : Side → String
  | backward => "Backward"
  | forward => "Forward"
  | net => "Net"

end Side

def Quantity.title : Quantity → String
  | weight side => side.title ++ " weight"
  | initialMarking => "Initial marking"
  | factor => "Factor"
  | loopWeight => "Loop weight"
  | eventIndex => "Event index"

namespace Fault

def message : Fault → String
  | stateExists id => s!"State {id.shown} already exists"
  | labelInvalid label => s!"Event label must be a non-empty string, got {label.shown}"
  | noInitialState => "Transition system has no initial state"
  | unknownState id => s!"No state with id {id.shown}"
  | unreachable id => s!"State {id.shown} is unreachable from the initial state"
  | duplicateEvent event => s!"Duplicate event {Text.quoted event} in event list"
  | labelsMissing labels => s!"Event list lacks labels {Value.bracketed (labels.map Text.quoted)}"
  | unknownEvent event => s!"Unknown event {event.shown}"
  | notInteger what given => s!"{what.title} must be an integer, got {given.shown}"
  | indexOutOfRange index events => s!"Event index {index} out of range [0, {events})"
  | weightCount side given events =>
      s!"There must be as many {side.word} weights as events ({given} != {events})"
  | negativeWeight side weight index =>
      s!"{side.title} weight {weight} of event {index} must not be negative"
  | negativeMarking marking => s!"Initial marking {marking} must not be negative"
  | vectorLength entries events => s!"Parikh vector has {entries} entries, expected {events}"
  | notARegion kind => s!"Expected a Region, got {kind}"
  | otherUtility => "Regions belong to different region utilities"
  | notAddable => "Region belongs to a different region utility"
  | noVector state => state.shown
  | noIndex label => Text.quoted label
  | rootPassed => "'NoneType' object has no attribute 'source'"
  | emptySlot name => name

end Fault

end RegionCalculus
