import RegionCalculus.Weights
import RegionCalculus.Lts.Basic

/-!
# Commands and answers

What a session can be told and what it answers. Objects are named by slots; a command that makes or
hands out an object may name a slot to keep it in.

* `Command`: the commands that make objects or compare them, and those to one object.
* `SystemCommand`, `TreeCommand`, `UtilityCommand`, `RegionCommand`, `BuilderCommand`: the commands
  to an object of each kind.
* `Answer`: the answers, by shape.
-/

namespace RegionCalculus
set_option autoImplicit false

abbrev SlotName := String

/-- A slot to keep an object in, if one is named. -/
abbrev Keep := Option SlotName

/-- Something that may or may not be a region: the content of a slot, or a plain value. -/
inductive Operand where
  | slot (name : SlotName)
  | value (v : Value)

inductive SystemCommand where
  | createState (id : Value)
  | createStates (ids : List Value)
  | createArc (source target label : Value)
  | showArc (source target label : Value)
  | setInitial (id : Value)
  | initial
  | name
  | states
  | arcs
  | alphabet
  | size
  | show
  | counts
  | has (id : Value)
  | postset (id : Value)
  | preset (id : Value)
  | reachable

inductive TreeCommand where
  | root
  | states
  | arcs
  | size
  | show
  | parentArc (id : Value)
  | depth (id : Value)
  | rootPath (id : Value)
  | has (id : Value)
  | treePath (u v : Value)
  | graph
  | extraArcs (system : SlotName)
  | fundamentalCycles (system : SlotName)

inductive UtilityCommand where
  | system (keep : Keep)
  | tree (keep : Keep)
  | size
  | events
  | reachable
  | unreachable
  | show
  | eventIndex (event : Value)
  | lookupVector (id : Value)
  | reachingVector (id : Value)
  | parikhMatrix
  | cycleMatrix
  | cycleVectors

inductive RegionCommand where
  | utility (keep : Keep)
  | system (keep : Keep)
  | backward
  | forward
  | net
  | backwardOf (event : Value)
  | forwardOf (event : Value)
  | netOf (event : Value)
  | isPure
  | isConsistent
  | evaluate (vector : List Value)
  | initialMarking
  | normalMarking
  | markingOf (id : Value)
  | addScaled (other : Operand) (factor : Value) (keep : Keep)
  | purify (keep : Keep)
  | withMarking (marking : Value) (keep : Keep)
  | showEvents
  | show

inductive BuilderCommand where
  | weights
  | show
  | addLoop (event weight : Value) (keep : Keep)
  | addScaled (other : Operand) (factor : Value) (keep : Keep)
  | purify (keep : Keep)
  | finish (marking : Value) (keep : Keep)
  | finishNormal (keep : Keep)

/-- What a session can be told. A triple of `systemOfArcs` names source, label and target. -/
inductive Command where
  | newSystem (name : String) (keep : Keep)
  | systemOfArcs (triples : List (Value × Value × Value)) (initial : Value) (name : String)
      (keep : Keep)
  | toSystem (on : SlotName) (command : SystemCommand)
  | buildTree (system : SlotName) (keep : Keep)
  | newTree (root : Value) (keep : Keep)
  | cycleBasis (system : SlotName) (tree : Option SlotName)
  | toTree (on : SlotName) (command : TreeCommand)
  | newUtility (system : SlotName) (events : Option (List String)) (keep : Keep)
  | toUtility (on : SlotName) (command : UtilityCommand)
  | newRegion (utility : SlotName) (backward forward : List Value) (marking : Value) (keep : Keep)
  | toRegion (on : SlotName) (command : RegionCommand)
  | equal (left right : Operand)
  | same (left right : SlotName)
  | distinct (items : List SlotName)
  | newBuilder (utility : SlotName) (backward forward : Option (List Value)) (keep : Keep)
  | builderOfNet (utility : SlotName) (net : List Value) (keep : Keep)
  | builderOfRegion (region : SlotName) (keep : Keep)
  | toBuilder (on : SlotName) (command : BuilderCommand)

/-- An answer, by its shape. -/
inductive Answer where
  | nothing
  | value (v : Value)
  | values (vs : List Value)
  | number (n : Int)
  | numbers (ns : List Int)
  | truth (b : Bool)
  | text (s : String)
  | texts (ss : List String)
  | arc (a : Arc Value)
  | arcs (as : List (Arc Value))
  | cycles (cs : List (List (Arc Value)))
  | arcCycles (cs : List (Arc Value × List (Arc Value)))
  | arcVectors (vs : List (Arc Value × List Int))
  | counts (states arcs : Nat)
  | graph (states : List Value) (arcs : List (Arc Value))
  | matrix (columns : Nat) (rows : List (List Int))
  | weights (w : Weights)

end RegionCalculus
