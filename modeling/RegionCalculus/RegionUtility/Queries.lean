import RegionCalculus.RegionUtility.Basic

/-!
# Queries to a region utility

Each query is an attempt on the utility: it may compute and keep what it needs. The system `S` is
the one that the utility belongs to, as it is at the time of the query.

* `spanningTree`, `parikhVectors`, `cycleVectors`: the three kept results. The tree is kept before
  the vectors are tried; a result that fails is not kept.
* `lookupVector`, `reachingVector`: the vector of one state.
* `isConsistent`, `normalMarkingFor`: what the results say about net weights.
-/

namespace RegionCalculus.RegionUtility
set_option autoImplicit false

/-! ## The kept results -/

/-- The spanning tree, built on first use. -/
def spanningTree (S : System) : Attempt RegionUtility WrittenTree := do
  let U ← Attempt.state
  match U.tree with
  | some t => return t
  | none => do
    let t ← S.buildTree
    Attempt.update fun U => { U with tree := some t }
    return t

/-- The fault of a table or an event list that lacks something for an arc. -/
def fault (S : System) (t : WrittenTree) : Gap Key → Fault
  | .source a => .noVector (t.form a.source)
  | .target a => .noVector (S.targetForm a)
  | .label a => .noIndex a.label

/-- The Parikh vectors of the tree states, computed on first use. -/
def parikhVectors (S : System) : Attempt RegionUtility (List (Key × List Int)) := do
  let U ← Attempt.state
  match U.vectors with
  | some table => return table
  | none => do
    let t ← spanningTree S
    match t.tree.parikhTable? U.events with
    | .error gap => Attempt.fail (fault S t gap)
    | .ok table => do
      Attempt.update fun U => { U with vectors := some table }
      Attempt.note (.vectorsComputed table.length)
      return table

/-- The vectors of the extra arcs, computed on first use. -/
def cycleVectors (S : System) : Attempt RegionUtility (List (Arc Key × List Int)) := do
  let U ← Attempt.state
  match U.cycles with
  | some cycles => return cycles
  | none => do
    let table ← parikhVectors S
    let t ← spanningTree S
    match t.tree.extraArcs? S.lts with
    | .error m => Attempt.fail (t.fault S m)
    | .ok extra =>
      match cycleVectors? U.events table extra with
      | .error gap => Attempt.fail (fault S t gap)
      | .ok cycles => do
        Attempt.update fun U => { U with cycles := some cycles }
        Attempt.note (.cyclesComputed cycles.length)
        return cycles

/-! ## States -/

def reachableStates (S : System) : Attempt RegionUtility (List Value) := do
  let t ← spanningTree S
  return t.forms

/-- The states of the system that are not in the tree. -/
def unreachableStates (S : System) : Attempt RegionUtility (List Value) := do
  let t ← spanningTree S
  return S.written.states.filter fun v => v.key ∉ t.tree.states

/-- The vector of a state of the system, nothing if it was not reachable. -/
def lookupVector (S : System) (v : Value) : Attempt RegionUtility (Option (List Int)) := do
  Attempt.ofExcept (S.require v)
  let table ← parikhVectors S
  return table.lookup v.key

/-- The vector of a state that was reachable. -/
def reachingVector (S : System) (v : Value) : Attempt RegionUtility (List Int) := do
  match ← lookupVector S v with
  | some vector => return vector
  | none => Attempt.fail (.unreachable v)

/-! ## Matrices and net weights -/

/-- The vectors of the tree states, in the order of discovery. -/
def parikhRows (S : System) : Attempt RegionUtility (List (List Int)) := do
  let table ← parikhVectors S
  let t ← spanningTree S
  return t.tree.states.filterMap fun s => table.lookup s

def cycleRows (S : System) : Attempt RegionUtility (List (List Int)) := do
  let cycles ← cycleVectors S
  return cycles.map (·.2)

/-- The extra arcs as written, each with its vector. -/
def writtenCycleVectors (S : System) : Attempt RegionUtility (List (Arc Value × List Int)) := do
  let cycles ← cycleVectors S
  let t ← spanningTree S
  return cycles.map fun c => (t.extraForm S c.1, c.2)

/-- The net weights have no effect on any cycle. -/
def isConsistent (S : System) (net : List Int) : Attempt RegionUtility Bool := do
  let cycles ← cycleVectors S
  return cycleConsistent cycles net

/-- The least marking at which no reachable state falls below zero. A system without states is
answered at once. -/
def normalMarkingFor (S : System) (net : List Int) : Attempt RegionUtility Int :=
  if S.written.states.isEmpty then return 0
  else do
    let table ← parikhVectors S
    return normalMarking table S.lts.states net

end RegionCalculus.RegionUtility
