import RegionCalculus.Tree.Cycles

/-!
# Parikh vectors

A Parikh vector has one entry per event and counts how often each event occurs. The vector of a tree
state counts the events on its root path. The vector of an extra arc counts the events of its cycle,
those on the way back to the root negatively.

* `countEvent events e v`: `v` with one more `e`; nothing if `e` is no event.
* `Tree.parikhTable? events t`: the vectors of all tree states, in the order of discovery.
* `cycleVectors? events table arcs`: the vectors of extra arcs.
* `Gap`: what a table or an event list lacks for an arc.
* `dot v w`: the sum of the products of the entries.
-/

namespace RegionCalculus
set_option autoImplicit false

/-- What is missing where an arc is counted: the vector of an endpoint, or the label as an event. -/
inductive Gap (ι : Type) where
  | source (arc : Arc ι)
  | target (arc : Arc ι)
  | label (arc : Arc ι)
deriving DecidableEq

def dot : List Int → List Int → Int
  | x :: v, y :: w => x * y + dot v w
  | _, _ => 0

/-- The vector of `n` events that do not occur. -/
def noEvents (n : Nat) : List Int := List.replicate n 0

/-- The vector with one more occurrence of the event `e`. -/
def countEvent (events : List String) (e : String) (v : List Int) : Option (List Int) :=
  (events.idxOf? e).map fun i => v.modify i (· + 1)

@[simp] theorem dot_nil_left (w : List Int) : dot [] w = 0 := by simp [dot]

@[simp] theorem dot_nil_right (v : List Int) : dot v [] = 0 := by simp [dot]

@[simp] theorem dot_cons (x y : Int) (v w : List Int) :
    dot (x :: v) (y :: w) = x * y + dot v w := rfl

theorem length_countEvent {events : List String} {e : String} {v w : List Int}
    (h : countEvent events e v = some w) : w.length = v.length := by
  simp only [countEvent, Option.map_eq_some_iff] at h
  obtain ⟨i, _, rfl⟩ := h
  exact List.length_modify ..

variable {ι : Type} [DecidableEq ι]

/-- The table with the vector of the target of one more tree arc. -/
def extendTable (events : List String) (table : List (ι × List Int)) (a : Arc ι) :
    Except (Gap ι) (List (ι × List Int)) :=
  match table.lookup a.source with
  | none => .error (.source a)
  | some v =>
    match countEvent events a.label v with
    | none => .error (.label a)
    | some w => .ok (table ++ [(a.target, w)])

def Tree.parikhTable? (events : List String) (t : Tree ι) :
    Except (Gap ι) (List (ι × List Int)) :=
  t.arcs.foldlM (extendTable events) [(t.root, noEvents events.length)]

/-- The vector of the source, one more event, less the vector of the target. -/
def cycleVector? (events : List String) (table : List (ι × List Int)) (a : Arc ι) :
    Except (Gap ι) (List Int) :=
  match table.lookup a.source with
  | none => .error (.source a)
  | some u =>
    match table.lookup a.target with
    | none => .error (.target a)
    | some v =>
      match countEvent events a.label (List.zipWith (· - ·) u v) with
      | none => .error (.label a)
      | some w => .ok w

def cycleVectors? (events : List String) (table : List (ι × List Int)) (extra : List (Arc ι)) :
    Except (Gap ι) (List (Arc ι × List Int)) :=
  extra.mapM fun a => (cycleVector? events table a).map fun v => (a, v)

/-- The least marking, and no less than zero, at which the weights `net` leave no listed state with
a vector in the table below zero. -/
def normalMarking (table : List (ι × List Int)) (states : List ι) (net : List Int) : Int :=
  states.foldl (fun m s =>
    match table.lookup s with
    | none => m
    | some v => max m (-(dot v net))) 0

/-- Every cycle vector has no net effect. -/
def cycleConsistent (cycles : List (Arc ι × List Int)) (net : List Int) : Bool :=
  cycles.all fun c => dot c.2 net = 0

end RegionCalculus
