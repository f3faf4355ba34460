import RegionCalculus.Lts.Search

/-!
# Trees of states

A tree is given by its root and its arcs. The arcs stand in the order in which they discovered their
targets, so an arc starts at the root or at the target of an earlier arc.

* `Tree.states t`: the states in the order of discovery.
* `Tree.parentArc t s`: the arc that discovered `s`; the root has none.
* `Tree.depth t s`, `Tree.rootPath t s`: how far `s` lies from the root, and the arcs on the way.
* `Tree.treePath? t u v`: the arcs between `u` and `v`. The deeper state climbs to the depth of the
  other one, then both climb until they meet. There is no path if a climb passes the root.
* `Tree.sortArcs t l`: the arcs of `l` by the discovery of their sources and targets, then by label.
* `Lts.spanningTree G root`: the tree of a search from `root` that follows the newest arcs first.
-/

namespace RegionCalculus
set_option autoImplicit false

/-- A tree of states, with its arcs in the order in which they discovered their targets. -/
structure Tree (ι : Type) where
  root : ι
  arcs : List (Arc ι) := []
deriving DecidableEq

variable {ι κ : Type}

namespace Tree

def states (t : Tree ι) : List ι := t.root :: t.arcs.map Arc.target

def size (t : Tree ι) : Nat := t.states.length

@[simp] theorem mem_states {t : Tree ι} {s : ι} :
    s ∈ t.states ↔ s = t.root ∨ ∃ a ∈ t.arcs, a.target = s := by
  simp [states]

variable [DecidableEq ι]

def hasArc (t : Tree ι) (a : Arc ι) : Bool := a ∈ t.arcs

@[simp] theorem hasArc_iff {t : Tree ι} {a : Arc ι} : t.hasArc a = true ↔ a ∈ t.arcs := by
  simp [hasArc]

/-- The arc that discovered `s`. -/
def parentArc (t : Tree ι) (s : ι) : Option (Arc ι) := t.arcs.find? (·.target = s)

/-! ## The way to the root -/

/-- The distance of `s` from the root, the tree arcs standing newest first. -/
def depthAmong : List (Arc ι) → ι → Nat
  | [], _ => 0
  | a :: older, s => if a.target = s then depthAmong older a.source + 1 else depthAmong older s

def depth (t : Tree ι) (s : ι) : Nat := depthAmong t.arcs.reverse s

/-- The arcs from the root to `s`, the tree arcs standing newest first. -/
def rootPathAmong : List (Arc ι) → ι → List (Arc ι)
  | [], _ => []
  | a :: older, s =>
    if a.target = s then rootPathAmong older a.source ++ [a] else rootPathAmong older s

def rootPath (t : Tree ι) (s : ι) : List (Arc ι) := rootPathAmong t.arcs.reverse s

/-! ## The way between two states -/

/-- Climbs `n` arcs from `s`: the arcs passed and the state reached, nothing if the root is passed. -/
def climb? (t : Tree ι) : Nat → ι → Option (List (Arc ι) × ι)
  | 0, s => some ([], s)
  | n + 1, s =>
    match t.parentArc s with
    | none => none
    | some a => (t.climb? n a.source).map fun r => (a :: r.1, r.2)

/-- Climbs from `u` and from `v` until both meet, at most `n` arcs each; nothing if they do not meet. -/
def meet? (t : Tree ι) : Nat → ι → ι → Option (List (Arc ι))
  | 0, u, v => if u = v then some [] else none
  | n + 1, u, v =>
    if u = v then some []
    else match t.parentArc u, t.parentArc v with
      | some a, some b => (t.meet? n a.source b.source).map fun r => a :: b :: r
      | _, _ => none

/-- The arcs between `u` and `v`; nothing if a climb passes the root. -/
def treePath? (t : Tree ι) (u v : ι) : Option (List (Arc ι)) := do
  let left ← t.climb? (t.depth u - t.depth v) u
  let right ← t.climb? (t.depth v - t.depth u) v
  let rest ← t.meet? (min (t.depth u) (t.depth v)) left.2 right.2
  return left.1 ++ right.1 ++ rest

/-! ## Order -/

def position (t : Tree ι) (s : ι) : Nat := t.states.idxOf s

/-- Arcs compare by the discovery of their sources, then of their targets, then by label. -/
def compareArcs (t : Tree ι) (a b : Arc ι) : Ordering :=
  (compare (t.position a.source) (t.position b.source)).then
    ((compare (t.position a.target) (t.position b.target)).then (compare a.label b.label))

/-- Lists of arcs compare like words. -/
def compareWords (t : Tree ι) : List (Arc ι) → List (Arc ι) → Ordering
  | [], [] => .eq
  | [], _ :: _ => .lt
  | _ :: _, [] => .gt
  | a :: as, b :: bs => (t.compareArcs a b).then (compareWords t as bs)

/-- The arcs in the order of the tree. -/
def sortArcs (t : Tree ι) (l : List (Arc ι)) : List (Arc ι) :=
  l.mergeSort fun a b => (t.compareArcs a b).isLE

/-- The tree arcs by source, each source with its targets in the order of discovery. -/
def arcsBySource (t : Tree ι) : List (Arc ι) :=
  t.states.flatMap fun s => t.arcs.filter (·.source = s)

end Tree

def Lts.spanningTree [DecidableEq ι] (G : Lts ι) (root : ι) : Tree ι :=
  ⟨root, G.discoveries .newestFirst root⟩

end RegionCalculus
