import RegionCalculus.Tree.Basic

/-!
# Fundamental cycles

An arc that leaves a tree state and is no tree arc is an extra arc. It closes one cycle: itself and
the tree arcs between its endpoints.

* `Tree.extraArcs t G`: the extra arcs of `G`, tree states in the order of discovery.
* `Tree.fundamentalCycles? t G`: each extra arc with its cycle.
* `Tree.cycleBasis? t G`: the cycles as sorted lists of arcs, each once.
* `Mismatch`: how tree and system can fail to fit. `G` may lack a tree state, an extra arc may start
  or end outside the tree, and the climb between its endpoints may pass the root.
-/

namespace RegionCalculus
set_option autoImplicit false

/-- How a tree and a system can fail to fit. -/
inductive Mismatch (ι : Type) where
  | lacks (state : ι)
  | startsOutside (arc : Arc ι)
  | endsOutside (arc : Arc ι)
  | passesRoot (arc : Arc ι)
deriving DecidableEq

namespace Tree

variable {ι : Type} [DecidableEq ι]

/-- The arcs of `G` that leave tree states and are no tree arcs. -/
def extraArcs (t : Tree ι) (G : Lts ι) : List (Arc ι) :=
  t.states.flatMap fun s => (G.postset s).filter fun a => !t.hasArc a

/-- The extra arcs, or the first tree state that `G` lacks. -/
def extraArcs? (t : Tree ι) (G : Lts ι) : Except (Mismatch ι) (List (Arc ι)) :=
  match t.states.find? (· ∉ G.states) with
  | some s => .error (.lacks s)
  | none => .ok (t.extraArcs G)

/-- An extra arc with the cycle that it closes. -/
def closing? (t : Tree ι) (a : Arc ι) : Except (Mismatch ι) (Arc ι × List (Arc ι)) :=
  if a.source ∉ t.states then .error (.startsOutside a)
  else if a.target ∉ t.states then .error (.endsOutside a)
  else match t.treePath? a.source a.target with
    | some path => .ok (a, a :: path)
    | none => .error (.passesRoot a)

def fundamentalCycles? (t : Tree ι) (G : Lts ι) :
    Except (Mismatch ι) (List (Arc ι × List (Arc ι))) := do
  let extra ← t.extraArcs? G
  extra.mapM t.closing?

/-- The cycles as sorted lists of arcs, each once, in the order of words. -/
def cycleBasis? (t : Tree ι) (G : Lts ι) : Except (Mismatch ι) (List (List (Arc ι))) := do
  let cycles ← t.fundamentalCycles? G
  return (distinct (cycles.map fun c => t.sortArcs c.2)).mergeSort fun x y =>
    (t.compareWords x y).isLE

theorem mem_extraArcs {t : Tree ι} {G : Lts ι} {a : Arc ι} :
    a ∈ t.extraArcs G ↔ a ∈ G.arcs ∧ a.source ∈ t.states ∧ a ∉ t.arcs := by
  simp only [extraArcs, List.mem_flatMap, List.mem_filter, Lts.mem_postset, Bool.not_eq_true',
    ← Bool.not_eq_true, hasArc_iff]
  constructor
  · rintro ⟨s, hs, ⟨ha, rfl⟩, hn⟩
    exact ⟨ha, hs, hn⟩
  · rintro ⟨ha, hs, hn⟩
    exact ⟨a.source, hs, ⟨ha, rfl⟩, hn⟩

/-- A tree whose states are states of `G` has extra arcs in `G`. -/
theorem extraArcs?_of_subset {t : Tree ι} {G : Lts ι} (h : ∀ s ∈ t.states, s ∈ G.states) :
    t.extraArcs? G = .ok (t.extraArcs G) := by
  have hfind : t.states.find? (· ∉ G.states) = none :=
    List.find?_eq_none.2 fun s hs => by simpa using h s hs
  simp only [extraArcs?, hfind]

end Tree

end RegionCalculus
