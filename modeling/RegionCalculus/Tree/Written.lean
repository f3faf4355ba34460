import RegionCalculus.Tree.Cycles
import RegionCalculus.System.Basic

/-!
# Trees as written

A tree over keys, with the written forms of its states.

* `WrittenTree`: the tree and one written form per state, in the order of discovery.
* `System.spanningTree? S`: the spanning tree from the initial state.
* `System.buildTree S`: the same as an attempt that notes how much of the system the tree covers.
* `WrittenTree.extraArcs?`, `fundamentalCycles?`, `cycleBasis?`: the cycles of a system with
  respect to a tree, with written states and with the fault if the two do not fit.
-/

namespace RegionCalculus
set_option autoImplicit false

/-- A tree with the written forms of its states, in the order of discovery. -/
structure WrittenTree where
  tree : Tree Key
  forms : List Value

/-- The spanning tree from the initial state. Its root is written as the initial state was set, and
any other state as the target of the arc that discovered it. -/
def System.spanningTree? (S : System) : Except Fault WrittenTree := do
  let init ← S.initial?
  let t := S.lts.spanningTree init.key
  return ⟨t, init :: t.arcs.map S.targetForm⟩

/-- The written forms of a spanning tree name its states. -/
theorem System.map_key_forms {S : System} {t : WrittenTree} (h : S.spanningTree? = .ok t) :
    t.forms.map Value.key = t.tree.states := by
  unfold System.spanningTree? at h
  cases hi : S.initial? with
  | error f => simp [hi, bind, Except.bind] at h
  | ok init =>
    simp only [hi, bind, Except.bind, pure, Except.pure, Except.ok.injEq] at h
    subst h
    simp only [List.map_cons, List.map_map, Tree.states, Lts.spanningTree]
    congr 1
    exact List.map_congr_left fun a ha => key_targetForm (Lts.mem_of_mem_discoveries ha)

/-- Builds the spanning tree and notes how many states it covers. -/
def System.buildTree {σ : Type} (S : System) : Attempt σ WrittenTree := do
  let t ← Attempt.ofExcept S.spanningTree?
  Attempt.note (.treeBuilt t.tree.size S.size)
  return t

namespace WrittenTree

def single (root : Value) : WrittenTree := ⟨⟨root.key, []⟩, [root]⟩

/-- The written form of a tree state. -/
def form (t : WrittenTree) (s : Key) : Value := (t.forms.find? (·.key = s)).getD .null

/-- A tree arc as written. -/
def arcForm (t : WrittenTree) (a : Arc Key) : Arc Value := a.map t.form

/-- A state that has a written form is written in a form with its key. -/
theorem key_form {t : WrittenTree} {s : Key} (h : s ∈ t.forms.map Value.key) :
    (t.form s).key = s := by
  obtain ⟨v, hv, rfl⟩ := List.mem_map.1 h
  unfold form
  cases hf : t.forms.find? (·.key = v.key) with
  | none =>
    have := List.find?_eq_none.1 hf v hv
    simp at this
  | some w => simpa using List.find?_some hf

def root (t : WrittenTree) : Value := t.form t.tree.root

/-- Refuses a value that is no tree state. -/
def require (t : WrittenTree) (v : Value) : Except Fault Unit :=
  if v.key ∈ t.tree.states then .ok () else .error (.unreachable v)

def shown (t : WrittenTree) : String :=
  s!"SpanningTree(root={t.root.shown}, states={t.tree.size})"

/-! ## Queries for a state -/

/-- The arc that discovered a state. -/
def parentArc? (t : WrittenTree) (v : Value) : Except Fault (Option (Arc Value)) := do
  t.require v
  return (t.tree.parentArc v.key).map t.arcForm

def depth? (t : WrittenTree) (v : Value) : Except Fault Nat := do
  t.require v
  return t.tree.depth v.key

def rootPath? (t : WrittenTree) (v : Value) : Except Fault (List (Arc Value)) := do
  t.require v
  return (t.tree.rootPath v.key).map t.arcForm

/-- The arcs between two states, in the order of the tree. -/
def treePath? (t : WrittenTree) (u v : Value) : Except Fault (List (Arc Value)) := do
  t.require u
  t.require v
  match t.tree.treePath? u.key v.key with
  | some path => return (t.tree.sortArcs path).map t.arcForm
  | none => throw .rootPassed

/-! ## Cycles of a system -/

/-- The fault of a tree and a system that do not fit. -/
def fault (t : WrittenTree) (S : System) : Mismatch Key → Fault
  | .lacks s => .unknownState (t.form s)
  | .startsOutside a => .unreachable (t.form a.source)
  | .endsOutside a => .unreachable (S.targetForm a)
  | .passesRoot _ => .rootPassed

/-- An extra arc as written. -/
def extraForm (t : WrittenTree) (S : System) (a : Arc Key) : Arc Value :=
  ⟨t.form a.source, S.targetForm a, a.label⟩

/-- An arc of a cycle as written. -/
def cycleArcForm (t : WrittenTree) (S : System) (a : Arc Key) : Arc Value :=
  if t.tree.hasArc a then t.arcForm a else t.extraForm S a

/-- The extra arcs of a system. -/
def extraArcs? (t : WrittenTree) (S : System) : Except Fault (List (Arc Value)) :=
  match t.tree.extraArcs? S.lts with
  | .ok arcs => .ok (arcs.map (t.extraForm S))
  | .error m => .error (t.fault S m)

/-- Each extra arc of a system with the sorted arcs of its cycle. -/
def fundamentalCycles? (t : WrittenTree) (S : System) :
    Except Fault (List (Arc Value × List (Arc Value))) :=
  match t.tree.fundamentalCycles? S.lts with
  | .ok cycles =>
    .ok (cycles.map fun c => (t.extraForm S c.1, (t.tree.sortArcs c.2).map (t.cycleArcForm S)))
  | .error m => .error (t.fault S m)

/-- The cycles of a system, each as its sorted arcs. -/
def cycleBasis? (t : WrittenTree) (S : System) : Except Fault (List (List (Arc Value))) :=
  match t.tree.cycleBasis? S.lts with
  | .ok cycles => .ok (cycles.map fun c => c.map (t.cycleArcForm S))
  | .error m => .error (t.fault S m)

end WrittenTree

end RegionCalculus
