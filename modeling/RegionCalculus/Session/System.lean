import RegionCalculus.Session.Basic

/-!
# Commands to systems and trees

* `Session.tellSystem i S c`: carries out command `c` on system `i`, which is `S`.
* `Session.tellTree t c`: carries out command `c` on the tree `t`.
* `Session.findBasis on tree`: the cycle basis of a system, with respect to a tree or to its own.
-/

namespace RegionCalculus.Session
set_option autoImplicit false

def tellSystem (i : SystemId) (S : System) : SystemCommand → Attempt Session Answer
  | .createState id => do
    return .value (← onSystem i S (System.createState id))
  | .createStates ids => do
    return .values (← onSystem i S (System.createStates ids))
  | .createArc source target label => do
    return .arc (← onSystem i S (System.createArc source target label))
  | .showArc source target label => do
    let a ← onSystem i S (System.createArc source target label)
    return .text a.shown
  | .setInitial id => do
    onSystem i S (System.setInitial id)
    return .nothing
  | .initial => do return .value (← Attempt.ofExcept S.initial?)
  | .name => return .text S.name
  | .states => return .values S.written.states
  | .arcs => return .arcs S.arcs
  | .alphabet => return .texts S.alphabet
  | .size => return .number S.size
  | .show => return .text S.shown
  | .counts => return .counts S.size S.written.arcs.length
  | .has id => return .truth (decide (S.Has id))
  | .postset id => do return .arcs (← Attempt.ofExcept (S.postset? id))
  | .preset id => do return .arcs (← Attempt.ofExcept (S.preset? id))
  | .reachable => do return .values (← Attempt.ofExcept S.reachable?)

def tellTree (t : WrittenTree) : TreeCommand → Attempt Session Answer
  | .root => return .value t.root
  | .states => return .values t.forms
  | .arcs => return .arcs ((t.tree.sortArcs t.tree.arcs).map t.arcForm)
  | .size => return .number t.tree.size
  | .show => return .text t.shown
  | .parentArc id => do
    match ← Attempt.ofExcept (t.parentArc? id) with
    | some a => return .arc a
    | none => return .nothing
  | .depth id => do return .number (← Attempt.ofExcept (t.depth? id))
  | .rootPath id => do return .arcs (← Attempt.ofExcept (t.rootPath? id))
  | .has id => return .truth (decide (id.key ∈ t.tree.states))
  | .treePath u v => do return .arcs (← Attempt.ofExcept (t.treePath? u v))
  | .graph => return .graph t.forms (t.tree.arcsBySource.map t.arcForm)
  | .extraArcs system => do
    let (_, S) ← systemAt system
    return .arcs (← Attempt.ofExcept (t.extraArcs? S))
  | .fundamentalCycles system => do
    let (_, S) ← systemAt system
    return .arcCycles (← Attempt.ofExcept (t.fundamentalCycles? S))

/-- The tree in a slot; without a slot, the spanning tree of `S`. -/
def treeFor (S : System) : Option SlotName → Attempt Session WrittenTree
  | some name => treeAt name
  | none => S.buildTree

def findBasis (system : SlotName) (tree : Option SlotName) : Attempt Session Answer := do
  let (_, S) ← systemAt system
  let t ← treeFor S tree
  let cycles ← Attempt.ofExcept (t.cycleBasis? S)
  Attempt.note (.basisFound cycles.length)
  return .cycles cycles

end RegionCalculus.Session
