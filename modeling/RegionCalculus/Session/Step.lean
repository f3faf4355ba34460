import RegionCalculus.Session.System
import RegionCalculus.Session.Region

/-!
# Running a session

* `Session.perform watched c`: carries out one command, as an attempt on the session.
* `Session.run watched cs s`: carries out commands in turn, with one outcome each. A command that
  fails does not stop the session.
-/

namespace RegionCalculus.Session
set_option autoImplicit false

/-- Keeps a new builder and answers its weights. -/
def produceBuilder (B : Builder) (slot : Keep) : Attempt Session Answer := do
  let b ← addBuilder B
  keep slot (.builder b)
  return .weights B.weights

/-- Keeps a new system and answers how it looks. -/
def produceSystem (S : System) (slot : Keep) : Attempt Session Answer := do
  let i ← addSystem S
  keep slot (.system i)
  return .text S.shown

/-- Keeps a new tree and answers how it looks. -/
def produceTree (t : WrittenTree) (slot : Keep) : Attempt Session Answer := do
  let i ← addTree t
  keep slot (.tree i)
  return .text t.shown

def perform (watched : Bool) : Command → Attempt Session Answer
  | .newSystem name slot => produceSystem { name } slot
  | .systemOfArcs triples initial name slot => do
    produceSystem (← Attempt.ofExcept (System.ofArcs name triples initial)) slot
  | .toSystem on command => do
    let (i, S) ← systemAt on
    tellSystem i S command
  | .buildTree system slot => do
    let (_, S) ← systemAt system
    produceTree (← S.buildTree) slot
  | .newTree root slot => produceTree (WrittenTree.single root) slot
  | .cycleBasis system tree => findBasis system tree
  | .toTree on command => do
    tellTree (← treeAt on) command
  | .newUtility system events slot => do
    let (i, S) ← systemAt system
    let order ← Attempt.ofExcept (eventOrder? S.alphabet events)
    let U : RegionUtility := { system := i, events := order }
    let u ← addUtility U
    keep slot (.utility u)
    return .text (U.shown S)
  | .toUtility on command => do
    tellUtility (← utilityAt on) command
  | .newRegion utility backward forward marking slot => do
    let p ← utilityAt utility
    produce (← Attempt.ofExcept (Region.read? p.id p.utility.size backward forward marking)) slot
  | .toRegion on command => do
    tellRegion watched (← regionAt on) command
  | .equal left right => do
    return .truth (← equal left right)
  | .same left right => do
    let a ← refAt left
    let b ← refAt right
    return .truth (decide (a = b))
  | .distinct items => do
    return .number (← distinctRegions items)
  | .newBuilder utility backward forward slot => do
    let p ← utilityAt utility
    produceBuilder (← Attempt.ofExcept (Builder.read? p.id p.utility.size backward forward)) slot
  | .builderOfNet utility net slot => do
    let p ← utilityAt utility
    produceBuilder (← Attempt.ofExcept (Builder.ofNet? p.id p.utility.size net)) slot
  | .builderOfRegion region slot => do
    let p ← regionAt region
    produceBuilder (Builder.ofRegion p.holding.region) slot
  | .toBuilder on command => do
    tellBuilder watched (← builderAt on) command

/-- What became of one command. -/
structure Result where
  answer : Except Fault Answer
  notes : List Note

/-- Carries out one command: its result, and the session afterwards. -/
def step (watched : Bool) (c : Command) (s : Session) : Result × Session :=
  let o := perform watched c s
  (⟨o.answer, o.notes⟩, o.state)

def run (watched : Bool) : List Command → Session → List Result × Session
  | [], s => ([], s)
  | c :: rest, s =>
    let first := step watched c s
    let others := run watched rest first.2
    (first.1 :: others.1, others.2)

end RegionCalculus.Session
