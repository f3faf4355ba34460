import RegionCalculus.Session.Basic

/-!
# Commands to utilities, regions and builders

* `Session.tellUtility p c`, `tellRegion watched p c`, `tellBuilder watched p c`: carry out a command
  on one object. A watched session looks at cycle consistency before a normal marking is taken.
* `Session.Entity`: what an operand turns out to be.
* `Session.equal left right`: equality of two operands. Values are equal if their keys are, and an
  object that is no region equals itself alone.
* `Session.equalRegions p q`: equality of two regions. Utilities and weights are compared first;
  only if they agree, the markings are derived, that of `q` first.
* `Session.distinctRegions items`: the number of different regions among the slots.
-/

namespace RegionCalculus.Session
set_option autoImplicit false

/-- Adds a region, keeps it, and answers how it looks. -/
def produce (R : Region) (slot : Keep) : Attempt Session Answer := do
  let r ← addRegion R
  keep slot (.region r)
  return .text R.shown

def tellUtility (p : PlacedUtility) : UtilityCommand → Attempt Session Answer
  | .system slot => do
    keep slot (.system p.utility.system)
    return .text p.system.shown
  | .tree slot => do
    let t ← onUtility p (RegionUtility.spanningTree p.system)
    keep slot (.treeOf p.id)
    return .text t.shown
  | .size => return .number p.utility.size
  | .events => return .texts p.utility.events
  | .reachable => do return .values (← onUtility p (RegionUtility.reachableStates p.system))
  | .unreachable => do return .values (← onUtility p (RegionUtility.unreachableStates p.system))
  | .show => return .text (p.utility.shown p.system)
  | .eventIndex event => do return .number (← Attempt.ofExcept (p.utility.eventIndex? event))
  | .lookupVector id => do
    match ← onUtility p (RegionUtility.lookupVector p.system id) with
    | some v => return .numbers v
    | none => return .nothing
  | .reachingVector id => do
    return .numbers (← onUtility p (RegionUtility.reachingVector p.system id))
  | .parikhMatrix => do
    return .matrix p.utility.size (← onUtility p (RegionUtility.parikhRows p.system))
  | .cycleMatrix => do
    return .matrix p.utility.size (← onUtility p (RegionUtility.cycleRows p.system))
  | .cycleVectors => do
    return .arcVectors (← onUtility p (RegionUtility.writtenCycleVectors p.system))

/-! ## Regions -/

/-- What an operand turns out to be: a plain value, a region, or an object that is no region. -/
inductive Entity where
  | value (v : Value)
  | region (p : PlacedRegion)
  | object (r : Ref)

def Entity.kind : Entity → String
  | value v => v.kind
  | region p => (Ref.region p.id).kind
  | object r => r.kind

/-- The entity that an operand names. -/
def operand : Operand → Attempt Session Entity
  | .value v => return .value v
  | .slot name => do
    let r ← refAt name
    let s ← Attempt.state
    match s.regionOf? r with
    | some q => return .region q
    | none => return .object r

/-- The sum of a region with a multiple of an operand. -/
def addOperand (p : PlacedRegion) (other : Operand) (factor : Value) (slot : Keep) :
    Attempt Session Answer := do
  match ← operand other with
  | .region q => do
    let R := p.holding.region
    match ← Attempt.ofExcept (R.addScaled? q.holding.region p.holding.utility.size factor) with
    | some sum => produce sum slot
    | none => do
      keep slot (.region p.id)
      return .text R.shown
  | e => Attempt.fail (.notARegion e.kind)

def tellRegion (watched : Bool) (p : PlacedRegion) : RegionCommand → Attempt Session Answer
  | .utility slot => do
    keep slot (.utility p.holding.region.utility)
    return .text (p.holding.utility.shown p.system)
  | .system slot => do
    keep slot (.system p.holding.utility.system)
    return .text p.system.shown
  | .backward => return .numbers p.holding.region.weights.backward
  | .forward => return .numbers p.holding.region.weights.forward
  | .net => return .numbers p.holding.region.weights.net
  | .backwardOf event => do
    let i ← Attempt.ofExcept (p.holding.utility.resolve? event)
    return .number (p.holding.region.weights.backward.getD i 0)
  | .forwardOf event => do
    let i ← Attempt.ofExcept (p.holding.utility.resolve? event)
    return .number (p.holding.region.weights.forward.getD i 0)
  | .netOf event => do
    let i ← Attempt.ofExcept (p.holding.utility.resolve? event)
    return .number (p.holding.region.weights.net.getD i 0)
  | .isPure => return .truth p.holding.region.weights.isPure
  | .isConsistent => do return .truth (← onRegion p (Region.isConsistent p.system))
  | .evaluate vector => do
    let v := vector.map Value.count
    return .number (← Attempt.ofExcept (p.holding.region.evaluate? p.holding.utility.size v))
  | .initialMarking => do return .number (← onRegion p (Region.initialMarking p.system))
  | .normalMarking => do return .number (← onRegion p (Region.normalMarking p.system))
  | .markingOf id => do return .number (← onRegion p (Region.markingOf p.system id))
  | .addScaled other factor slot => addOperand p other factor slot
  | .purify slot => do
    produce (← onUtilityOf p (p.holding.region.purified p.system watched)) slot
  | .withMarking marking slot => do
    let R ← Attempt.ofExcept (p.holding.region.withMarking? p.holding.utility.size marking)
    produce R slot
  | .showEvents => do
    let m ← onRegion p (Region.initialMarking p.system)
    return .text (p.holding.region.shownEvents p.holding.utility.events m)
  | .show => return .text p.holding.region.shown

/-- The initial marking of the region with number `r`. -/
def markingOfRegion (r : RegionId) : Attempt Session Int := do
  let s ← Attempt.state
  match s.region? r with
  | some p => onRegion p (Region.initialMarking p.system)
  | none => return 0

def equalRegions (p q : PlacedRegion) : Attempt Session Bool := do
  if q.id = p.id then return true
  else if q.holding.region.utility = p.holding.region.utility ∧
      q.holding.region.weights = p.holding.region.weights then do
    let m ← markingOfRegion q.id
    let n ← markingOfRegion p.id
    return decide (m = n)
  else return false

/-- Equality of two operands. Entities of different kinds are never equal. -/
def equal (left right : Operand) : Attempt Session Bool := do
  let a ← operand left
  let b ← operand right
  match a, b with
  | .value v, .value w => return decide (v.key = w.key)
  | .region p, .region q => equalRegions p q
  | .object r, .object s => return decide (r = s)
  | _, _ => return false

/-- What equality sees of the region in a slot, its marking being derived. -/
def identity (name : SlotName) : Attempt Session (UtilityId × Weights × Int) := do
  let p ← regionAt name
  let m ← onRegion p (Region.initialMarking p.system)
  return (p.holding.region.utility, p.holding.region.weights, m)

def distinctRegions (items : List SlotName) : Attempt Session Nat := do
  let found ← items.mapM identity
  return (RegionCalculus.distinct found).length

/-! ## Builders -/

/-- Replaces a builder by one with other weights, keeps it, and answers the weights. -/
def rebuild (b : BuilderId) (B : Builder) (slot : Keep) : Attempt Session Answer := do
  Attempt.update fun s => s.setBuilder b B
  keep slot (.builder b)
  return .weights B.weights

def tellBuilder (watched : Bool) (p : PlacedBuilder) : BuilderCommand → Attempt Session Answer
  | .weights => return .weights p.builder.weights
  | .show => return .text p.builder.shown
  | .addLoop event weight slot => do
    rebuild p.id (← Attempt.ofExcept (p.builder.addLoop? p.utility event weight)) slot
  | .addScaled other factor slot => do
    match ← operand other with
    | .region q => do
      let B ← Attempt.ofExcept (p.builder.addScaled? q.holding.region p.utility.size factor)
      rebuild p.id B slot
    | _ => Attempt.fail .notAddable
  | .purify slot => rebuild p.id p.builder.purified slot
  | .finish marking slot => do
    produce (← Attempt.ofExcept (p.builder.finish? p.utility.size marking)) slot
  | .finishNormal slot => do
    let u : PlacedUtility := ⟨p.builder.utility, p.utility, p.system⟩
    produce (← onUtility u (p.builder.finishNormal p.system watched)) slot

end RegionCalculus.Session
