import RegionCalculus.Region.Builder
import RegionCalculus.Session.Command

/-!
# Sessions

A session holds systems, trees, utilities, regions and builders, each known by its number, and slots
that refer to them. Two slots may refer to one object. An object is never removed, so a number once
given out stays good.

* `Ref`: a reference to an object. The tree that a utility keeps is an object of its own.
* `Session`: the objects and the slots.
* `Session.lookup`: the content of a slot, or the fault that the slot does not hold what is needed.
* `Session.onSystem`, `onUtility`, `onRegion`: attempts on one object, inside the session.
* `Session.addRegion` and its like: new objects.
-/

namespace RegionCalculus
set_option autoImplicit false

abbrev TreeId := Nat

abbrev RegionId := Nat

abbrev BuilderId := Nat

/-- A reference to an object. -/
inductive Ref where
  | system (id : SystemId)
  | tree (id : TreeId)
  | treeOf (utility : UtilityId)
  | utility (id : UtilityId)
  | region (id : RegionId)
  | builder (id : BuilderId)
deriving DecidableEq

/-- The name of the kind of object. -/
def Ref.kind : Ref → String
  | system _ => "TransitionSystem"
  | tree _ => "SpanningTree"
  | treeOf _ => "SpanningTree"
  | utility _ => "RegionUtility"
  | region _ => "Region"
  | builder _ => "RegionBuilder"

/-- The objects of a session, by number, and its slots. -/
structure Session where
  systems : List System := []
  trees : List WrittenTree := []
  utilities : List RegionUtility := []
  regions : List Region := []
  builders : List Builder := []
  slots : List (SlotName × Ref) := []

namespace Session

variable {α : Type}

/-! ## Objects -/

/-- A utility with its number and its system. -/
structure PlacedUtility where
  id : UtilityId
  utility : RegionUtility
  system : System

structure PlacedRegion where
  id : RegionId
  holding : Holding
  system : System

structure PlacedBuilder where
  id : BuilderId
  builder : Builder
  utility : RegionUtility
  system : System

/-- The utility with number `u`. -/
def utility? (s : Session) (u : UtilityId) : Option PlacedUtility := do
  let U ← s.utilities[u]?
  let S ← s.systems[U.system]?
  return ⟨u, U, S⟩

def region? (s : Session) (r : RegionId) : Option PlacedRegion := do
  let R ← s.regions[r]?
  let p ← s.utility? R.utility
  return ⟨r, ⟨R, p.utility⟩, p.system⟩

def builder? (s : Session) (b : BuilderId) : Option PlacedBuilder := do
  let B ← s.builders[b]?
  let p ← s.utility? B.utility
  return ⟨b, B, p.utility, p.system⟩

/-- The system that a reference means. -/
def systemOf? (s : Session) : Ref → Option (SystemId × System)
  | .system i => s.systems[i]?.map fun S => (i, S)
  | _ => none

def treeOf? (s : Session) : Ref → Option WrittenTree
  | .tree i => s.trees[i]?
  | .treeOf u => s.utilities[u]?.bind RegionUtility.tree
  | _ => none

def utilityOf? (s : Session) : Ref → Option PlacedUtility
  | .utility u => s.utility? u
  | _ => none

def regionOf? (s : Session) : Ref → Option PlacedRegion
  | .region r => s.region? r
  | _ => none

def builderOf? (s : Session) : Ref → Option PlacedBuilder
  | .builder b => s.builder? b
  | _ => none

/-! ## Slots -/

/-- What a slot refers to, as far as `pick` takes it. -/
def lookup (pick : Session → Ref → Option α) (name : SlotName) : Attempt Session α := fun s =>
  match (s.slots.lookup name).bind (pick s) with
  | some a => ⟨.ok a, s, []⟩
  | none => ⟨.error (.emptySlot name), s, []⟩

/-- The reference in a slot. -/
def refAt : SlotName → Attempt Session Ref := lookup fun _ r => some r

def systemAt : SlotName → Attempt Session (SystemId × System) := lookup systemOf?

def treeAt : SlotName → Attempt Session WrittenTree := lookup treeOf?

def utilityAt : SlotName → Attempt Session PlacedUtility := lookup utilityOf?

def regionAt : SlotName → Attempt Session PlacedRegion := lookup regionOf?

def builderAt : SlotName → Attempt Session PlacedBuilder := lookup builderOf?

/-- Keeps a reference in a slot, in place of what was there. -/
def keep (slot : Keep) (r : Ref) : Attempt Session Unit := Attempt.update fun s =>
  match slot with
  | some name => { s with slots := (name, r) :: s.slots.filter (·.1 ≠ name) }
  | none => s

/-! ## Attempts on one object -/

/-- The session with system `i` replaced. -/
def setSystem (s : Session) (i : SystemId) (S : System) : Session :=
  { s with systems := s.systems.set i S }

def setUtility (s : Session) (u : UtilityId) (U : RegionUtility) : Session :=
  { s with utilities := s.utilities.set u U }

def setRegion (s : Session) (r : RegionId) (R : Region) : Session :=
  { s with regions := s.regions.set r R }

def setBuilder (s : Session) (b : BuilderId) (B : Builder) : Session :=
  { s with builders := s.builders.set b B }

/-- An attempt on system `i`, which is `S`. -/
def onSystem (i : SystemId) (S : System) (x : Attempt System α) : Attempt Session α :=
  Attempt.within (fun _ => S) (fun S' s => s.setSystem i S') x

/-- An attempt on a utility. -/
def onUtility (p : PlacedUtility) (x : Attempt RegionUtility α) : Attempt Session α :=
  Attempt.within (fun _ => p.utility) (fun U s => s.setUtility p.id U) x

/-- An attempt on a region and its utility. -/
def onRegion (p : PlacedRegion) (x : Attempt Holding α) : Attempt Session α :=
  Attempt.within (fun _ => p.holding)
    (fun h s => (s.setRegion p.id h.region).setUtility p.holding.region.utility h.utility) x

/-- An attempt on the utility of a region. -/
def onUtilityOf (p : PlacedRegion) (x : Attempt RegionUtility α) : Attempt Session α :=
  onUtility ⟨p.holding.region.utility, p.holding.utility, p.system⟩ x

/-! ## New objects -/

def addSystem (S : System) : Attempt Session SystemId := fun s =>
  ⟨.ok s.systems.length, { s with systems := s.systems ++ [S] }, []⟩

def addTree (t : WrittenTree) : Attempt Session TreeId := fun s =>
  ⟨.ok s.trees.length, { s with trees := s.trees ++ [t] }, []⟩

def addUtility (U : RegionUtility) : Attempt Session UtilityId := fun s =>
  ⟨.ok s.utilities.length, { s with utilities := s.utilities ++ [U] }, []⟩

def addRegion (R : Region) : Attempt Session RegionId := fun s =>
  ⟨.ok s.regions.length, { s with regions := s.regions ++ [R] }, []⟩

def addBuilder (B : Builder) : Attempt Session BuilderId := fun s =>
  ⟨.ok s.builders.length, { s with builders := s.builders ++ [B] }, []⟩

end Session

end RegionCalculus
