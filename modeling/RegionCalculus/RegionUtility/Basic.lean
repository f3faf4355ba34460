import RegionCalculus.Parikh
import RegionCalculus.Weights
import RegionCalculus.Tree.Written

/-!
# Region utilities

What all regions of one system share: an order of its events, and what has been computed about the
system so far. The spanning tree, the Parikh vectors of its states and the cycle vectors are each
computed on first use and kept from then on, while the system may grow.

* `RegionUtility`: the system it belongs to, the events, and the kept results.
* `eventOrder? S events`: the order of events for `S`, with each label once.
* `RegionUtility.eventIndex?`, `resolve?`: the index of an event given by label, or by label or index.
-/

namespace RegionCalculus
set_option autoImplicit false

abbrev SystemId := Nat

/-- The events of a system in a fixed order, and the results kept so far. -/
structure RegionUtility where
  system : SystemId
  events : List String
  tree : Option WrittenTree := none
  vectors : Option (List (Key × List Int)) := none
  cycles : Option (List (Arc Key × List Int)) := none

/-- The first label that occurs once more after an earlier occurrence. -/
def firstRepeated : List String → List String → Option String
  | _, [] => none
  | seen, e :: rest => if e ∈ seen then some e else firstRepeated (e :: seen) rest

/-- An order of events: the alphabet, or the given labels if they are distinct and miss no label. -/
def eventOrder? (alphabet : List String) : Option (List String) → Except Fault (List String)
  | none => .ok alphabet
  | some given =>
    match firstRepeated [] given with
    | some e => .error (.duplicateEvent e)
    | none =>
      let missing := alphabet.filter (· ∉ given)
      if missing = [] then .ok given else .error (.labelsMissing missing)

namespace RegionUtility

def size (U : RegionUtility) : Nat := U.events.length

/-- The index of the event with a given label. -/
def eventIndex? (U : RegionUtility) : Value → Except Fault Nat
  | .text s =>
    match U.events.idxOf? s with
    | some i => .ok i
    | none => .error (.unknownEvent (.text s))
  | v => .error (.unknownEvent v)

/-- The index of an event that is given by its label or by its index. -/
def resolve? (U : RegionUtility) : Value → Except Fault Nat
  | .text s => U.eventIndex? (.text s)
  | v => do
    let i ← v.integer? .eventIndex
    if 0 ≤ i ∧ i < U.size then return i.toNat else throw (.indexOutOfRange i U.size)

/-- The events and the system as it is now. -/
def shown (U : RegionUtility) (S : System) : String :=
  s!"RegionUtility(events={Value.bracketed (U.events.map Text.quoted)}, lts={S.shown})"

end RegionUtility

end RegionCalculus
