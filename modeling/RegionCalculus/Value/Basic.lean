import RegionCalculus.Number.Binary64

/-!
# Plain values and their keys

State ids, labels, weights and markings arrive as plain values. Two values may be equal although
they are written differently: `1`, `true` and the floating number `1.0` are one id. Equality is an
equivalence: every value equals itself, and what does not is no value.

* `Value`: a value as it was written.
* `Key`: what equality sees of a value.
* `Value.key`: two values are equal exactly if their keys are.
-/

namespace RegionCalculus
set_option autoImplicit false

/-- A plain value as it was written. An object of any other kind equals nothing but itself: it has a
serial number, the name of its kind and its text. -/
inductive Value where
  | null
  | truth (b : Bool)
  | integer (n : Int)
  | floating (x : Number.Binary64)
  | object (serial : Nat) (kind text : String)
  | text (s : String)
  | list (items : List Value)
  | tuple (items : List Value)
deriving Inhabited

/-- What equality sees of a value. A sequence is a chain of items that ends with its kind. -/
inductive Key where
  | null
  | text (s : String)
  | number (q : Rat)
  | infinite (negative : Bool)
  | object (serial : Nat)
  | listEnd
  | tupleEnd
  | item (head tail : Key)
deriving DecidableEq

namespace Value

/-- The key of a floating number. Both zeros have the key of the number 0. -/
def floatingKey : Number.Binary64 → Key
  | .finite negative units exponent =>
    .number (Number.Binary64.finiteValue negative units exponent)
  | .infinite negative => .infinite negative

mutual

/-- The key of a value. Truth values count as the numbers 1 and 0. -/
def key : Value → Key
  | .null => .null
  | .truth b => .number (if b then 1 else 0)
  | .integer n => .number n
  | .floating x => floatingKey x
  | .object serial _ _ => .object serial
  | .text s => .text s
  | .list items => chain .listEnd items
  | .tuple items => chain .tupleEnd items

/-- The keys of a sequence, in order, in front of `last`. -/
def chain (last : Key) : List Value → Key
  | [] => last
  | v :: rest => .item (key v) (chain last rest)

end

/-- The members of a sequence. A text is the sequence of its characters. -/
def items? : Value → Option (List Value)
  | .list items => some items
  | .tuple items => some items
  | .text s => some (s.toList.map fun c => .text (String.singleton c))
  | _ => none

/-- The number that an integer or a truth value counts for; nothing else counts. -/
def count : Value → Int
  | .integer n => n
  | .truth b => if b then 1 else 0
  | _ => 0

@[simp] theorem key_text (s : String) : (Value.text s).key = .text s := by simp [key]
@[simp] theorem key_integer (n : Int) : (Value.integer n).key = .number n := by simp [key]
@[simp] theorem key_null : Value.null.key = .null := by simp [key]

end Value

end RegionCalculus
