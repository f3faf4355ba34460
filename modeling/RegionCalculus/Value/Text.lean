import RegionCalculus.Value.Basic
import RegionCalculus.Number.Shortest
import RegionCalculus.Text.Quoted

/-!
# The text of a value

* `Value.floatingLayout`: how floating numbers are laid out; their decimals are the shortest.
* `Value.shown v`: the form in which messages show `v`; texts are quoted.
* `Value.plain v`: the same, but a text itself stands without quotes.
* `Value.kind v`: the name of the kind of value.
-/

namespace RegionCalculus.Value
set_option autoImplicit false

/-- Items between brackets, with a comma and a blank between two. -/
def bracketed (texts : List String) : String := "[" ++ ", ".intercalate texts ++ "]"

/-- Floating numbers have a point among their digits from `0.0001` up to sixteen digits before the
point, and otherwise an exponent of at least two digits. -/
def floatingLayout : Number.Decimal.Layout where
  least := -4
  greatest := 15
  width := 2

/-- The text of a floating number. -/
def floatingText : Number.Binary64 → String
  | .finite negative units exponent =>
    floatingLayout.write (Number.shortest negative units exponent)
  | .infinite negative => if negative then "-inf" else "inf"

mutual

/-- The form in which messages show a value. A tuple of one item keeps a comma behind it. -/
def shown : Value → String
  | .null => "None"
  | .truth b => if b then "True" else "False"
  | .integer n => toString n
  | .floating x => floatingText x
  | .object _ _ t => t
  | .text s => Text.quoted s
  | .list items => bracketed (shownAll items)
  | .tuple [item] => "(" ++ shown item ++ ",)"
  | .tuple items => "(" ++ ", ".intercalate (shownAll items) ++ ")"

def shownAll : List Value → List String
  | [] => []
  | v :: rest => shown v :: shownAll rest

end

/-- The form in which an arc shows a state: as in messages, but a text without quotes. -/
def plain : Value → String
  | .text s => s
  | v => v.shown

def kind : Value → String
  | .null => "NoneType"
  | .truth _ => "bool"
  | .integer _ => "int"
  | .floating _ => "float"
  | .object _ k _ => k
  | .text _ => "str"
  | .list _ => "list"
  | .tuple _ => "tuple"

end RegionCalculus.Value
