import RegionCalculus.Text.Printable

/-!
# Quoted text

The form in which a message shows a text. It stands in single quotes, or in double quotes if it holds
a single quote and no double one; the quote in use and the backslash are escaped, and a character
that is not printable is written by its code point.

* `quoteFor s`: the quote that encloses `s`.
* `escape q c`: the characters that stand for `c` between quotes `q`.
* `quoted s`: the whole quoted text.
-/

namespace RegionCalculus.Text
set_option autoImplicit false

/-- The last `n` hexadecimal digits of `k`, in lower case. -/
def hexDigits : Nat → Nat → List Char
  | 0, _ => []
  | n + 1, k => hexDigits n (k / 16) ++ [Nat.digitChar (k % 16)]

/-- A code point in the shortest of the three widths that holds it. -/
def codeEscape (k : Nat) : List Char :=
  if k < 0x100 then '\\' :: 'x' :: hexDigits 2 k
  else if k < 0x10000 then '\\' :: 'u' :: hexDigits 4 k
  else '\\' :: 'U' :: hexDigits 8 k

/-- How a character is written between quotes `q`. -/
def escape (q c : Char) : List Char :=
  if c = q ∨ c = '\\' then ['\\', c]
  else if c = '\n' then ['\\', 'n']
  else if c = '\r' then ['\\', 'r']
  else if c = '\t' then ['\\', 't']
  else if isPrintable c then [c]
  else codeEscape c.toNat

/-- Double quotes are used only where they save escaping a single one. -/
def quoteFor (s : List Char) : Char :=
  if '\'' ∈ s ∧ '"' ∉ s then '"' else '\''

/-- The text between its quotes. -/
def quoted (s : String) : String :=
  let q := quoteFor s.toList
  String.ofList (q :: s.toList.flatMap (escape q) ++ [q])

end RegionCalculus.Text
