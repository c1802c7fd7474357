/-!
# Sizes in 16-bit units

Sizes, indices and columns of texts are counted in 16-bit code units: a character outside the
basic plane takes two, every other character one.
-/

namespace QueueScript.Text

/-- The number of 16-bit units of a character. -/
def unitsOfChar (c : Char) : Nat :=
  if c.toNat < 0x10000 then 1 else 2

/-- The number of 16-bit units of a list of characters. -/
def unitsOfChars : List Char → Nat
  | [] => 0
  | c :: cs => unitsOfChar c + unitsOfChars cs

/-- The number of 16-bit units of a text. -/
def units (s : String) : Nat :=
  unitsOfChars s.toList

/-- The characters from a unit index on; `none` if the index falls inside a character or lies
beyond the end. -/
def dropUnits : List Char → Nat → Option (List Char)
  | cs, 0 => some cs
  | [], _ + 1 => none
  | c :: cs, n + 1 =>
    if unitsOfChar c ≤ n + 1 then dropUnits cs (n + 1 - unitsOfChar c) else none

end QueueScript.Text
