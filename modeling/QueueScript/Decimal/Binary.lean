/-!
# Doubles as exact fractions

A double read off its bits: not a number, infinite, or a signed fraction `m · 2 ^ q` with a natural
mantissa. Everything exact that is said about numbers (how they are written, whether they are whole,
how they round) is computed from this form in integer arithmetic.
-/

namespace QueueScript.Decimal

/-- A power of two. -/
def twoTo (n : Nat) : Nat :=
  Nat.pow 2 n

/-- A power of ten. -/
def tenTo (n : Nat) : Nat :=
  Nat.pow 10 n

/-- A double read off its bits. -/
inductive Binary where
  /-- Not a number. -/
  | nan
  /-- One of the two infinities. -/
  | infinite (negative : Bool)
  /-- The fraction `mantissa · 2 ^ exponent`, with its sign apart. -/
  | finite (negative : Bool) (mantissa : Nat) (exponent : Int)
  deriving DecidableEq, Repr

/-- The exponent of the smallest doubles. -/
def leastExponent : Int := -1074

/-- The reading of a double. -/
def Binary.ofFloat (x : Float) : Binary :=
  let bits := x.toBits.toNat
  let negative := bits / twoTo 63 == 1
  let exponent : Nat := bits / twoTo 52 % 2048
  let fraction := bits % twoTo 52
  if exponent = 2047 then
    if fraction = 0 then .infinite negative else .nan
  else if exponent = 0 then .finite negative fraction leastExponent
  else .finite negative (twoTo 52 + fraction) ((exponent : Int) - 1075)

/-- The numerator of `m · 2 ^ q` as a fraction of naturals. -/
def numerator (m : Nat) (q : Int) : Nat :=
  m * twoTo q.toNat

/-- The denominator of `m · 2 ^ q` as a fraction of naturals. -/
def denominator (q : Int) : Nat :=
  twoTo (-q).toNat

end QueueScript.Decimal
