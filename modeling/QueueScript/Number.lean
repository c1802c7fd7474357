import QueueScript.Decimal.Shortest
import QueueScript.Text.Blank

/-!
# Numbers of scripts

Script numbers are doubles. This module writes them, reads them from the spellings that scripts
use, and rounds them. A number is written with the fewest digits that read back, positionally while
its decimal point falls among the first twenty-one places.
-/

namespace QueueScript.Number

open Decimal

/-! ## Writing -/

/-- How numbers are written. -/
structure Format where
  /-- Numbers with at most this many zeros after the point, and before the first digit, are written
  positionally. -/
  mostLeadingZeros : Nat
  /-- Numbers with at most this many digits before the point are written positionally. -/
  mostWholeDigits : Nat
  /-- The mark before an exponent. -/
  mark : String
  /-- The text of what is no number. -/
  nan : String
  /-- The text of the infinity. -/
  infinity : String

/-- The format of script numbers: `0.000001` but `1e-7`, twenty-one whole digits but `1e+21`. -/
def format : Format :=
  { mostLeadingZeros := 5, mostWholeDigits := 21, mark := "e", nan := "NaN", infinity := "Infinity" }

/-- Decimal digits of a natural number. -/
def natText (n : Nat) : String :=
  String.ofList (Nat.toDigits 10 n)

/-- Decimal digits of an integer, with a sign if it is negative. -/
def intText (i : Int) : String :=
  if i < 0 then "-" ++ natText i.natAbs else natText i.natAbs

/-- A run of zeros. -/
def zeros (n : Nat) : String :=
  String.ofList (List.replicate n '0')

/-- Decimal digits in a format. -/
def formatDigits (f : Format) (d : Digits) : String :=
  let ds := Nat.toDigits 10 d.digits
  let text := String.ofList ds
  if 0 < d.point ∧ d.point ≤ f.mostWholeDigits then
    let whole := d.point.toNat
    if d.count ≤ whole then text ++ zeros (whole - d.count)
    else String.ofList (ds.take whole) ++ "." ++ String.ofList (ds.drop whole)
  else if d.point ≤ 0 ∧ -d.point ≤ f.mostLeadingZeros then
    "0." ++ zeros (-d.point).toNat ++ text
  else
    let exponent := d.point - 1
    let sign := if exponent < 0 then "-" else "+"
    let lead := String.ofList (ds.take 1)
    let rest := String.ofList (ds.drop 1)
    lead ++ (if d.count ≤ 1 then "" else "." ++ rest) ++ f.mark ++ sign ++ natText exponent.natAbs

/-- The text of a number. Both zeros are written `0`. -/
def text (x : Float) : String :=
  match Binary.ofFloat x with
  | .nan => format.nan
  | .infinite negative => (if negative then "-" else "") ++ format.infinity
  | .finite negative m q =>
    if m = 0 then "0"
    else (if negative then "-" else "") ++ formatDigits format (shortest m q)

/-- The zero that is written like the other one but is its negative. -/
def isNegativeZero (x : Float) : Bool :=
  Binary.ofFloat x == .finite true 0 leastExponent

/-! ## Kinds of numbers -/

/-- Neither infinite nor the value that is no number. -/
def isFinite (x : Float) : Bool :=
  match Binary.ofFloat x with
  | .finite _ _ _ => true
  | _ => false

/-- The value that is no number. -/
def isNaN (x : Float) : Bool :=
  Binary.ofFloat x == .nan

/-- Whole numbers. -/
def isWhole (x : Float) : Bool :=
  match Binary.ofFloat x with
  | .finite _ m q => m % denominator q == 0
  | _ => false

/-- Whole multiples of a positive natural number. -/
def isMultipleOf (k : Nat) (x : Float) : Bool :=
  match Binary.ofFloat x with
  | .finite _ m q => numerator m q % (k * denominator q) == 0
  | _ => false

/-- The nearest whole number, a half going up. -/
def round (x : Float) : Float :=
  match Binary.ofFloat x with
  | .finite negative m q =>
    if 0 ≤ q then x
    else
      let d : Int := denominator q
      let signed : Int := if negative then -(m : Int) else m
      let whole := (2 * signed + d).fdiv (2 * d)
      if whole = 0 then (if negative then -0.0 else 0.0) else Float.ofInt whole
  | _ => x

/-! ## Reading -/

/-- An ASCII digit. -/
def isDigit (c : Char) : Bool :=
  decide (0x30 ≤ c.toNat) && decide (c.toNat ≤ 0x39)

/-- The number that decimal digits stand for. -/
def digitsValue (ds : List Char) : Nat :=
  ds.foldl (fun n c => n * 10 + (c.toNat - 0x30)) 0

/-- The leading digits and what follows them. -/
def takeDigits (cs : List Char) : List Char × List Char :=
  (cs.takeWhile isDigit, cs.dropWhile isDigit)

/-- The double nearest to `mantissa · 10 ^ exponent`. Beyond four hundred places nothing but zero and
infinity is near. -/
def ofScaled (mantissa : Nat) (exponent : Int) : Float :=
  if mantissa = 0 then 0.0
  else
    let size := digitCount mantissa + exponent
    if 400 < size then 1.0 / 0.0
    else if size < -400 then 0.0
    else if exponent < 0 then Float.ofScientific mantissa true exponent.natAbs
    else Float.ofScientific mantissa false exponent.natAbs

/-- The number with the given sign. -/
def withSign (negative : Bool) (x : Float) : Float :=
  if negative then -x else x

/-- A number spelled with digits and a point: the digits before the point, those after it, and what
follows. At least one digit is needed, and the point may come first or last. -/
def scanPlain (cs : List Char) : Option (List Char × List Char × List Char) :=
  match takeDigits cs with
  | ([], '.' :: rest) =>
    match takeDigits rest with
    | ([], _) => none
    | (fraction, rest) => some ([], fraction, rest)
  | ([], _) => none
  | (whole, '.' :: rest) =>
    let (fraction, rest) := takeDigits rest
    some (whole, fraction, rest)
  | (whole, rest) => some (whole, [], rest)

/-- The number of digits before and after the point. -/
def ofPlain (whole fraction : List Char) : Float :=
  ofScaled (digitsValue (whole ++ fraction)) (-(fraction.length : Int))

/-- A leading minus sign and what follows. -/
def takeMinus : List Char → Bool × List Char
  | '-' :: rest => (true, rest)
  | cs => (false, cs)

/-- A leading sign and what follows. -/
def takeSign : List Char → Bool × List Char
  | '-' :: rest => (true, rest)
  | '+' :: rest => (false, rest)
  | cs => (false, cs)

/-- The number a script text spells, blank ends aside: digits with at most one point and at most a
minus sign. -/
def ofText? (s : String) : Option Float :=
  let (negative, cs) := takeMinus (Text.trimChars s.toList)
  match scanPlain cs with
  | some (whole, fraction, []) => some (withSign negative (ofPlain whole fraction))
  | _ => none

/-- Whether a text spells a whole number, blank ends aside: digits after at most a minus sign. -/
def isWholeText (s : String) : Bool :=
  match takeDigits (takeMinus (Text.trimChars s.toList)).2 with
  | ([], _) => false
  | (_, rest) => rest.isEmpty

/-- The whole number at the start of a text, blank start aside; no number if there is no digit. -/
def leadingWhole (s : String) : Float :=
  let (negative, cs) := takeSign (s.toList.dropWhile Text.isBlank)
  match takeDigits cs with
  | ([], _) => 0.0 / 0.0
  | (ds, _) => withSign negative (ofScaled (digitsValue ds) 0)

/-- An exponent part at the start of the characters: its value, zero if there is none, and what
follows. -/
def takeExponent (cs : List Char) : Int × List Char :=
  match cs with
  | c :: rest =>
    if c = 'e' ∨ c = 'E' then
      let (negative, digits) := takeSign rest
      match takeDigits digits with
      | ([], _) => (0, cs)
      | (ds, rest) => (if negative then -(digitsValue ds : Int) else digitsValue ds, rest)
    else (0, cs)
  | [] => (0, cs)

/-- The value of a digit in a base of at most sixteen. -/
def digitIn (base : Nat) (c : Char) : Option Nat :=
  let n := c.toNat
  let v :=
    if 0x30 ≤ n ∧ n ≤ 0x39 then n - 0x30
    else if 0x61 ≤ n ∧ n ≤ 0x66 then n - 0x57
    else if 0x41 ≤ n ∧ n ≤ 0x46 then n - 0x37
    else base
  if v < base then some v else none

/-- The number that digits of a base stand for; `none` if one is no such digit. -/
def ofBase (base : Nat) (cs : List Char) : Option Nat :=
  cs.foldl (fun acc c => do
    let n ← acc
    let d ← digitIn base c
    pure (n * base + d)) (some 0)

/-- The number that a signed decimal spelling with an optional exponent stands for. -/
def ofDecimal? (cs : List Char) : Option Float :=
  let (negative, body) := takeSign cs
  if body = "Infinity".toList then some (withSign negative (1.0 / 0.0))
  else
    match scanPlain body with
    | some (whole, fraction, rest) =>
      match takeExponent rest with
      | (exponent, []) =>
        some (withSign negative
          (ofScaled (digitsValue (whole ++ fraction)) (exponent - fraction.length)))
      | _ => none
    | none => none

/-- The number that any spelling of a number stands for, blank ends aside: decimal with an exponent,
infinity, or a natural number in base two, eight or sixteen. A blank text is zero, and anything else
is no number. -/
def ofLiteral (s : String) : Float :=
  let nan : Float := 0.0 / 0.0
  let based (base : Nat) (ds : List Char) : Float :=
    if ds.isEmpty then nan else ((ofBase base ds).map (ofScaled · 0)).getD nan
  match Text.trimChars s.toList with
  | [] => 0.0
  | '0' :: 'x' :: ds => based 16 ds
  | '0' :: 'X' :: ds => based 16 ds
  | '0' :: 'o' :: ds => based 8 ds
  | '0' :: 'O' :: ds => based 8 ds
  | '0' :: 'b' :: ds => based 2 ds
  | '0' :: 'B' :: ds => based 2 ds
  | cs => (ofDecimal? cs).getD nan

end QueueScript.Number
