/-!
# Texts as bytes

UTF-8 in both directions. Writing is exact. Reading accepts every byte sequence: the longest piece
that could have begun a character, and every byte that could not, becomes one replacement
character.
-/

namespace QueueScript

/-- Binary data. -/
abbrev Bytes := List UInt8

namespace Text

/-- The bytes of a text. -/
def encodeUtf8 (s : String) : Bytes :=
  s.toList.flatMap String.utf8EncodeChar

/-- The character that stands for bytes that are no text. -/
def replacement : Char := Char.ofNat 0xFFFD

/-- A character some of whose bytes have been read. -/
structure PartialChar where
  /-- The bits read so far. -/
  code : Nat
  /-- How many further bytes the character needs. -/
  owed : Nat
  /-- The least next byte that continues the character. -/
  least : Nat
  /-- The greatest next byte that continues the character. -/
  greatest : Nat

/-- What a byte means where a character may begin. -/
inductive LeadByte where
  /-- A whole character. -/
  | whole (c : Char)
  /-- The first byte of a longer character. -/
  | opens (p : PartialChar)
  /-- No character begins with it. -/
  | stray

/-- The reading of a byte where a character may begin. The bounds on the second byte exclude
surrogates, code points above the last one and spellings that are longer than needed. -/
def leadByte (b : Nat) : LeadByte :=
  if b < 0x80 then .whole (Char.ofNat b)
  else if 0xC2 ≤ b ∧ b ≤ 0xDF then .opens ⟨b - 0xC0, 1, 0x80, 0xBF⟩
  else if b = 0xE0 then .opens ⟨0, 2, 0xA0, 0xBF⟩
  else if b = 0xED then .opens ⟨0xD, 2, 0x80, 0x9F⟩
  else if 0xE1 ≤ b ∧ b ≤ 0xEF then .opens ⟨b - 0xE0, 2, 0x80, 0xBF⟩
  else if b = 0xF0 then .opens ⟨0, 3, 0x90, 0xBF⟩
  else if 0xF1 ≤ b ∧ b ≤ 0xF3 then .opens ⟨b - 0xF0, 3, 0x80, 0xBF⟩
  else if b = 0xF4 then .opens ⟨4, 3, 0x80, 0x8F⟩
  else .stray

/-- One byte where a character may begin: the characters completed and the character left open. -/
def beginByte (b : Nat) : List Char × Option PartialChar :=
  match leadByte b with
  | .whole c => ([c], none)
  | .opens p => ([], some p)
  | .stray => ([replacement], none)

/-- One byte in any position: the characters completed and the character left open. -/
def stepByte (st : Option PartialChar) (b : Nat) : List Char × Option PartialChar :=
  match st with
  | none => beginByte b
  | some p =>
    if p.least ≤ b ∧ b ≤ p.greatest then
      let code := p.code * 64 + (b - 0x80)
      if p.owed = 1 then ([Char.ofNat code], none)
      else ([], some ⟨code, p.owed - 1, 0x80, 0xBF⟩)
    else
      let (cs, next) := beginByte b
      (replacement :: cs, next)

/-- The characters of the bytes, from a character left open. -/
def decodeFrom (st : Option PartialChar) : Bytes → List Char
  | [] => if st.isSome then [replacement] else []
  | b :: bs =>
    let (cs, next) := stepByte st b.toNat
    cs ++ decodeFrom next bs

/-- The text of a byte sequence. -/
def decodeUtf8 (bytes : Bytes) : String :=
  String.ofList (decodeFrom none bytes)

/-- The lower-case hexadecimal digit of a number below sixteen. -/
def hexDigit (n : Nat) : Char :=
  if n < 10 then Char.ofNat (0x30 + n) else Char.ofNat (0x57 + n)

/-- Bytes as pairs of hexadecimal digits. -/
def hexOfBytes (bytes : Bytes) : String :=
  String.ofList (bytes.flatMap fun b => [hexDigit (b.toNat / 16), hexDigit (b.toNat % 16)])

/-- The value of a hexadecimal digit of either case. -/
def hexValue (c : Char) : Option Nat :=
  let n := c.toNat
  if 0x30 ≤ n ∧ n ≤ 0x39 then some (n - 0x30)
  else if 0x61 ≤ n ∧ n ≤ 0x66 then some (n - 0x57)
  else if 0x41 ≤ n ∧ n ≤ 0x46 then some (n - 0x37)
  else none

/-- Pairs of hexadecimal digits as bytes; anything else ends the sequence. -/
def bytesOfHexChars : List Char → Bytes
  | a :: b :: rest =>
    match hexValue a, hexValue b with
    | some x, some y => UInt8.ofNat (x * 16 + y) :: bytesOfHexChars rest
    | _, _ => []
  | _ => []

/-- The bytes that a text of hexadecimal digits stands for. -/
def bytesOfHex (s : String) : Bytes :=
  bytesOfHexChars s.toList

end Text

end QueueScript
