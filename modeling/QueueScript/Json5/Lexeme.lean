import QueueScript.Json5.Cursor
import QueueScript.Text.Identifier

/-!
# Words of an object literal

Blanks and comments, quoted texts, identifiers and numbers. Each scanner takes one character at a
time and either stops at the place after its word or fails at the first character that cannot
belong to it.
-/

namespace QueueScript.Json5

/-! ## Blanks and comments -/

/-- Where the scanner of blanks and comments stands. -/
inductive Gap where
  /-- Between words. -/
  | blank
  /-- After the first slash of a comment. -/
  | slash
  /-- In a comment that the line ends. -/
  | line
  /-- In a comment that a star and a slash end. -/
  | block
  /-- In such a comment, after a star. -/
  | star

/-- Line ends, which also end a comment. -/
def isLineEnd (c : Char) : Bool :=
  c == '\n' || c == '\r' || c.toNat == 0x2028 || c.toNat == 0x2029

/-- The place of the next word, or of the end of the text. -/
def skipGap (gap : Gap) : List Char → Nat → Nat → Except Fault Cursor
  | [], line, column =>
    match gap with
    | .blank | .line => .ok ⟨[], line, column⟩
    | .slash | .block | .star => .error (Cursor.unexpected ⟨[], line, column⟩)
  | c :: rest, line, column =>
    let after := Cursor.after c rest line column
    match gap with
    | .blank =>
      if Text.isBlank c then skipGap .blank rest after.line after.column
      else if c = '/' then skipGap .slash rest after.line after.column
      else .ok ⟨c :: rest, line, column⟩
    | .slash =>
      if c = '*' then skipGap .block rest after.line after.column
      else if c = '/' then skipGap .line rest after.line after.column
      else .error (Cursor.unexpected ⟨c :: rest, line, column⟩)
    | .line => skipGap (if isLineEnd c then .blank else .line) rest after.line after.column
    | .block => skipGap (if c = '*' then .star else .block) rest after.line after.column
    | .star =>
      skipGap (if c = '*' then .star else if c = '/' then .blank else .block) rest
        after.line after.column

/-- The place of the next word, or of the end of the text. -/
def Cursor.word (k : Cursor) : Except Fault Cursor :=
  skipGap .blank k.rest k.line k.column

/-! ## Quoted texts -/

/-- Where the scanner of a quoted text stands. -/
inductive Quote where
  /-- Between characters. -/
  | plain
  /-- After a backslash. -/
  | escape
  /-- After an escaped zero, which no digit may follow. -/
  | zero
  /-- After an escaped carriage return, which a line feed may follow. -/
  | carriage
  /-- In an escape that names a code point, with the number of digits still to come. -/
  | code (digits value : Nat)

/-- Code points, some of them halves of a pair, as characters. Halves that meet make one character;
a half on its own is none. -/
def charsOfCodes : List Nat → List Char
  | [] => []
  | [a] => [if 0xD800 ≤ a ∧ a ≤ 0xDFFF then Text.replacement else Char.ofNat a]
  | a :: b :: rest =>
    if 0xD800 ≤ a ∧ a ≤ 0xDBFF ∧ 0xDC00 ≤ b ∧ b ≤ 0xDFFF then
      Char.ofNat (0x10000 + (a - 0xD800) * 0x400 + (b - 0xDC00)) :: charsOfCodes rest
    else
      (if 0xD800 ≤ a ∧ a ≤ 0xDFFF then Text.replacement else Char.ofNat a) ::
        charsOfCodes (b :: rest)

/-- The code point of a one-letter escape. -/
def letterEscape (c : Char) : Option Nat :=
  match c with
  | 'b' => some 0x8
  | 'f' => some 0xC
  | 'n' => some 0xA
  | 'r' => some 0xD
  | 't' => some 0x9
  | 'v' => some 0xB
  | _ => none

/-- A quoted text from inside its quotes: the code points read so far, in reverse, and the rest. The
result holds the code points of the whole text and the place after the closing quote. -/
def scanQuoted (quote : Char) (state : Quote) (codes : List Nat) :
    List Char → Nat → Nat → Except Fault (List Nat × Cursor)
  | [], line, column => .error (Cursor.unexpected ⟨[], line, column⟩)
  | c :: rest, line, column =>
    let here : Cursor := ⟨c :: rest, line, column⟩
    let after := Cursor.after c rest line column
    let plain (codes : List Nat) : Except Fault (List Nat × Cursor) :=
      if c = '\\' then scanQuoted quote .escape codes rest after.line after.column
      else if c = quote then .ok (codes.reverse, after)
      else if c = '\n' ∨ c = '\r' then .error here.unexpected
      else scanQuoted quote .plain (c.toNat :: codes) rest after.line after.column
    match state with
    | .plain => plain codes
    | .escape =>
      match letterEscape c with
      | some n => scanQuoted quote .plain (n :: codes) rest after.line after.column
      | none =>
        if c = '0' then scanQuoted quote .zero codes rest after.line after.column
        else if c = 'x' then scanQuoted quote (.code 2 0) codes rest after.line after.column
        else if c = 'u' then scanQuoted quote (.code 4 0) codes rest after.line after.column
        else if c = '\r' then scanQuoted quote .carriage codes rest after.line after.column
        else if isLineEnd c then scanQuoted quote .plain codes rest after.line after.column
        else if Number.isDigit c then .error here.unexpected
        else scanQuoted quote .plain (c.toNat :: codes) rest after.line after.column
    | .zero => if Number.isDigit c then .error here.unexpected else plain (0 :: codes)
    | .carriage =>
      if c = '\n' then scanQuoted quote .plain codes rest after.line after.column
      else plain codes
    | .code digits value =>
      match Text.hexValue c with
      | none => .error here.unexpected
      | some d =>
        let value := value * 16 + d
        if digits ≤ 1 then scanQuoted quote .plain (value :: codes) rest after.line after.column
        else scanQuoted quote (.code (digits - 1) value) codes rest after.line after.column

/-- The quoted text that opens here, and the place after it. -/
def Cursor.quoted (k : Cursor) (quote : Char) : Except Fault (String × Cursor) := do
  let inside := k.next
  let (codes, after) ← scanQuoted quote .plain [] inside.rest inside.line inside.column
  pure (String.ofList (charsOfCodes codes), after)

/-! ## Identifiers -/

/-- Where the scanner of an identifier stands. -/
inductive Name where
  /-- Between characters. -/
  | plain
  /-- After a backslash; the flag says whether this is the first character. -/
  | escape (first : Bool)
  /-- In an escape that names a code point, with the number of digits still to come. -/
  | code (first : Bool) (digits value : Nat)

/-- Whether a code point named by an escape may stand in an identifier. -/
def allowedCode (first : Bool) (n : Nat) : Bool :=
  !(decide (0xD800 ≤ n) && decide (n ≤ 0xDFFF)) &&
    (if first then Text.isIdentifierStart (Char.ofNat n)
     else Text.isIdentifierContinue (Char.ofNat n))

/-- An identifier: the characters read so far, in reverse, and the rest. The result holds the whole
identifier and the place after it. -/
def scanName (state : Name) (name : List Char) :
    List Char → Nat → Nat → Except Fault (List Char × Cursor)
  | [], line, column =>
    match state with
    | .plain => .ok (name.reverse, ⟨[], line, column⟩)
    | _ => .error (Cursor.unexpected ⟨[], line, column⟩)
  | c :: rest, line, column =>
    let here : Cursor := ⟨c :: rest, line, column⟩
    let after := Cursor.after c rest line column
    match state with
    | .plain =>
      if c = '\\' then scanName (.escape false) name rest after.line after.column
      else if Text.isIdentifierContinue c then
        scanName .plain (c :: name) rest after.line after.column
      else .ok (name.reverse, here)
    | .escape first =>
      if c = 'u' then scanName (.code first 4 0) name rest after.line after.column
      else .error here.unexpected
    | .code first digits value =>
      match Text.hexValue c with
      | none => .error here.unexpected
      | some d =>
        let value := value * 16 + d
        if digits ≤ 1 then
          if allowedCode first value then
            scanName .plain (Char.ofNat value :: name) rest after.line after.column
          else .error (.identifier after.line (after.column - 5))
        else scanName (.code first (digits - 1) value) name rest after.line after.column

/-- The identifier that begins here, and the place after it. -/
def Cursor.name (k : Cursor) : Except Fault (String × Cursor) := do
  let (cs, after) ←
    match k.rest with
    | [] => .error k.unexpected
    | c :: rest =>
      let after := Cursor.after c rest k.line k.column
      if c = '\\' then scanName (.escape true) [] rest after.line after.column
      else if Text.isIdentifierStart c then scanName .plain [c] rest after.line after.column
      else .error k.unexpected
  pure (String.ofList cs, after)

/-! ## Numbers -/

/-- An exponent part, if one begins here, and the place after it. An exponent needs a digit. -/
def Cursor.exponent (k : Cursor) : Except Fault (Int × Cursor) :=
  match k.rest with
  | c :: rest =>
    if c = 'e' ∨ c = 'E' then
      let signed := match rest with
        | s :: _ => s == '+' || s == '-'
        | [] => false
      let start := k.skip (if signed then 2 else 1)
      match Number.takeDigits start.rest with
      | ([], _) => .error start.unexpected
      | (ds, _) =>
        let n : Int := Number.digitsValue ds
        .ok (if rest.head? = some '-' then -n else n, start.skip ds.length)
    else .ok (0, k)
  | [] => .ok (0, k)

/-- The number with these digits before and after the point, and the exponent part that may begin
here. -/
def Cursor.scaled (k : Cursor) (whole fraction : List Char) : Except Fault (Float × Cursor) := do
  let (exponent, after) ← k.exponent
  pure (Number.ofScaled (Number.digitsValue (whole ++ fraction)) (exponent - fraction.length), after)

/-- The fraction that may begin here, after the digits of the whole part. -/
def Cursor.fraction (k : Cursor) (whole : List Char) : Except Fault (Float × Cursor) :=
  match k.rest with
  | '.' :: rest =>
    let fraction := (Number.takeDigits rest).1
    (k.skip (1 + fraction.length)).scaled whole fraction
  | _ => k.scaled whole []

/-- Fixed words are matched one character at a time. -/
def Cursor.literal (k : Cursor) : List Char → Except Fault Cursor
  | [] => .ok k
  | l :: ls =>
    match k.rest with
    | c :: _ => if c = l then k.next.literal ls else .error k.unexpected
    | [] => .error k.unexpected

/-- The number that begins here, its sign aside, and the place after it. A whole part that begins
with zero is zero alone, unless it opens a hexadecimal number. -/
def Cursor.unsigned (k : Cursor) : Except Fault (Float × Cursor) :=
  match k.rest with
  | '.' :: rest =>
    match Number.takeDigits rest with
    | ([], _) => .error (k.skip 1).unexpected
    | (fraction, _) => (k.skip (1 + fraction.length)).scaled [] fraction
  | '0' :: x :: rest =>
    if x = 'x' ∨ x = 'X' then
      let ds := rest.takeWhile fun c => (Text.hexValue c).isSome
      if ds.isEmpty then .error (k.skip 2).unexpected
      else .ok (Number.ofScaled ((Number.ofBase 16 ds).getD 0) 0, k.skip (2 + ds.length))
    else (k.skip 1).fraction ['0']
  | 'I' :: _ => do
    let after ← k.literal "Infinity".toList
    pure (1.0 / 0.0, after)
  | 'N' :: _ => do
    let after ← k.literal "NaN".toList
    pure (0.0 / 0.0, after)
  | c :: _ =>
    if Number.isDigit c then
      let whole := if c = '0' then ['0'] else (Number.takeDigits k.rest).1
      (k.skip whole.length).fraction whole
    else .error k.unexpected
  | [] => .error k.unexpected

end QueueScript.Json5
