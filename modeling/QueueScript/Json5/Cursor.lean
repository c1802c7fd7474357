import QueueScript.Text.Units
import QueueScript.Text.Utf8
import QueueScript.Number

/-!
# Places in an object literal

The reader of object literals walks over characters and counts lines from one and columns, in
16-bit units, from zero. A fault names the place after the offending character, or one past the end
of the text.
-/

namespace QueueScript.Json5

/-- What is wrong with an object literal, and where. -/
inductive Fault where
  /-- A character that cannot stand where it does. -/
  | character (c : Char) (line column : Nat)
  /-- The text ends too early. -/
  | ending (line column : Nat)
  /-- An escape in an identifier names a character that cannot stand there. -/
  | identifier (line column : Nat)
  deriving DecidableEq, Repr

/-- The way a character is shown in a message. -/
def shown (c : Char) : String :=
  match c.toNat with
  | 0x27 => "\\'"
  | 0x22 => "\\\""
  | 0x5C => "\\\\"
  | 0x8 => "\\b"
  | 0xC => "\\f"
  | 0xA => "\\n"
  | 0xD => "\\r"
  | 0x9 => "\\t"
  | 0xB => "\\v"
  | 0x0 => "\\0"
  | 0x2028 => "\\u2028"
  | 0x2029 => "\\u2029"
  | n =>
    if n < 0x20 then
      "\\x" ++ String.ofList [Text.hexDigit (n / 16), Text.hexDigit (n % 16)]
    else String.singleton c

/-- A place as it is written in a message. -/
def place (line column : Nat) : String :=
  Number.natText line ++ ":" ++ Number.natText column

/-- The wording of a fault. -/
def Fault.message : Fault → String
  | .character c line column =>
    "JSON5: invalid character '" ++ shown c ++ "' at " ++ place line column
  | .ending line column => "JSON5: invalid end of input at " ++ place line column
  | .identifier line column => "JSON5: invalid identifier character at " ++ place line column

/-- A place in a text: what is still to be read, and the line and column reached. -/
structure Cursor where
  /-- The characters still to be read. -/
  rest : List Char
  /-- The line, counted from one. -/
  line : Nat
  /-- The column, counted from zero. -/
  column : Nat

/-- The start of a text. -/
def Cursor.start (s : String) : Cursor :=
  ⟨s.toList, 1, 0⟩

/-- The place after a character. -/
def Cursor.after (c : Char) (rest : List Char) (line column : Nat) : Cursor :=
  if c = '\n' then ⟨rest, line + 1, 0⟩ else ⟨rest, line, column + Text.unitsOfChar c⟩

/-- The place after the next character; at the end of the text only the column moves. -/
def Cursor.next (k : Cursor) : Cursor :=
  match k.rest with
  | [] => { k with column := k.column + 1 }
  | c :: rest => .after c rest k.line k.column

/-- The place some characters of one unit further on the same line. -/
def Cursor.skip (k : Cursor) (n : Nat) : Cursor :=
  { k with rest := k.rest.drop n, column := k.column + n }

/-- The fault of whatever stands here. -/
def Cursor.unexpected (k : Cursor) : Fault :=
  let after := k.next
  match k.rest with
  | [] => .ending after.line after.column
  | c :: _ => .character c after.line after.column

end QueueScript.Json5
