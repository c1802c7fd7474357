import QueueScript.Value.Basic

/-!
# Values as JSON

The JSON form of values, without any blank. Only quotes, backslashes and control characters are
escaped. What JSON cannot say becomes what stands closest to it: an infinite number and an empty
place in a list become `null`, an empty field is left out, a map inside a value becomes an empty
object, and binary data becomes an object of its bytes by position.
-/

namespace QueueScript.Value

/-- The escape of a character inside a JSON text. -/
def escapeChar (c : Char) : List Char :=
  if c = '"' then ['\\', '"']
  else if c = '\\' then ['\\', '\\']
  else if c.toNat < 0x20 then
    if c.toNat = 0x8 then ['\\', 'b']
    else if c.toNat = 0xC then ['\\', 'f']
    else if c = '\n' then ['\\', 'n']
    else if c = '\r' then ['\\', 'r']
    else if c = '\t' then ['\\', 't']
    else ['\\', 'u', '0', '0', Text.hexDigit (c.toNat / 16), Text.hexDigit (c.toNat % 16)]
  else [c]

/-- A text in quotes. -/
def quoted (s : String) : String :=
  String.ofList ('"' :: s.toList.flatMap escapeChar ++ ['"'])

/-- The JSON form of a number. -/
def jsonNumber (x : Float) : String :=
  if Number.isFinite x then Number.text x else "null"

/-- The members of the object that binary data is written as, from a position on. -/
def jsonBytes (start : Nat) : Bytes → List String
  | [] => []
  | b :: rest => (quoted (Number.natText start) ++ ":" ++ Number.natText b.toNat) ::
      jsonBytes (start + 1) rest

/-- An object made of written members. -/
def jsonObject (members : List String) : String :=
  "\x7b" ++ String.intercalate "," members ++ "\x7d"

mutual

/-- The JSON form of a value. -/
def json : Value → String
  | .null | .absent => "null"
  | .bool true => "true"
  | .bool false => "false"
  | .num x => jsonNumber x
  | .str s => quoted s
  | .bytes b => jsonObject (jsonBytes 0 b)
  | .list items => "[" ++ String.intercalate "," (jsonItems items) ++ "]"
  | .obj fields => jsonObject (jsonFields fields)
  | .map _ => jsonObject []
  | .determined _ => "[]"

/-- The JSON forms of the items of a list. -/
def jsonItems : List Value → List String
  | [] => []
  | v :: rest => json v :: jsonItems rest

/-- The members of an object, empty places left out. -/
def jsonFields : List (String × Value) → List String
  | [] => []
  | (_, .absent) :: rest => jsonFields rest
  | (k, v) :: rest => (quoted k ++ ":" ++ json v) :: jsonFields rest

end

/-- The object with the pairs of a map as its fields; any other value as it is. -/
def mapAsObject : Value → Value
  | .map pairs => ofPairs pairs
  | v => v

end QueueScript.Value
