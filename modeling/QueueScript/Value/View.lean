import QueueScript.Text.Case
import QueueScript.Text.Units
import QueueScript.Value.Json

/-!
# Values as texts, numbers and truth values

What scripts see of a value: its text, its description with the kind in front, and the number or
truth value it stands for, if any.
-/

namespace QueueScript.Value

mutual

/-- The text of a value. Items of a list are joined by bars; objects and maps are written as JSON. -/
def text : Value → String
  | .null | .absent => "null"
  | .bool true => "true"
  | .bool false => "false"
  | .num x => Number.text x
  | .str s => s
  | .bytes b => Text.hexOfBytes b
  | .list items => String.intercalate "|" (textItems items)
  | .obj fields => json (.obj fields)
  | .map pairs => json (ofPairs pairs)
  | .determined _ => ""

/-- The texts of the items of a list. -/
def textItems : List Value → List String
  | [] => []
  | v :: rest => text v :: textItems rest

end

/-- A value with its kind in front. -/
def describe (v : Value) : String :=
  match v.kind with
  | .null => Kind.null.name
  | k => k.name ++ "@" ++ v.text

/-- The number that a value stands for. -/
def asNumber : Value → Option Float
  | .num x => if Number.isNaN x then none else some x
  | .bool b => some (if b then 1.0 else 0.0)
  | .str s => Number.ofText? s
  | _ => none

/-- The truth value that a text spells, blank ends and case aside. -/
def boolOfText (s : String) : Option Bool :=
  let t := Text.lower (Text.trim s)
  if t = "true" then some true
  else if t = "false" then some false
  else none

/-- The truth value that a value stands for. -/
def asBoolean : Value → Option Bool
  | .bool b => some b
  | .str s => boolOfText s
  | _ => none

/-- The size of a value: items, fields, pairs or bytes, and units of the text for all else. -/
def size : Value → Nat
  | .bytes b => b.length
  | .list items => items.length
  | .map pairs => pairs.length
  | .obj fields => fields.length
  | v => Text.units v.text

mutual

/-- The text that a value has inside a list that is read as a number. -/
def itemText : Value → String
  | .null | .absent => ""
  | .bool true => "true"
  | .bool false => "false"
  | .num x => Number.text x
  | .str s => s
  | .bytes b => String.intercalate "," (b.map fun x => Number.natText x.toNat)
  | .list items => String.intercalate "," (itemTexts items)
  | .obj _ => "[object Object]"
  | .map _ => "[object Map]"
  | .determined _ => ""

/-- The texts of items inside a list that is read as a number. -/
def itemTexts : List Value → List String
  | [] => []
  | v :: rest => itemText v :: itemTexts rest

end

/-- The number that an entry's object counts as. No value counts as zero, and what spells no number
is none. -/
def count : Value → Float
  | .null => 0.0
  | .absent => 0.0 / 0.0
  | .bool b => if b then 1.0 else 0.0
  | .num x => x
  | .str s => Number.ofLiteral s
  | v => Number.ofLiteral v.itemText

end QueueScript.Value
