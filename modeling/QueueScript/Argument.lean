import QueueScript.Duration
import QueueScript.Failure
import QueueScript.Template
import QueueScript.Value.View

/-!
# Arguments

An argument is compiled once, when its command is built, and resolved every time the command runs.
The compiled form keeps templates for the key and the value; the resolved form holds a value and the
text of it, and is what commands read.
-/

namespace QueueScript

/-- A resolved argument. -/
structure Argument where
  /-- The key before the colon. -/
  key : Option String
  /-- The value. -/
  object : Value
  /-- The text of the value. -/
  raw : String
  /-- Whether the key came out of a tag. -/
  keyWasDynamic : Bool

namespace Argument

/-- The argument with a key and a value. -/
def of (key : Option String) (object : Value) (dynamic : Bool) : Argument :=
  ⟨key, object, object.text, dynamic⟩

/-- The argument that a text spells, its key split off if it has one. -/
def ofText (text : String) (anySymbol dynamic : Bool) : Argument :=
  match splitKey? anySymbol text with
  | some (key, value) => .of (some key) (.str value) dynamic
  | none => .of none (.str text) false

/-- The argument as it is shown. -/
def text (a : Argument) : String :=
  match a.key with
  | some key => key ++ ":" ++ a.raw
  | none => a.raw

/-- Whether the key is one of the names, case aside. -/
def hasKey (a : Argument) (names : List String) : Bool :=
  match a.key with
  | some key => names.any (Text.sameFolded · key)
  | none => false

/-- Whether the value is one of the words, case aside. -/
def isWord (a : Argument) (words : List String) : Bool :=
  words.any (Text.sameFolded · a.raw)

/-- Whether the value is a whole number. -/
def isWhole (a : Argument) : Bool :=
  match a.object with
  | .num x => Number.isWhole x
  | _ => Number.isWholeText a.raw

/-- Whether the value is a number. -/
def isNumber (a : Argument) : Bool :=
  a.object.asNumber.isSome

/-- Whether the value is true or false. -/
def isBoolean (a : Argument) : Bool :=
  a.object.asBoolean.isSome

/-- Whether the value is a duration. -/
def isDuration (a : Argument) : Bool :=
  (Duration.ofText? a.raw).isSome

/-- The value as a whole number: the one that its text starts with. -/
def asWhole (a : Argument) : Except ArgumentFault Float :=
  if a.isWhole then .ok (Number.leadingWhole a.raw) else .error (.notWhole a.text)

/-- The value as a number. -/
def asNumber (a : Argument) : Except ArgumentFault Float :=
  match a.object.asNumber with
  | some x => .ok x
  | none => .error (.notNumber a.text)

/-- The value as true or false. -/
def asBoolean (a : Argument) : Except ArgumentFault Bool :=
  match a.object.asBoolean with
  | some b => .ok b
  | none => .error (.notBoolean a.text)

/-- The value as a duration in milliseconds. -/
def asDuration (a : Argument) : Except ArgumentFault Float :=
  match Duration.ofText? a.raw with
  | some millis => .ok millis
  | none => .error (.notDuration a.text)

/-- The argument, if it has no key or the given one. -/
def onlyKey (a : Argument) (name : String) : Except ArgumentFault Argument :=
  if a.key.isSome && !a.hasKey [name] then .error (.unknown a.text) else .ok a

end Argument

/-! ## Compiled arguments -/

/-- A compiled argument. -/
structure CompiledArgument where
  /-- The word as written. -/
  raw : String
  /-- The key before the colon. -/
  key : Option Template
  /-- The value. -/
  value : Template
  /-- Whether the word has a colon that is not its first character. -/
  hadColon : Bool

namespace CompiledArgument

/-- Whether the argument has a tag and must be resolved in every run. -/
def isDynamic (a : CompiledArgument) : Bool :=
  a.value.hasTag || (a.key.any (·.hasTag))

/-- The argument itself, if it has no tag. -/
def literal? (a : CompiledArgument) : Option Argument :=
  if a.isDynamic then none else some (.of (a.key.map (·.source)) (.str a.value.source) false)

/-- The key, if it has no tag. -/
def literalKey? (a : CompiledArgument) : Option String :=
  a.key.bind (·.literal?)

/-- The compiled form of a word. -/
def ofWord (anySymbol : Bool) (w : String) : CompiledArgument :=
  match splitKey? anySymbol w with
  | some (key, value) => ⟨w, some (.parse key), .parse value, true⟩
  | none => ⟨w, none, .parse w, hasInnerColon w⟩

end CompiledArgument

/-! ## Structured arguments -/

/-- A list argument: the items of a list, nothing for no value, and the pieces of a text between
bars for all else. -/
def Value.asList : Value → List Value
  | .list items => items.map Value.filled
  | .null => []
  | v => (splitList v.text).map .str

/-- The field name that assignments to an object pass over. -/
def reservedField : String := "__proto__"

/-- Texts under keys, as fields of an object. -/
def textFields (pairs : List (String × String)) : List (String × String) :=
  Value.fieldsOf (pairs.filter (·.1 != reservedField))

/-- The pairs of an object as texts. -/
def pairTexts (pairs : List (String × Value)) : List (String × String) :=
  pairs.map fun (k, v) => (k, v.text)

/-- One entry of a map written `key=value`. -/
def mapEntry (entry : String) : Except Failure (String × String) :=
  let cs := entry.toList
  match cs.takeWhile (· != '='), cs.dropWhile (· != '=') with
  | key, _ :: value =>
    if key.isEmpty then .error (.mapEntry entry)
    else .ok (String.ofList key, String.ofList value)
  | _, [] => .error (.mapEntry entry)

/-- A map argument: the fields of an object or the pairs of a map, an object literal, or entries
written `key=value` between bars. -/
def Value.asMap : Value → Except Failure (List (String × String))
  | .null => .ok []
  | .map pairs => .ok (textFields (pairTexts pairs))
  | .obj fields => .ok (textFields (pairTexts fields))
  | v => do
    let text := Text.trim v.text
    if text.startsWith "\x7b" then
      match Json5.parse text with
      | .ok (.obj fields) => .ok (textFields (pairTexts fields))
      | .ok _ => .error (.host ("Expected an object literal, got: " ++ text))
      | .error f => .error (.literal f)
    else
      let entries ← (splitList text).mapM mapEntry
      .ok (textFields entries)

/-- The bytes of a value: binary data as it is, a text as UTF-8, all else as JSON. -/
def Value.toBytes : Value → Bytes
  | .bytes b => b
  | .str s => Text.encodeUtf8 s
  | v => Text.encodeUtf8 v.json

end QueueScript
