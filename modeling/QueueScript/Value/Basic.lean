import QueueScript.Keyed
import QueueScript.Number
import QueueScript.Text.Utf8

/-!
# Values of scripts

The values that definitions hold, tags produce and commands consume. Besides the usual texts,
numbers and lists there are plain objects, maps given by the host, binary data, a mark for a place
that the host left empty, and the list of determinations of a queue that is still growing.
-/

namespace QueueScript

/-- A value of a script. -/
inductive Value where
  /-- No value. -/
  | null
  /-- A place that the host left empty. It reads as no value, and objects are written without it. -/
  | absent
  /-- A truth value. -/
  | bool (b : Bool)
  /-- A number. -/
  | num (x : Float)
  /-- A text. -/
  | str (s : String)
  /-- Binary data. -/
  | bytes (b : Bytes)
  /-- A list. -/
  | list (items : List Value)
  /-- A plain object, its fields in the order of `orderFields`. -/
  | obj (fields : List (String × Value))
  /-- A map, its pairs in order of insertion. -/
  | map (pairs : List (String × Value))
  /-- The determinations kept under a number, as they are at the time of use. -/
  | determined (list : Nat)
  deriving Inhabited

namespace Value

/-! ## Fields of objects -/

/-- The index that a key spells, if the key is the decimal spelling of a number below `2 ^ 32 - 1`. -/
def indexOfKey (k : String) : Option Nat :=
  match k.toList with
  | [] => none
  | cs =>
    if cs.all Number.isDigit ∧ (cs = ['0'] ∨ cs.head? ≠ some '0') then
      let n := Number.digitsValue cs
      if n < 4294967295 then some n else none
    else none

/-- Inserts a field among fields whose keys are ascending indices. -/
def insertIndexed {α : Type} (n : Nat) (f : String × α) :
    List (Nat × String × α) → List (Nat × String × α)
  | [] => [(n, f)]
  | g :: rest => if n ≤ g.1 then (n, f) :: g :: rest else g :: insertIndexed n f rest

/-- The order of the fields of an object: keys that are indices first, ascending, then the others as
they came. -/
def orderFields {α : Type} (fields : List (String × α)) : List (String × α) :=
  let indexed := fields.foldr (fun f acc =>
    match indexOfKey f.1 with
    | some n => insertIndexed n f acc
    | none => acc) []
  indexed.map (·.2) ++ fields.filter fun f => (indexOfKey f.1).isNone

/-- The fields of the object that pairs given one after the other make up. -/
def fieldsOf {α : Type} (pairs : List (String × α)) : List (String × α) :=
  orderFields (Keyed.ofPairs pairs)

/-- The object that pairs given one after the other make up. -/
def ofPairs (pairs : List (String × Value)) : Value :=
  .obj (fieldsOf pairs)

/-! ## Kinds -/

/-- The kinds of values that scripts are told about. -/
inductive Kind where
  | null
  | string
  | number
  | boolean
  | binary
  | array
  | object
  deriving DecidableEq, Repr

/-- The name of a kind. -/
def Kind.name : Kind → String
  | .null => "null"
  | .string => "string"
  | .number => "number"
  | .boolean => "boolean"
  | .binary => "binary"
  | .array => "array"
  | .object => "object"

/-- The kind of a value. -/
def kind : Value → Kind
  | .null | .absent => .null
  | .bool _ => .boolean
  | .num _ => .number
  | .str _ => .string
  | .bytes _ => .binary
  | .list _ | .determined _ => .array
  | .obj _ | .map _ => .object

/-- The value that an empty place reads as. -/
def filled : Value → Value
  | .absent => .null
  | v => v

/-- One own property of an object or a map; the other kinds have none. -/
def property? : Value → String → Option Value
  | .map pairs, k => (Keyed.get? pairs k).map filled
  | .obj fields, k => (Keyed.get? fields k).map filled
  | _, _ => none

/-! ## Growing lists -/

mutual

/-- The value with every growing list in it replaced by what `read` gives for it. -/
def reveal (read : Nat → List Value) : Value → Value
  | .list items => .list (revealItems read items)
  | .obj fields => .obj (revealFields read fields)
  | .map pairs => .map (revealFields read pairs)
  | .determined n => .list (read n)
  | v => v

/-- The items with every growing list in them replaced. -/
def revealItems (read : Nat → List Value) : List Value → List Value
  | [] => []
  | v :: rest => reveal read v :: revealItems read rest

/-- The fields with every growing list in them replaced. -/
def revealFields (read : Nat → List Value) : List (String × Value) → List (String × Value)
  | [] => []
  | (k, v) :: rest => (k, reveal read v) :: revealFields read rest

end

end Value

end QueueScript
