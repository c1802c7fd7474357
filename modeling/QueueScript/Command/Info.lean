import QueueScript.Value.Basic

/-!
# Descriptions of commands

What an engine can tell about its commands and modules: a description, the parameters with the form
fields that suit them, and an example.
-/

namespace QueueScript

/-- The kinds of data that a parameter takes. -/
inductive DataType where
  | string
  | number
  | boolean
  | binary
  | duration
  | list
  | map
  | any
  deriving DecidableEq, Repr

/-- The name of a kind of data. -/
def DataType.name : DataType → String
  | .string => "string"
  | .number => "number"
  | .boolean => "boolean"
  | .binary => "binary"
  | .duration => "duration"
  | .list => "list"
  | .map => "map"
  | .any => "any"

/-- The form fields that a parameter may be entered in. -/
inductive FormField where
  | text
  | number
  | textarea
  | select
  | checkbox
  | file
  | json
  | code
  deriving DecidableEq, Repr

/-- The name of a form field. -/
def FormField.name : FormField → String
  | .text => "text"
  | .number => "number"
  | .textarea => "textarea"
  | .select => "select"
  | .checkbox => "checkbox"
  | .file => "file"
  | .json => "json"
  | .code => "code"

/-- The description of a parameter. -/
structure ParameterInfo where
  /-- Its name. -/
  name : String
  /-- The key that it is written with. -/
  key : Option String := none
  /-- The label of its form field. -/
  label : Option String := none
  /-- The data it takes. -/
  dataType : DataType
  /-- What it is for. -/
  description : String
  /-- The form field that suits it. -/
  field : FormField
  /-- Whether it must be given. -/
  required : Bool
  /-- What is used if it is not given. -/
  default : Option Value := none

/-- A field that is there only if it has a value. -/
def optionalField (name : String) (v : Option Value) : List (String × Value) :=
  (v.map (name, ·)).toList

/-- A parameter as an object. -/
def ParameterInfo.value (p : ParameterInfo) : Value :=
  .ofPairs <|
    [("name", .str p.name)] ++ optionalField "prefix" (p.key.map .str) ++
    optionalField "label" (p.label.map .str) ++
    [("dataType", .str p.dataType.name), ("description", .str p.description),
     ("formInputType", .str p.field.name), ("required", .bool p.required)] ++
    optionalField "defaultValue" p.default

/-- The description of a command. -/
structure CommandInfo where
  /-- What it does. -/
  description : String
  /-- Its parameters. -/
  parameters : List ParameterInfo := []
  /-- The results that a saved entry of it has. -/
  saveKeys : Option (List String) := none
  /-- An example of its use. -/
  sample : Option String := none

/-- A command's description as an object. -/
def CommandInfo.value (c : CommandInfo) : Value :=
  .ofPairs <|
    [("description", .str c.description),
     ("parameters", .list (c.parameters.map ParameterInfo.value))] ++
    optionalField "saveKeys" (c.saveKeys.map fun ks => .list (ks.map .str)) ++
    optionalField "example" (c.sample.map .str)

/-- The description of a module. -/
structure ModuleInfo where
  /-- What its commands are about. -/
  description : String
  /-- The names of its commands. -/
  commands : List String

end QueueScript
