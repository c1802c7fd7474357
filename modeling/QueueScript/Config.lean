import QueueScript.Json5.Reader
import QueueScript.Path
import QueueScript.Text.Case

/-!
# Engine configuration

The settings of an engine, their defaults, and the validation of a configuration object over the
defaults. The first setting that is unknown or of the wrong kind is refused by name.

Beside the settings stands the folder that the process works in. No configuration object names it: a
host that does not work at the root puts it into the configuration it has read.
-/

namespace QueueScript

/-- How a queue paces its entries. -/
inductive Pace where
  /-- Entries run back to back. -/
  | instant
  /-- Entries run one a heartbeat. -/
  | timed
  deriving DecidableEq, Repr

/-- The name of a pace. -/
def Pace.name : Pace → String
  | .instant => "instant"
  | .timed => "timed"

/-- The pace with a name. -/
def Pace.ofName? (s : String) : Option Pace :=
  if s = "instant" then some .instant
  else if s = "timed" then some .timed
  else none

/-- The settings of an engine. -/
structure Config where
  /-- Whether every command is traced. -/
  debug : Bool := false
  /-- Whether web requests are allowed. -/
  allowWebget : Bool := true
  /-- Whether files may be read. -/
  allowFileRead : Bool := false
  /-- Whether files may be written. -/
  allowFileWrite : Bool := false
  /-- Whether files may be copied. -/
  allowFileCopy : Bool := false
  /-- The folder that the process works in, an absolute path in normal form. -/
  workingFolder : { folder : Path // folder.Normal } := ⟨[], Path.normal_nil⟩
  /-- The folder that paths of file commands are relative to, read against the working folder. -/
  dataFolder : String := "."
  /-- The folder, relative to the data folder, that file commands may not leave; `none` lifts the
  limit. -/
  filePathLimit : String := "."
  /-- The time between heartbeats. -/
  heartbeatMillis : Float := 50.0
  /-- The pace of queues that ask for none. -/
  defaultQueueType : Pace := .instant

/-- What is wrong with a configuration. -/
inductive ConfigFault where
  /-- It is no object. -/
  | notObject
  /-- A setting must be true or false. -/
  | notBoolean (key : String)
  /-- A setting must be a text that is not empty. -/
  | notText (key : String)
  /-- A setting must be a positive number. -/
  | notPositive (key : String)
  /-- A setting must name a pace. -/
  | notPace (key : String)
  /-- There is no such setting. -/
  | unknownKey (key : String)
  /-- The text cannot be read. -/
  | malformed (fault : Json5.Fault)
  /-- The file cannot be read. -/
  | unreadable (file : String) (reason : String)
  deriving DecidableEq, Repr

/-- The setting that a fault names. -/
def ConfigFault.key? : ConfigFault → Option String
  | .notBoolean k | .notText k | .notPositive k | .notPace k | .unknownKey k => some k
  | .notObject | .malformed _ | .unreadable _ _ => none

/-- The wording of a fault. -/
def ConfigFault.message : ConfigFault → String
  | .notObject => "Config must be an object"
  | .notBoolean k => "Config '" ++ k ++ "' must be true or false"
  | .notText k => "Config '" ++ k ++ "' must be a non-empty string"
  | .notPositive k => "Config '" ++ k ++ "' must be a positive number"
  | .notPace k => "Config '" ++ k ++ "' must be 'instant' or 'timed'"
  | .unknownKey k => "Unknown config key '" ++ k ++ "'"
  | .malformed f => "Config is not valid JSON5: " ++ f.message
  | .unreadable file reason => "Cannot read config file '" ++ file ++ "': " ++ reason

namespace Config

/-- A setting that is true or false. -/
def expectBool (key : String) : Value → Except ConfigFault Bool
  | .bool b => .ok b
  | _ => .error (.notBoolean key)

/-- A setting that is a text. -/
def expectText (key : String) : Value → Except ConfigFault String
  | .str s => if s.isEmpty then .error (.notText key) else .ok s
  | _ => .error (.notText key)

/-- A setting that is a positive number. -/
def expectPositive (key : String) : Value → Except ConfigFault Float
  | .num x => if Number.isFinite x && decide (0.0 < x) then .ok x else .error (.notPositive key)
  | _ => .error (.notPositive key)

/-- A setting that names a pace. -/
def expectPace (key : String) : Value → Except ConfigFault Pace
  | .str s =>
    match Pace.ofName? s with
    | some p => .ok p
    | none => .error (.notPace key)
  | _ => .error (.notPace key)

/-- The configuration with one setting changed. An empty place changes nothing. -/
def set (c : Config) (key : String) (v : Value) : Except ConfigFault Config :=
  match v with
  | .absent => .ok c
  | _ =>
    match key with
    | "debug" => do return { c with debug := ← expectBool key v }
    | "allowWebget" => do return { c with allowWebget := ← expectBool key v }
    | "allowFileRead" => do return { c with allowFileRead := ← expectBool key v }
    | "allowFileWrite" => do return { c with allowFileWrite := ← expectBool key v }
    | "allowFileCopy" => do return { c with allowFileCopy := ← expectBool key v }
    | "dataFolder" => do return { c with dataFolder := ← expectText key v }
    | "filePathLimit" => do return { c with filePathLimit := ← expectText key v }
    | "heartbeatMillis" => do return { c with heartbeatMillis := ← expectPositive key v }
    | "defaultQueueType" => do return { c with defaultQueueType := ← expectPace key v }
    | _ => .error (.unknownKey key)

/-- The configuration with settings changed one after the other. -/
def setAll (c : Config) : List (String × Value) → Except ConfigFault Config
  | [] => .ok c
  | (key, v) :: rest => do (← c.set key v).setAll rest

/-- The fields of binary data seen as an object: its bytes by position. -/
def byteFields (start : Nat) : Bytes → List (String × Value)
  | [] => []
  | b :: rest => (Number.natText start, .num (Float.ofNat b.toNat)) :: byteFields (start + 1) rest

/-- The configuration that an object gives over the defaults. No object at all gives the defaults. -/
def resolve : Value → Except ConfigFault Config
  | .null | .absent => .ok {}
  | .obj fields => setAll {} fields
  | .bytes b => setAll {} (byteFields 0 b)
  | .map _ => .ok {}
  | _ => .error .notObject

/-- The configuration that a JSON5 text gives over the defaults. -/
def parse (s : String) : Except ConfigFault Config :=
  match Json5.parse s with
  | .ok v => resolve v
  | .error f => .error (.malformed f)

/-- The settings in their fixed order. -/
def fields (c : Config) : List (String × Value) :=
  [("debug", .bool c.debug), ("allowWebget", .bool c.allowWebget),
   ("allowFileRead", .bool c.allowFileRead), ("allowFileWrite", .bool c.allowFileWrite),
   ("allowFileCopy", .bool c.allowFileCopy), ("dataFolder", .str c.dataFolder),
   ("filePathLimit", .str c.filePathLimit), ("heartbeatMillis", .num c.heartbeatMillis),
   ("defaultQueueType", .str c.defaultQueueType.name)]

/-! ## Where file commands may go -/

/-- The data folder. -/
def dataPath (c : Config) : Path :=
  Path.resolve c.workingFolder c.dataFolder

/-- The folder that file commands may not leave, if there is one. -/
def limitPath? (c : Config) : Option Path :=
  if Text.lower c.filePathLimit = "none" then none
  else some (Path.resolve c.dataPath c.filePathLimit)

/-- The path that a script names, or nothing if it lies outside the folder that file commands may
use. -/
def scriptPath? (c : Config) (target : String) : Option Path :=
  let full := Path.resolve c.dataPath target
  match c.limitPath? with
  | some limit => if Path.leaves limit full then none else some full
  | none => some full

end Config

end QueueScript
