import QueueScript.Engine.Commands.Basic

/-!
# Files

The commands that read, write and copy files below the data folder. A command that is waited for
does its work in the background; otherwise the work is done before the next entry runs.
-/

namespace QueueScript.Commands.Files

/-! ## Shared steps -/

/-- Fails unless the configuration allows something. -/
def requireAllowed (allowed : Config → Bool) (action setting : String) : Action Unit := do
  if !(← Action.look fun e => allowed e.config) then
    Action.breakOff (.disabled action setting)

/-- The path that a script names, which must lie where file commands may go. -/
def requirePath (target : String) : Action Path := do
  match ← Action.look (·.config.scriptPath? target) with
  | some path => pure path
  | none => Action.breakOff (.outside target)

/-- A text that was parsed; empty if there is none. -/
def parsedText (n : EntryRef) (key : String) : Action String := do
  pure ((← Entries.element? n key).getD "")

/-- Does a job at once and gives its outcome. -/
def performNow (job : Job) : Action Outcome := fun e =>
  let (e, outcome) := Background.perform e job
  (.ok outcome, e)

/-- Does a job at once; a fault of the file is a failure of the command. The entry is done in any
case. -/
def finishNow (n : EntryRef) (job : Job) (wrap : FileFault → RuntimeFault) : Action Unit := do
  let outcome ← performNow job
  Entries.finish n
  match outcome with
  | .failure (.file f) => Action.breakOff (wrap f)
  | _ => Background.apply n outcome

/-! ## Reading -/

namespace Read

/-- Stores the path. -/
def parse (calls : Calls) (n : EntryRef) : Action Unit := do
  takeNone n
  Entries.store n "path" (.str (← Entries.requiredText calls n "path"))

/-- Reads the file. -/
def execute (n : EntryRef) : Action Unit := do
  requireAllowed (·.allowFileRead) "Reading files is" "allowFileRead"
  let target ← parsedText n "path"
  let path ← requirePath target
  report n [("path", path.text)]
  if (← Action.entry n).isAwaited then Background.launch n (.read path)
  else finishNow n (.read path) (.cannotRead target)

end Read

/-! ## Writing -/

namespace Write

/-- Stores the path and the content. -/
def parse (calls : Calls) (n : EntryRef) : Action Unit := do
  takeNone n
  Entries.store n "path" (.str (← Entries.requiredText calls n "path"))
  match ← Entries.argument? calls n "data" with
  | none => Action.refuse (.missingKey "data")
  | some a => Entries.store n "data" (.bytes (← Action.reveal a.object).toBytes)

/-- Writes the file. -/
def execute (n : EntryRef) : Action Unit := do
  requireAllowed (·.allowFileWrite) "Writing files is" "allowFileWrite"
  let target ← parsedText n "path"
  let path ← requirePath target
  let stored := (← Entries.object? n "data").getD (.str "")
  let content := (← Action.reveal stored).toBytes
  report n [("path", path.text), ("bytes", Number.natText content.length)]
  if (← Action.entry n).isAwaited then Background.launch n (.write path content)
  else finishNow n (.write path content) (.cannotWrite target)

end Write

/-! ## Copying -/

namespace Copy

/-- Stores both paths and whether a file may be replaced. -/
def parse (calls : Calls) (n : EntryRef) : Action Unit := do
  takeNone n
  Entries.store n "origin" (.str (← Entries.requiredText calls n "origin"))
  Entries.store n "destination" (.str (← Entries.requiredText calls n "destination"))
  Entries.store n "overwrite" (.bool (← Entries.flag calls n "overwrite"))

/-- Why a copy is refused. -/
inductive Refusal where
  /-- There is nothing to copy. -/
  | missing (origin : String)
  /-- Something would be replaced. -/
  | exists (destination : String)
  deriving DecidableEq, Repr

/-- The wording of a refusal. -/
def Refusal.message : Refusal → String
  | .missing origin => "Cannot copy '" ++ origin ++ "': file does not exist."
  | .exists destination =>
    "Cannot copy to '" ++ destination ++ "': file exists and overwrite was not given."

/-- Why a copy is refused, if it is. -/
def refusal? (files : FileSystem) (origin destination : String × Path) (overwrite : Bool) :
    Option Refusal :=
  if !files.has origin.2 then some (.missing origin.1)
  else if !overwrite && files.has destination.2 then some (.exists destination.1)
  else none

/-- Copies the file. A copy that is refused or fails is reported, and the command still
completes. -/
def execute (n : EntryRef) : Action Unit := do
  requireAllowed (·.allowFileCopy) "Copying files is" "allowFileCopy"
  let originText ← parsedText n "origin"
  let origin ← requirePath originText
  let destinationText ← parsedText n "destination"
  let destination ← requirePath destinationText
  let overwrite ← Entries.isTrue n "overwrite"
  report n [("origin", origin.text), ("destination", destination.text),
    ("overwrite", truthText overwrite)]
  match ← Action.look fun e =>
      refusal? e.files (originText, origin) (destinationText, destination) overwrite with
  | some refusal =>
    Action.error refusal.message (← Entries.scope n) none
    Entries.store n "success" (.bool false)
    Entries.finish n
  | none =>
    if (← Action.entry n).isAwaited then Background.launch n (.copy origin destination)
    else
      Background.apply n (← performNow (.copy origin destination))
      Entries.finish n

end Copy

end QueueScript.Commands.Files
