import QueueScript.Engine.Queues

/-!
# Scripts

Loading source into compiled commands, registering scripts, and preparing a queue that is to run
one. A script is compiled when it is first needed, and the entries made of it are kept: every run
starts from clones of them.
-/

namespace QueueScript.Scripts

/-! ## Loading -/

/-- Where a fault of a source stands, under the name of its script. -/
def noteScope (name : Option String) (note : Source.ScriptNote) : Scope :=
  { script := name, line := some note.line }

/-- The lines of a source. What is wrong with them is reported under the name of its script. -/
def readLines (source : String) (name : Option String) : Action (List Line) := do
  let parsed := Source.parse source
  Action.each (fun note => Action.error note.fault.message (noteScope name note) none) parsed.notes
  pure parsed.lines

/-- The commands of a source. What is wrong with it is reported. -/
def compile (source : String) (script : Option ScriptRef) : Action (List Compiled) := do
  let lines ← readLines source (script.map (·.name))
  let catalogue ← Action.look (·.catalogue)
  let (commands, notes) := buildLines catalogue script lines
  Action.noteAll notes
  pure commands

/-! ## Named scripts -/

/-- Registers a script under its name, case aside, in place of one that had the name. -/
def register (record : ScriptRecord) : Action Nat := fun e =>
  (.ok e.scripts.size,
    { e with
      scripts := e.scripts.push record
      scriptNames := e.scriptNames.put (Text.lower record.name) e.scripts.size })

/-- Says whether the commands of a script are traced. -/
def setTraced (n : Nat) (traced : Bool) : Action Unit :=
  Action.change fun e => { e with scripts := e.scripts.modify n ({ · with traced := traced }) }

/-- A reference to a script by number. -/
def reference (n : Nat) : Action ScriptRef := do
  pure ⟨n, (← Action.look (·.script n)).name⟩

/-- The entries of a script, made if it has not been compiled yet. -/
def baseEntries (n : Nat) : Action (List EntryRef) := do
  let record ← Action.look (·.script n)
  match record.base with
  | some entries => pure entries
  | none => do
    let entries ← Entries.createAll (← compile record.source (some ⟨n, record.name⟩))
    Action.change fun e =>
      { e with scripts := e.scripts.modify n ({ · with base := some entries }) }
    pure entries

/-- The commands of a script, compiled if they have not been yet. -/
def base (n : Nat) : Action (List Compiled) := do
  let entries ← baseEntries n
  Action.look fun e => entries.map fun m => (e.entry m).code

/-! ## Preparing a run -/

/-- How a script or a source is to be run. -/
structure RunOptions where
  /-- The pace of the queue, if it is not to be the default one. -/
  pace : Option Pace := none
  /-- The id of the queue, if it is not to be made from the name. -/
  id : Option String := none
  /-- The pause after each entry, for a timed queue. -/
  speed : Float := 0.0
  /-- Values for the parameters of the script, in order. -/
  args : List Value := []
  /-- Further definitions. -/
  definitions : List (String × Value) := []

/-- Defines the parameters of a script that have a value. -/
def bindParameters (q : QueueRef) (parameters : List String) (args : List Value) : Action Unit :=
  Queues.defineAll q (parameters.zip args)

/-- A new queue for a run. -/
def createQueue (options : RunOptions) (name : String) (script : Option ScriptRef) :
    Action QueueRef := do
  let pace ← Action.look fun e => options.pace.getD e.config.defaultQueueType
  Queues.create pace name { id := options.id, speed := options.speed, script }

/-- Puts clones of the entries of a script on a queue, its parameters defined. -/
def load (q : QueueRef) (n : Nat) (args : List Value) (definitions : List (String × Value)) :
    Action Unit := do
  let record ← Action.look (·.script n)
  bindParameters q record.parameters args
  Queues.defineAll q definitions
  Queues.append q (← Entries.cloneAll (← baseEntries n))

/-- A queue that is ready to run a named script. It is still to be started. -/
def prepare (name : String) (options : RunOptions) : Action QueueRef := do
  match ← Action.look (·.scriptNamed? name) with
  | none => Action.breakOff (.noScript name)
  | some n =>
    let script ← reference n
    let q ← createQueue options script.name (some script)
    load q n options.args options.definitions
    pure q

/-- The name of queues that run a source without a name. -/
def defaultName : String := "commands"

/-- A queue that is ready to run a source. It is still to be started. -/
def prepareSource (source : String) (name : Option String) (options : RunOptions) :
    Action QueueRef := do
  let q ← createQueue options (name.getD defaultName) none
  Queues.defineAll q options.definitions
  Queues.append q (← Entries.createAll (← compile source none))
  pure q

end QueueScript.Scripts
