import QueueScript.Engine.Heartbeat

/-!
# The host's side of an engine

What a host does with an engine: it builds one from a configuration, adds commands, tags and
scripts, runs scripts and procedures, and changes queues. Operations that run entries take an amount
of fuel.
-/

namespace QueueScript.Host

/-! ## Building an engine -/

/-- Adds the commands of a module and their descriptions. -/
def addModule (e : Engine) (m : CommandModule) : Engine :=
  { e with
    catalogue := m.handlers.foldl Catalogue.register e.catalogue
    commandInfos := m.infos.foldl (fun infos (name, info) => infos.put (Text.lower name) info)
      e.commandInfos
    moduleInfos := e.moduleInfos.put m.name ⟨m.description, m.commands⟩ }

/-- A new engine with the built-in modules and further ones. -/
def create (config : Config) (modules : List CommandModule) : Engine :=
  (Builtin.modules ++ modules).foldl addModule
    { config, tracing := config.debug, bases := Tags.builtinBases,
      attributes := Tags.builtinAttributes }

/-- Adds a command and, if there is one, its description. -/
def addCommand (e : Engine) (h : Handler) (info : Option CommandInfo) : Engine :=
  { e with
    catalogue := e.catalogue.register h
    commandInfos :=
      match info with
      | some info => e.commandInfos.put h.name info
      | none => e.commandInfos }

/-- Adds a tag base of the host. -/
def addBase (e : Engine) (name : String) (base : HostBase) : Engine :=
  { e with bases := e.bases.put (Text.lower name) (.host base) }

/-- Adds a tag attribute of the host. -/
def addAttribute (e : Engine) (name : String) : Engine :=
  { e with attributes := e.attributes.put (Text.lower name) .host }

/-- The configuration in a file. -/
def loadConfig (files : FileSystem) (path : Path) : Except ConfigFault Config :=
  match files.read path with
  | .ok content => Config.parse (Text.decodeUtf8 content)
  | .error f => .error (.unreadable path.text f.message)

/-! ## What an engine tells -/

/-- The description of a command, case of the name aside. -/
def commandInfo? (e : Engine) (name : String) : Option CommandInfo :=
  e.commandInfos.get? (Text.lower name)

/-- Work under way and handoffs that wait for a beat. -/
def pendingCount (e : Engine) : Nat :=
  e.inFlight.length + e.handoffs.length

/-! ## Running -/

/-- Starts a queue. -/
def start (fuel : Nat) (q : QueueRef) : Action Unit :=
  Drive.start (Drive.calls fuel) fuel q

/-- Runs a queue until it ends or is held. -/
def runToCompletion (fuel : Nat) (q : QueueRef) : Action Unit :=
  Drive.runToCompletion (Drive.calls fuel) fuel q

/-- Runs a named script on a new queue, or only prepares it. -/
def runScript (fuel : Nat) (name : String) (options : Scripts.RunOptions) (starts : Bool) :
    Action QueueRef := do
  let q ← Scripts.prepare name options
  if starts then
    start fuel q
  pure q

/-- Runs a source on a new queue, or only prepares it. -/
def runCommands (fuel : Nat) (source : String) (name : Option String)
    (options : Scripts.RunOptions) (starts : Bool) : Action QueueRef := do
  let q ← Scripts.prepareSource source name options
  if starts then
    start fuel q
  pure q

/-- Runs a procedure and gives its value. -/
def runProcedure (fuel : Nat) (name : String) (args : List Value) : Action Value :=
  Drive.runProcedure (Drive.calls fuel) fuel name args

/-- Runs one entry by itself. -/
def execute (fuel : Nat) (n : EntryRef) : Action Bool :=
  Executor.execute (Drive.calls fuel) n

/-- The value of a text in a context. -/
def resolve (fuel : Nat) (context : Tags.Context) (template : Template) : Action Value :=
  Tags.resolve (Drive.calls fuel) context template

/-! ## Queues -/

/-- Entries of a source that belong to a script, if one is given. -/
def entriesOf (source : String) (script : Option ScriptRef) : Action (List EntryRef) := do
  Entries.createAll (← Scripts.compile source script)

/-- Puts entries of a source at the end of a queue. -/
def appendSource (q : QueueRef) (source : String) (script : Option ScriptRef) : Action Unit := do
  Queues.append q (← entriesOf source script)

/-- Puts entries of a source at the head of a queue. -/
def injectSource (q : QueueRef) (source : String) (script : Option ScriptRef) : Action Unit := do
  Queues.inject q (← entriesOf source script)

/-- How long a queue is to be held back, and by which time. -/
structure DelayOption where
  /-- The delay in milliseconds. -/
  millis : Float
  /-- Whether the clock counts, rather than the heartbeat. -/
  onClock : Bool

/-- Replaces a queue by a timed queue that waits out a delay first. -/
def forceToTimed (fuel : Nat) (q : QueueRef) (delay : Option DelayOption) : Action QueueRef := do
  let delay ← Action.look fun e => delay.map fun d => Queues.delayOf e d.millis d.onClock
  let timed ← Queues.replaceByTimed q delay
  start fuel timed
  pure timed

/-- A new command of flat words, or of words and blocks that are apart. What is wrong with it is
reported. -/
def compileCommand (command : String) (words : List String) (script : Option ScriptRef)
    (number : Int) (blocks : Option (List (Block Line))) : Action Compiled := do
  let catalogue ← Action.look (·.catalogue)
  let (compiled, notes) :=
    match blocks with
    | some blocks => buildLine catalogue script ⟨command, words, blocks, number⟩
    | none => buildFlat catalogue script command words number
  Action.noteAll notes
  pure compiled

end QueueScript.Host
