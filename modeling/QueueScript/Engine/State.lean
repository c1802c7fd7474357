import QueueScript.Command.Builtin
import QueueScript.Command.Compiled
import QueueScript.Source.Script

/-!
# The state of an engine

Everything an engine holds: queues and their entries, scripts, the registry of live queues, work
under way, files and diagnostics. Queues and entries are kept in tables and referred to by their
number, since they refer to each other; definitions, saved entries and determinations have tables of
their own because a queue that replaces another one shares them with it.
-/

namespace QueueScript

/-- The number of a queue in its engine. -/
abbrev QueueRef := Nat

/-- The number of an entry in its engine. -/
abbrev EntryRef := Nat

/-- The number of a memory in its engine. -/
abbrev MemoryRef := Nat

/-- The number of a list of determinations in its engine. -/
abbrev ListRef := Nat

/-! ## Entries -/

/-- How far a loop has come. -/
structure LoopState where
  /-- The current index. -/
  index : Float
  /-- The last index. -/
  target : Float
  /-- The definition that holds the index. -/
  name : String
  /-- What the definition held before the loop. -/
  before : Option Value

/-- A command as it sits in a queue. -/
structure Entry where
  /-- What was compiled. -/
  code : Compiled
  /-- Its blocks. Their entries stay aside, and whatever runs of a block are clones of them. -/
  blocks : List (Branch EntryRef) := []
  /-- The queue it was put on. -/
  residing : Option QueueRef := none
  /-- The queue that its tags read. -/
  context : Option QueueRef := none
  /-- The entry that put it on its queue. -/
  owner : Option EntryRef := none
  /-- The state of the loop that it runs. -/
  loop : Option LoopState := none
  /-- Whether it runs at once, whatever was compiled. -/
  forcedInstant : Bool := false
  /-- What was parsed, and the results. -/
  objects : Keyed Value := []
  /-- Whether it is done. -/
  isFinished : Bool := false
  /-- The arguments as they were last resolved. -/
  arguments : List Argument := []

namespace Entry

/-- Whether it runs without ending a timed queue's turn. -/
def isInstant (e : Entry) : Bool :=
  e.code.instant || e.forcedInstant

/-- Whether its queue waits for it. -/
def isAwaited (e : Entry) : Bool :=
  e.code.waits && !e.isFinished

/-- Whether it marks the end of an iteration. -/
def isLoopMark (e : Entry) : Bool :=
  e.code.keyword == "repeat" && e.code.words == [Builtin.loopMark]

/-- A stored object, case of the key aside. An empty place counts as none. -/
def object? (e : Entry) (key : String) : Option Value :=
  match e.objects.get? (Text.lower key) with
  | some .absent => none
  | v => v

/-- Whether something is stored under a key, case aside. -/
def hasObject (e : Entry) (key : String) : Bool :=
  e.objects.has (Text.lower key)

end Entry

/-! ## Queues -/

/-- Where a queue stands in its life. -/
inductive QueueState where
  | idle
  | running
  | paused
  | stopped
  | finished
  deriving DecidableEq, Repr

/-- The name of a state. -/
def QueueState.name : QueueState → String
  | .idle => "idle"
  | .running => "running"
  | .paused => "paused"
  | .stopped => "stopped"
  | .finished => "finished"

/-- Whether a state is an end. -/
def QueueState.isEnd : QueueState → Bool
  | .stopped | .finished => true
  | .idle | .running | .paused => false

/-- What holds a timed queue back. -/
inductive Delay where
  /-- Until the heartbeat time reaches a point. -/
  | heartbeat (release : Float)
  /-- Until the clock reaches a point. -/
  | clock (release : Float)

/-- What is told when a queue ends. -/
inductive Listener where
  /-- The entry that waited for the queue is done. -/
  | finish (entry : EntryRef)
  /-- The host is told under a label, and may answer with an error. -/
  | notify (label : String) (error : Option String)
  deriving DecidableEq, Repr

/-- What the entries of a queue share by name. -/
structure Memory where
  /-- The definitions. -/
  definitions : Keyed Value := []
  /-- The entries that were saved. -/
  held : Keyed EntryRef := []

/-- A list of pending entries and what they share. -/
structure Queue where
  /-- The id, unique among live queues that were not given one by hand. -/
  id : String
  /-- The name that the id was made from. -/
  name : String
  /-- How it paces its entries. -/
  pace : Pace
  /-- Where it stands in its life. -/
  state : QueueState := .idle
  /-- Whether it runs a procedure. -/
  isProcedural : Bool := false
  /-- The script it runs. -/
  script : Option ScriptRef := none
  /-- Where its definitions and saved entries are. -/
  memory : MemoryRef
  /-- Where its determinations are, once there are any. -/
  determinations : Option ListRef := none
  /-- The entries still to run. -/
  pending : List EntryRef := []
  /-- The entry that ran last. -/
  last : Option EntryRef := none
  /-- Who is told when it ends. -/
  listeners : List Listener := []
  /-- The queue that carries on its entries. -/
  replacedBy : Option QueueRef := none
  /-- The pause after each entry that is not instant, for a timed queue. -/
  speed : Float := 0.0
  /-- What holds it back, for a timed queue. -/
  delay : Option Delay := none

/-- A queue as it is shown. -/
def Queue.render (q : Queue) : String :=
  q.pace.name ++ " queue '" ++ q.id ++ "'"

/-! ## Scripts -/

/-- What a script is for. -/
inductive ScriptKind where
  /-- Runs on a queue. -/
  | task
  /-- Gives a value. -/
  | procedure
  deriving DecidableEq, Repr

/-- The name of a kind of script. -/
def ScriptKind.name : ScriptKind → String
  | .task => "task"
  | .procedure => "procedure"

/-- A named script. -/
structure ScriptRecord where
  /-- Its name. -/
  name : String
  /-- Its text. -/
  source : String
  /-- What it is for. -/
  kind : ScriptKind := .task
  /-- The names bound to the values that a run passes in. -/
  parameters : List String := []
  /-- Whether its commands are traced. -/
  traced : Bool := true
  /-- Its entries, once it has been compiled. They stay aside, and what runs are clones of them. -/
  base : Option (List EntryRef) := none

/-! ## Background work -/

/-- A web request. -/
structure WebRequest where
  /-- The address. -/
  url : String
  /-- The method. -/
  method : String
  /-- The headers. -/
  headers : List (String × String)
  /-- The body: text or binary data. -/
  body : Option Value
  /-- How long to wait for a response. -/
  timeout : Float
  /-- Where the body of the response is written. -/
  saveTo : Option Path
  /-- Whether failures are passed over in silence. -/
  isSilent : Bool

/-- What came of a web request. -/
structure WebResponse where
  /-- The status, if there was a response. -/
  status : Option Float := none
  /-- Whether it failed. -/
  failed : Bool := true
  /-- The body. -/
  body : Bytes := []
  /-- The headers. -/
  headers : List (String × String) := []
  /-- How long it took. -/
  timeRan : Float := 0.0
  /-- What went wrong. -/
  error : Option String := none

/-- What a web server is going to do. -/
structure WebPlan where
  /-- The status. -/
  status : Float := 200.0
  /-- The text of the status. -/
  statusText : String := ""
  /-- The headers. -/
  headers : List (String × String) := []
  /-- The body. -/
  body : Bytes := []
  /-- How long it takes. -/
  millis : Float := 0.0
  /-- Why there is no response. -/
  error : Option String := none
  /-- Why the body cannot be read. -/
  bodyError : Option String := none

/-- Work that goes on while queues run. -/
inductive Job where
  /-- Reads a file. -/
  | read (path : Path)
  /-- Writes a file. -/
  | write (path : Path) (content : Bytes)
  /-- Copies a file. -/
  | copy (origin destination : Path)
  /-- Sends a web request. -/
  | request (r : WebRequest)
  /-- Gives a value. -/
  | give (v : Value)
  /-- Fails. -/
  | fail (message : String)
  /-- Gives something that cannot be applied. -/
  | giveUnusable (message : String)

/-- What came of work. -/
inductive Outcome where
  /-- Content of a file. -/
  | content (b : Bytes)
  /-- Done. -/
  | done
  /-- A response. -/
  | response (r : WebResponse) (url : String) (isSilent : Bool)
  /-- A value. -/
  | value (v : Value)
  /-- Something that cannot be applied. -/
  | unusable (message : String)
  /-- A failure. -/
  | failure (f : Failure)

/-- Work and the entry it is done for. -/
structure Work where
  /-- The entry. -/
  entry : EntryRef
  /-- What is done. -/
  job : Job

/-- What is to happen at the next heartbeat. -/
inductive Handoff where
  /-- The outcome of work is applied to its entry. -/
  | settle (entry : EntryRef) (outcome : Outcome)
  /-- A task of the host: it is told under a label and a number, and may answer with an error or ask
  for another task. -/
  | task (label : String) (count : Nat) (error : Option String) (again : Bool)

/-! ## Tags of the host -/

/-- A tag base of the host. -/
inductive HostBase where
  /-- Gives a value and passes over a number of segments. -/
  | give (v : Value) (passes : Nat)
  /-- Fails with an error. -/
  | fail (message : String)
  /-- Gives up with a bare text. -/
  | failBare (text : String)
  /-- Gives what it sees of the tag. -/
  | look

/-- What the first segment of a tag stands for. -/
inductive TagBase where
  /-- A definition. -/
  | definition
  /-- A result of a saved entry. -/
  | entry
  /-- The queue. -/
  | queue
  /-- The parameter itself. -/
  | element
  /-- The parameter as a list. -/
  | list
  /-- The value of a procedure. -/
  | proc
  /-- A fixed text. -/
  | escape (text : String)
  /-- What the host says. -/
  | host (base : HostBase)

/-- What a later segment of a tag stands for. -/
inductive Attribute where
  | size
  | upper
  | lower
  | add
  | sub
  | mul
  | equals
  | not
  | split
  | get
  | utf8Encode
  | utf8Decode
  | toJson
  | fromJson
  /-- Describes the value, for the host. -/
  | host
  deriving DecidableEq, Repr

/-! ## The engine -/

/-- A beat that comes on its own. -/
structure Timer where
  /-- What each beat adds to the heartbeat time, in milliseconds. -/
  millis : Float
  /-- The time between beats. -/
  interval : Float
  /-- When the next beat is due. -/
  due : Float

/-- A call of a listener or a task of the host. -/
structure Firing where
  /-- The label. -/
  label : String
  /-- The number of the queue, or the count of the task. -/
  count : Nat
  /-- The state of the queue, or the word for a task. -/
  state : String
  deriving DecidableEq, Repr

/-- A step of the history of executions. -/
inductive Step where
  /-- A queue begins an entry; the queue and the entry that it ran last as they were just before. -/
  | began (queue : QueueRef) (entry : EntryRef) (before : Queue) (previous : Option Entry)
  /-- A queue is back from an entry, which ran or failed. -/
  | returned (queue : QueueRef) (entry : EntryRef) (ran : Bool)

/-- An engine. Lists of things that happened have the latest first. -/
structure Engine where
  /-- The settings. -/
  config : Config
  /-- Whether traces are shown. -/
  tracing : Bool
  /-- The commands. -/
  catalogue : Catalogue := []
  /-- The descriptions of commands. -/
  commandInfos : Keyed CommandInfo := []
  /-- The descriptions of modules. -/
  moduleInfos : Keyed ModuleInfo := []
  /-- The tag bases. -/
  bases : Keyed TagBase := []
  /-- The tag attributes. -/
  attributes : Keyed Attribute := []
  /-- All scripts. -/
  scripts : Array ScriptRecord := #[]
  /-- The scripts by name. -/
  scriptNames : Keyed Nat := []
  /-- All queues. -/
  queues : Array Queue := #[]
  /-- All entries. -/
  entries : Array Entry := #[]
  /-- All memories. -/
  memories : Array Memory := #[]
  /-- All lists of determinations. -/
  lists : Array (List Value) := #[]
  /-- The live queues by id, in the order they started. -/
  registry : Keyed QueueRef := []
  /-- The registry as it was before each of its changes. -/
  registries : List (Keyed QueueRef) := []
  /-- How many ids were made from each name. -/
  counters : Keyed Nat := []
  /-- What is to happen at the next heartbeat. -/
  handoffs : List Handoff := []
  /-- Work under way. -/
  inFlight : List Work := []
  /-- The heartbeat time in milliseconds. -/
  heartbeatTime : Float := 0.0
  /-- The number of heartbeats. -/
  beats : Nat := 0
  /-- The beat that comes on its own. -/
  timer : Option Timer := none
  /-- The clock in milliseconds. -/
  clock : Float := 0.0
  /-- The files. -/
  files : FileSystem := .empty
  /-- What the web is going to answer. -/
  webPlans : List WebPlan := []
  /-- The requests that were sent. -/
  webCalls : List WebRequest := []
  /-- The diagnostics that were shown. -/
  events : List Event := []
  /-- The calls of the host. -/
  fired : List Firing := []
  /-- The history of executions. -/
  journal : List Step := []

end QueueScript
