import QueueScript.Engine.State

/-!
# Actions of an engine

An action changes an engine and gives a result or fails. A failure keeps what was done before it.
The table operations here are the only ones that other modules use to look at and change queues,
entries, memories and lists.
-/

namespace QueueScript

/-- Something an engine does. -/
def Action (α : Type) : Type :=
  Engine → Except Failure α × Engine

namespace Action

variable {α β : Type}

/-- Gives a result and changes nothing. -/
@[always_inline, inline] def done (a : α) : Action α :=
  fun e => (.ok a, e)

/-- One action after another; a failure of the first is the failure of both. -/
@[always_inline, inline] def andThen (a : Action α) (f : α → Action β) : Action β :=
  fun e =>
    match a e with
    | (.ok x, e) => f x e
    | (.error err, e) => (.error err, e)

/-- Fails and changes nothing. -/
@[always_inline, inline] def fail (f : Failure) : Action α :=
  fun e => (.error f, e)

/-- An action and what is done when it fails. A run that was cut off stays cut off. -/
@[always_inline, inline] def orElse (a : Action α) (handle : Failure → Action α) : Action α :=
  fun e =>
    match a e with
    | (.error .exhausted, e) => (.error .exhausted, e)
    | (.error f, e) => handle f e
    | r => r

/-- An action and what is done after it, whether it fails or not. -/
@[always_inline, inline] def ensuring (a : Action α) (finally' : Action Unit) : Action α :=
  fun e =>
    match a e with
    | (r, e) =>
      match finally' e with
      | (.ok _, e) => (r, e)
      | (.error f, e) => (.error f, e)

instance : Monad Action where
  pure := done
  bind := andThen

/-- What is seen of the engine. -/
@[always_inline, inline] def look (f : Engine → α) : Action α :=
  fun e => (.ok (f e), e)

/-- A change of the engine. -/
@[always_inline, inline] def change (f : Engine → Engine) : Action Unit :=
  fun e => (.ok (), f e)

/-- The result of something that may fail. -/
@[always_inline, inline] def ofExcept {ε : Type} (wrap : ε → Failure) (r : Except ε α) : Action α :=
  match r with
  | .ok a => done a
  | .error err => fail (wrap err)

/-- Fails because the arguments cannot be used. -/
def refuse (f : ArgumentFault) : Action α :=
  fail (.arguments f)

/-- Fails because the script asks for something impossible. -/
def breakOff (f : RuntimeFault) : Action α :=
  fail (.runtime f)

/-- An action for each item, in order. -/
def each (f : α → Action Unit) : List α → Action Unit
  | [] => done ()
  | a :: rest => do
    f a
    each f rest

/-- The results of an action for each item, in order. -/
def collect (f : α → Action β) : List α → Action (List β)
  | [] => done []
  | a :: rest => do
    let b ← f a
    let bs ← collect f rest
    pure (b :: bs)

/-- Whether a test holds of some item; items after the first such one are not looked at. -/
def someHolds (test : α → Action Bool) : List α → Action Bool
  | [] => done false
  | a :: rest => do
    if ← test a then pure true else someHolds test rest

/-- Whether a test holds of every item; items after the first other one are not looked at. -/
def allHold (test : α → Action Bool) : List α → Action Bool
  | [] => done true
  | a :: rest => do
    if ← test a then allHold test rest else pure false

end Action

/-! ## Tables -/

instance : Inhabited Compiled :=
  ⟨{ keyword := "", handler := Handler.stub, intended := none, words := [], counted := [],
     metaArgs := [], args := [], parsed := [], literals := [], positions := [], branches := none,
     hasBlocks := false, instant := false, waits := false, hasTags := false, wrongCount := false,
     line := -1, script := none }⟩

instance : Inhabited Entry := ⟨{ code := default }⟩

instance : Inhabited Queue := ⟨{ id := "", name := "", pace := .instant, memory := 0 }⟩

instance : Inhabited Memory := ⟨{}⟩

instance : Inhabited ScriptRecord := ⟨{ name := "", source := "" }⟩

namespace Engine

/-- A queue by number. -/
def queue (e : Engine) (q : QueueRef) : Queue :=
  e.queues.getD q default

/-- An entry by number. -/
def entry (e : Engine) (n : EntryRef) : Entry :=
  e.entries.getD n default

/-- A memory by number. -/
def memory (e : Engine) (m : MemoryRef) : Memory :=
  e.memories.getD m default

/-- A script by number. -/
def script (e : Engine) (n : Nat) : ScriptRecord :=
  e.scripts.getD n default

/-- The determinations kept under a number, lists inside them read in turn up to a depth. -/
def determined (e : Engine) : Nat → ListRef → List Value
  | 0, _ => []
  | depth + 1, n => (e.lists.getD n []).map (Value.reveal (e.determined depth))

/-- A value as it is now: every growing list in it read. -/
def reveal (e : Engine) (v : Value) : Value :=
  v.reveal (e.determined (e.lists.size + 1))

/-- The queue that carries on a queue's entries, at most a number of replacements on. -/
def followFor (e : Engine) : Nat → QueueRef → QueueRef
  | 0, q => q
  | n + 1, q =>
    match (e.queue q).replacedBy with
    | some next => e.followFor n next
    | none => q

/-- The queue that carries on a queue's entries, at the end of all replacements. -/
def follow (e : Engine) (q : QueueRef) : QueueRef :=
  e.followFor e.queues.size q

/-- The queue that an entry runs on now. -/
def residingQueue (e : Engine) (n : EntryRef) : Option QueueRef :=
  (e.entry n).residing.map e.follow

/-- The definitions of a queue. -/
def definitions (e : Engine) (q : QueueRef) : Keyed Value :=
  (e.memory (e.queue q).memory).definitions

/-- A definition of a queue, case of the name aside. An empty place counts as none. -/
def definition? (e : Engine) (q : QueueRef) (name : String) : Option Value :=
  match (e.definitions q).get? (Text.lower name) with
  | some .absent => none
  | v => v

/-- The entry that was saved under a name, case aside. -/
def held? (e : Engine) (q : QueueRef) (name : String) : Option EntryRef :=
  (e.memory (e.queue q).memory).held.get? (Text.lower name)

/-- The determinations of a queue, if there are any. -/
def determinations? (e : Engine) (q : QueueRef) : Option (List Value) :=
  (e.queue q).determinations.map fun n => e.lists.getD n []

/-- The queue that is registered under an id, case aside. -/
def registered? (e : Engine) (id : String) : Option QueueRef :=
  e.registry.get? (Text.lower id)

/-- The script with a name, case aside. -/
def scriptNamed? (e : Engine) (name : String) : Option Nat :=
  e.scriptNames.get? (Text.lower name)

/-- Where an entry stands, for diagnostics. -/
def scope (e : Engine) (n : EntryRef) : Scope :=
  let entry := e.entry n
  let script := entry.code.script.map fun s => e.script s.number
  { queue := (e.residingQueue n).map fun q => (e.queue q).id
    script := script.map (·.name)
    line := some entry.code.line
    command := some entry.code.render
    source := script.map (·.source)
    traced := (script.map (·.traced)).getD true }

/-- The engine with a queue changed. -/
def changeQueue (e : Engine) (q : QueueRef) (f : Queue → Queue) : Engine :=
  { e with queues := e.queues.modify q f }

/-- The engine with an entry changed. -/
def changeEntry (e : Engine) (n : EntryRef) (f : Entry → Entry) : Engine :=
  { e with entries := e.entries.modify n f }

/-- The engine with a memory changed. -/
def changeMemory (e : Engine) (m : MemoryRef) (f : Memory → Memory) : Engine :=
  { e with memories := e.memories.modify m f }

/-- The engine with another registry. -/
def setRegistry (e : Engine) (registry : Keyed QueueRef) : Engine :=
  { e with registry, registries := e.registry :: e.registries }

/-- The engine with a diagnostic shown, if it is to be shown. -/
def emit (e : Engine) (event : Event) (s : Scope) : Engine :=
  if event.isShown e.tracing s then { e with events := event :: e.events } else e

end Engine

namespace Action

/-- A queue by number. -/
def queue (q : QueueRef) : Action Queue :=
  look (·.queue q)

/-- An entry by number. -/
def entry (n : EntryRef) : Action Entry :=
  look (·.entry n)

/-- Changes a queue. -/
def changeQueue (q : QueueRef) (f : Queue → Queue) : Action Unit :=
  change (·.changeQueue q f)

/-- Changes an entry. -/
def changeEntry (n : EntryRef) (f : Entry → Entry) : Action Unit :=
  change (·.changeEntry n f)

/-- A value as it is now. -/
def reveal (v : Value) : Action Value :=
  look (·.reveal v)

/-- The text of a value as it is now. -/
def textOf (v : Value) : Action String :=
  look fun e => (e.reveal v).text

/-- The description of a value as it is now. -/
def describe (v : Value) : Action String :=
  look fun e => (e.reveal v).describe

/-! ## Diagnostics -/

/-- Shows output of a script. -/
def log (message : String) (s : Scope) : Action Unit :=
  change (·.emit (.log message s) s)

/-- Shows an error. -/
def error (message : String) (s : Scope) (f : Option Failure) : Action Unit :=
  change (·.emit (.error message s f) s)

/-- Shows a trace, if traces are shown. -/
def trace (message : String) (s : Scope) : Action Unit :=
  change (·.emit (.trace message s) s)

/-- Shows that a command is about to run, if traces are shown. -/
def announce (command : String) (s : Scope) : Action Unit :=
  change (·.emit (.executing command s) s)

/-- Shows parsed values, if traces are shown. -/
def report (name : String) (values : List (String × String)) (s : Scope) : Action Unit :=
  change (·.emit (.report name values s) s)

/-- Shows the faults that were noted when commands were compiled. -/
def noteAll (notes : List BuildNote) : Action Unit :=
  change fun e => notes.foldl (fun e n => e.emit n.event n.scope) e

end Action

/-- What a command or a tag may set going: other queues and procedures. They run commands in turn, so
whoever runs a command says how. -/
structure Calls where
  /-- Starts a queue and gives it its first turn. -/
  start : QueueRef → Action Unit
  /-- Runs a procedure with arguments and gives its value. -/
  procedure : String → List Value → Action Value

end QueueScript
