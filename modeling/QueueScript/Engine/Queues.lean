import QueueScript.Engine.Entries

/-!
# Queues

Making queues and their ids, what their entries share, their pending entries, and the ends of their
lives. Running entries is not here: starting a queue only registers it.
-/

namespace QueueScript.Queues

open QueueScript.Action (queue changeQueue)

/-! ## Ids -/

/-- A character that ids keep. -/
def isIdChar (c : Char) : Bool :=
  (decide ('a' ≤ c) && decide (c ≤ 'z')) || Number.isDigit c || c == '_'

/-- The characters with every run of others replaced by one underscore. `inRun` says whether the
characters before were such a run. -/
def idCharsFrom (inRun : Bool) : List Char → List Char
  | [] => []
  | c :: rest =>
    if isIdChar c then c :: idCharsFrom false rest
    else if inRun then idCharsFrom true rest
    else '_' :: idCharsFrom true rest

/-- What ids made from a name start with. -/
def idBase (name : String) : String :=
  let base := String.ofList (idCharsFrom false (Text.lower name).toList)
  if base.isEmpty then "queue" else base

/-- The id with a number. -/
def numberedId (base : String) (n : Nat) : String :=
  base ++ "_" ++ Number.natText n

/-- The first number after `n`, of at most `fuel` tries, whose id is not registered. -/
def freeNumber (registry : Keyed QueueRef) (base : String) : Nat → Nat → Nat
  | 0, n => n + 1
  | fuel + 1, n =>
    if registry.has (numberedId base (n + 1)) then freeNumber registry base fuel (n + 1) else n + 1

/-- A new id made from a name. There are more tries than registered queues, so one of them is
free. -/
def generateId (name : String) : Action String := fun e =>
  let base := idBase name
  let n := freeNumber e.registry base e.registry.length ((e.counters.get? base).getD 0)
  (.ok (numberedId base n), { e with counters := e.counters.put base n })

/-! ## Making queues -/

/-- What a new queue is asked to be. -/
structure Options where
  /-- Its id, if it is not to be made from the name. -/
  id : Option String := none
  /-- The pause after each entry, for a timed queue. -/
  speed : Float := 0.0
  /-- Whether it runs a procedure. -/
  isProcedural : Bool := false
  /-- The script it runs. -/
  script : Option ScriptRef := none

/-- A new queue. -/
def create (pace : Pace) (name : String) (options : Options) : Action QueueRef := do
  let id ←
    match options.id with
    | some id => pure id
    | none => generateId name
  fun e =>
    let q : Queue :=
      { id, name, pace, isProcedural := options.isProcedural, script := options.script,
        memory := e.memories.size, speed := options.speed }
    (.ok e.queues.size, { e with queues := e.queues.push q, memories := e.memories.push {} })

/-- Registers a queue under its id. -/
def register (q : QueueRef) : Action Unit :=
  Action.change fun e => e.setRegistry (e.registry.put (Text.lower (e.queue q).id) q)

/-- Takes a queue out of the registry, unless its id belongs to another one now. -/
def unregister (q : QueueRef) : Action Unit :=
  Action.change fun e =>
    let key := Text.lower (e.queue q).id
    if e.registry.get? key = some q then e.setRegistry (e.registry.erase key) else e

/-! ## What entries share -/

/-- Sets a definition, case of the name aside. -/
def define (q : QueueRef) (name : String) (v : Value) : Action Unit :=
  Action.change fun e => e.changeMemory (e.queue q).memory fun m =>
    { m with definitions := m.definitions.put (Text.lower name) v }

/-- Removes a definition, case of the name aside. -/
def undefine (q : QueueRef) (name : String) : Action Unit :=
  Action.change fun e => e.changeMemory (e.queue q).memory fun m =>
    { m with definitions := m.definitions.erase (Text.lower name) }

/-- Sets definitions one after the other. -/
def defineAll (q : QueueRef) (pairs : List (String × Value)) : Action Unit :=
  Action.each (fun (name, v) => define q name v) pairs

/-- Saves an entry under a name, case aside. -/
def hold (q : QueueRef) (name : String) (n : EntryRef) : Action Unit :=
  Action.change fun e => e.changeMemory (e.queue q).memory fun m =>
    { m with held := m.held.put (Text.lower name) n }

/-- Adds a determination. -/
def determine (q : QueueRef) (v : Value) : Action Unit :=
  Action.change fun e =>
    match (e.queue q).determinations with
    | some n => { e with lists := e.lists.modify n (· ++ [v]) }
    | none =>
      { e with lists := e.lists.push [v] }.changeQueue q
        ({ · with determinations := some e.lists.size })

/-! ## Pending entries -/

/-- Puts entries at the end of the pending ones. -/
def append (q : QueueRef) (entries : List EntryRef) : Action Unit := do
  Action.each (Entries.place · (some q)) entries
  changeQueue q fun queue => { queue with pending := queue.pending ++ entries }

/-- Puts entries before the pending ones. -/
def inject (q : QueueRef) (entries : List EntryRef) : Action Unit := do
  Action.each (Entries.place · (some q)) entries
  changeQueue q fun queue => { queue with pending := entries ++ queue.pending }

/-- Takes the first pending entry. -/
def removeFirst (q : QueueRef) : Action (Option EntryRef) := do
  match (← queue q).pending with
  | [] => pure none
  | n :: rest =>
    changeQueue q ({ · with pending := rest })
    pure (some n)

/-- Drops the first pending entries. -/
def dropFirst (q : QueueRef) (count : Nat) : Action Unit :=
  changeQueue q fun queue => { queue with pending := queue.pending.drop count }

/-- Drops all pending entries. -/
def clear (q : QueueRef) : Action Unit :=
  changeQueue q ({ · with pending := [] })

/-! ## The ends of a queue -/

/-- Where a queue stands, for diagnostics. -/
def scope (q : QueueRef) : Action Scope := do
  pure { queue := some (← queue q).id }

/-- Tells a listener that a queue has ended. -/
def tell (q : QueueRef) : Listener → Action Unit
  | .finish n => Entries.finish n
  | .notify label error => do
    let state := (← queue q).state
    Action.change fun e => { e with fired := ⟨label, q + 1, state.name⟩ :: e.fired }
    match error with
    | some message => Action.fail (.host message)
    | none => pure ()

/-- Takes a queue that has ended out of the registry and tells its listeners, once. -/
def complete (q : QueueRef) : Action Unit := do
  unregister q
  let ended ← queue q
  Action.trace ("Completed queue '" ++ ended.id ++ "' (" ++ ended.state.name ++ ")") (← scope q)
  changeQueue q ({ · with listeners := [] })
  Action.each (tell q) ended.listeners

/-- Ends a queue early. Pending entries are dropped. -/
def stop (q : QueueRef) : Action Unit := do
  unless (← queue q).state.isEnd do
    changeQueue q ({ · with state := .stopped, pending := [] })
    complete q

/-- Ends a queue whose pending entries ran out. -/
def finish (q : QueueRef) : Action Unit := do
  unless (← queue q).state.isEnd do
    changeQueue q ({ · with state := .finished })
    complete q

/-- Pauses a running queue. -/
def pause (q : QueueRef) : Action Unit :=
  changeQueue q fun queue =>
    if queue.state = .running then { queue with state := .paused } else queue

/-- Lets a paused queue run again. -/
def resume (q : QueueRef) : Action Unit :=
  changeQueue q fun queue =>
    if queue.state = .paused then { queue with state := .running } else queue

/-- Has a listener told when a queue ends; at once if it has ended. -/
def onComplete (q : QueueRef) (listener : Listener) : Action Unit := do
  if (← queue q).state.isEnd then tell q listener
  else changeQueue q fun queue => { queue with listeners := queue.listeners ++ [listener] }

/-! ## Delays and replacement -/

/-- Whether a delay still holds. -/
def isHolding (e : Engine) : Delay → Bool
  | .heartbeat release => decide (e.heartbeatTime < release)
  | .clock release => decide (e.clock < release)

/-- Whether a queue is held back. -/
def isDelayed (e : Engine) (q : QueueRef) : Bool :=
  ((e.queue q).delay.map (isHolding e)).getD false

/-- A delay of some milliseconds from now, on the clock or in heartbeat time. -/
def delayOf (e : Engine) (millis : Float) (onClock : Bool) : Delay :=
  if onClock then .clock (e.clock + millis) else .heartbeat (e.heartbeatTime + millis)

/-- Gives the pending entries of a queue, and all that they share, to another queue. The old queue is
stopped without its listeners being told; they move as well. -/
def adopt (new old : QueueRef) : Action Unit := do
  append new (← queue old).pending
  let o ← queue old
  changeQueue new ({ · with
    memory := o.memory, determinations := o.determinations, isProcedural := o.isProcedural,
    script := o.script, last := o.last, listeners := o.listeners })
  changeQueue old ({ · with
    pending := [], listeners := [], replacedBy := some new, state := .stopped })

/-- Replaces a queue by a timed queue under the same id, which waits out the delay first. The new
queue is still to be started. -/
def replaceByTimed (q : QueueRef) (delay : Option Delay) : Action QueueRef := do
  let old ← queue q
  let timed ← create .timed old.name { id := some old.id }
  adopt timed q
  if delay.isSome then changeQueue timed ({ · with delay := delay })
  Action.trace ("Converted instant queue '" ++ old.id ++ "' to a timed queue") (← scope q)
  pure timed

/-- Marks an idle queue as running and registers it. -/
def launch (q : QueueRef) : Action Unit := do
  changeQueue q ({ · with state := .running })
  register q
  let started ← queue q
  Action.trace ("Starting " ++ started.pace.name ++ " queue '" ++ started.id ++ "' with " ++
    Number.natText started.pending.length ++ " entries") (← scope q)

end QueueScript.Queues
