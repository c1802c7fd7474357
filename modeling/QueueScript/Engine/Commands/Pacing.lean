import QueueScript.Engine.Commands.Basic

/-!
# Pacing

The command that delays a queue, and the command that starts a script on a queue of its own.
-/

namespace QueueScript.Commands

/-! ## Waiting -/

namespace Wait

/-- The delay that is used if none is given, in milliseconds. -/
def defaultDelay : Float := 3000.0

/-- Stores one argument, the delay. -/
def take (n : EntryRef) (a : Argument) : Action Unit := do
  if !(← has n "delay") && a.key.isNone && a.isDuration then
    Entries.store n "delay" (.num (← Action.ofExcept .arguments a.asDuration))
  else
    refuseArgument a

/-- Stores the delay. -/
def parse (n : EntryRef) : Action Unit := do
  Action.each (take n) (← arguments n)
  Entries.storeDefault n "delay" (.num defaultDelay)

/-- The queue to be delayed: the one that is named, or the one the entry runs on. -/
def target (calls : Calls) (n : EntryRef) : Action QueueRef := do
  match ← Entries.argumentText? calls n "queue" with
  | none => Entries.requireQueue n
  | some id =>
    match ← Action.look (·.registered? id) with
    | some q => pure q
    | none => Action.breakOff (.noQueue id)

/-- Delays the queue. A queue that is not timed is replaced by one that is. -/
def execute (calls : Calls) (n : EntryRef) : Action Unit := do
  let millis ← Entries.count n "delay"
  let q ← target calls n
  let onClock ← Entries.flag calls n "system"
  let queue ← Action.queue q
  report n [("delay", Duration.text millis), ("queue", queue.id),
    ("clock", if onClock then "system" else "delta")]
  let delay ← Action.look (Queues.delayOf · millis onClock)
  match queue.pace with
  | .timed => Action.changeQueue q ({ · with delay := some delay })
  | .instant => do
    let timed ← Queues.replaceByTimed q (some delay)
    calls.start timed

end Wait

/-! ## Running scripts -/

namespace Run

/-- Stores one argument, the name of the script. -/
def take (n : EntryRef) (a : Argument) : Action Unit := do
  if !(← has n "script") && a.key.isNone then
    Entries.store n "script" (.str a.raw)
  else
    refuseArgument a

/-- Stores the name of the script and the pause between its entries. -/
def parse (calls : Calls) (n : EntryRef) : Action Unit := do
  Action.each (take n) (← arguments n)
  if !(← has n "script") then
    Action.refuse .noScript
  if let some a := ← Entries.argument? calls n "speed" then
    Entries.store n "speed" (.num (← Action.ofExcept .arguments a.asDuration))

/-- The pace of the new queue: timed if a pause is given. -/
def pace (calls : Calls) (n : EntryRef) (speed : Option Value) : Action Pace := do
  if speed.isSome then pure .timed
  else if ← Entries.flag calls n "instant" then pure .instant
  else Action.look (·.config.defaultQueueType)

/-- How the script is to be run. -/
def options (calls : Calls) (n : EntryRef) : Action Scripts.RunOptions := do
  let id ← Entries.argumentText? calls n "id"
  if let some id := id then
    if ← Action.look fun e => (e.registered? id).isSome then
      Action.breakOff (.queueExists id)
  let given ← Entries.argument? calls n "def"
  let speed ← Entries.object? n "speed"
  let pace ← pace calls n speed
  let args ←
    match given with
    | some a => do pure (← Action.reveal a.object).asList
    | none => pure []
  pure { pace := some pace, id, speed := (speed.map Value.count).getD 0.0, args }

/-- Starts the script on a new queue. An entry that is waited for is done when that queue ends. -/
def execute (calls : Calls) (n : EntryRef) : Action Unit := do
  let name := (← Entries.element? n "script").getD ""
  if (← Action.look (·.scriptNamed? name)).isNone then
    Action.breakOff (.noScript name)
  let options ← options calls n
  let q ← Scripts.prepare name options
  let queue ← Action.queue q
  Entries.store n "created_queue" (.str queue.id)
  report n [("script", name), ("queue", queue.id), ("type", queue.pace.name)]
  if (← Action.entry n).isAwaited then
    Queues.onComplete q (.finish n)
  else
    Entries.finish n
  calls.start q

end Run

end QueueScript.Commands
