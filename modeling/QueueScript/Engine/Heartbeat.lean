import QueueScript.Engine.Drive

/-!
# The heartbeat

Each beat first applies what was handed over since the last one, in order, and then gives every
registered queue its turn, in the order they started. A failure of one of these is reported and does
not keep the others from their turn.
-/

namespace QueueScript.Heartbeat

/-! ## One beat -/

/-- Queues a task of the host for the next beat. -/
def schedule (label : String) (error : Option String) (again : Bool) : Action Unit :=
  Action.change fun e => { e with handoffs := e.handoffs ++ [.task label 0 error again] }

/-- Does what was handed over. -/
def takeOver : Handoff → Action Unit
  | .settle n outcome => Background.handOver n outcome
  | .task label count error again => do
    Action.change fun e => { e with fired := ⟨label, count, "handoff"⟩ :: e.fired }
    match error with
    | some message => Action.fail (.host message)
    | none =>
      if again then
        Action.change fun e =>
          { e with handoffs := e.handoffs ++ [.task label (count + 1) none false] }

/-- Does what was handed over; a failure is reported. -/
def takeOverSafely (h : Handoff) : Action Unit :=
  Action.orElse (takeOver h) fun f =>
    Action.error ("Scheduled task failed: " ++ f.message) {} (some f)

/-- Gives a queue its turn; a failure is reported. -/
def beatSafely (fuel : Nat) (q : QueueRef) : Action Unit :=
  Action.orElse (Drive.heartbeat (Drive.calls fuel) fuel q) fun f => do
    Action.error ("Queue heartbeat failed: " ++ f.message) (← Queues.scope q) (some f)

/-- The time of a beat that comes without one, in seconds. -/
def defaultSeconds (e : Engine) : Float :=
  e.config.heartbeatMillis / 1000.0

/-- Does all that was handed over, in order. What is handed over meanwhile waits. -/
def takeOverAll : Action Unit := do
  let handoffs ← Action.look (·.handoffs)
  Action.change ({ · with handoffs := [] })
  Action.each takeOverSafely handoffs

/-- Gives every registered queue its turn. -/
def beatAll (fuel : Nat) : Action Unit := do
  let live ← Action.look (·.registry.values)
  Action.each (beatSafely fuel) live

/-- One beat after a time in seconds. -/
def tick (fuel : Nat) (seconds : Option Float) : Action Unit := do
  let seconds ← Action.look fun e => seconds.getD (defaultSeconds e)
  Action.change fun e =>
    { e with heartbeatTime := e.heartbeatTime + seconds * 1000.0, beats := e.beats + 1 }
  takeOverAll
  beatAll fuel

/-- A number of beats. -/
def ticks (fuel : Nat) (seconds : Option Float) : Nat → Action Unit
  | 0 => pure ()
  | times + 1 => do
    tick fuel seconds
    ticks fuel seconds times

/-! ## Beats that come on their own -/

/-- The shortest time between two beats. -/
def shortestInterval : Float := 1.0

/-- Lets beats come on their own, unless they do already. -/
def start (millis : Option Float) : Action Unit :=
  Action.change fun e =>
    if e.timer.isSome then e
    else
      let millis := millis.getD e.config.heartbeatMillis
      let interval := if millis < shortestInterval then shortestInterval else millis
      { e with timer := some ⟨millis, interval, e.clock + millis⟩ }

/-- Lets no more beats come on their own. -/
def stop : Action Unit :=
  Action.change ({ · with timer := none })

/-- Lets the next beat come if it is due by a time. The outcome says whether it was. -/
def fireDue (fuel : Nat) (goal : Float) : Action Bool := do
  match ← Action.look (·.timer) with
  | none => pure false
  | some timer =>
    if timer.due ≤ goal then
      Action.change fun e =>
        { e with clock := timer.due, timer := some { timer with due := timer.due + timer.interval } }
      tick fuel (some (timer.millis / 1000.0))
      pure true
    else pure false

/-- Moves the clock on, letting every beat come that falls due. -/
def advance (fuel : Nat) (millis : Float) : Action Unit := do
  let goal ← Action.look (·.clock + millis)
  Action.repeatWhile (fireDue fuel goal) fuel
  Action.change ({ · with clock := goal })

end QueueScript.Heartbeat
