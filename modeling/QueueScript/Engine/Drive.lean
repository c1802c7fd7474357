import QueueScript.Engine.Executor

/-!
# Driving queues

How far a queue gets in one turn. An instant queue runs its entries back to back until one of them
fails or holds it; a timed queue runs up to one entry that is not instant, and waits out its delay
first. Entries start queues and procedures in turn, so a turn is given an amount of fuel that bounds
both the entries it runs and how deep it nests; a turn that needs more is cut off.
-/

namespace QueueScript

namespace Action

/-- Repeats an action as long as it says to go on, at most `fuel` times. -/
def repeatWhile (step : Action Bool) : Nat → Action Unit
  | 0 => fail .exhausted
  | fuel + 1 => fun e =>
    match step e with
    | (.ok true, e) => repeatWhile step fuel e
    | (.ok false, e) => (.ok (), e)
    | (.error f, e) => (.error f, e)

end Action

namespace Drive

/-! ## One entry -/

/-- Puts a step into the history of executions. -/
def note (step : Step) : Action Unit :=
  Action.change fun e => { e with journal := step :: e.journal }

/-- Runs an entry of a queue. -/
def runEntry (calls : Calls) (q : QueueRef) (n : EntryRef) : Action Bool := do
  let before ← Action.queue q
  let previous ← Action.look fun e => before.last.map e.entry
  note (.began q n before previous)
  Action.changeQueue q ({ · with last := some n })
  let ran ← Executor.execute calls n
  note (.returned q n ran)
  pure ran

/-- Whether a queue is held by the entry that it ran last. -/
def isWaiting (e : Engine) (q : QueueRef) : Bool :=
  (e.queue q).last.any fun n => (e.entry n).isAwaited

/-- Whether a queue may run entries. -/
def isActive (e : Engine) (q : QueueRef) : Bool :=
  (e.queue q).state == .running && (e.queue q).replacedBy.isNone

/-- Whether a timed queue goes on after an entry that ran; if not, its pause begins. -/
def goesOn (q : QueueRef) (n : EntryRef) : Action Bool := do
  let queue ← Action.queue q
  if queue.delay.isSome then pure false
  else if (← Action.entry n).isInstant then pure true
  else
    if 0.0 < queue.speed then
      let delay ← Action.look (Queues.delayOf · queue.speed false)
      Action.changeQueue q ({ · with delay := some delay })
    pure false

/-- Runs the next entry of a queue, if it may run one; a queue without entries is finished. The
outcome says whether the turn goes on. -/
def step (calls : Calls) (q : QueueRef) : Action Bool := do
  if !(← Action.look (isActive · q)) then pure false
  else if ← Action.look (isWaiting · q) then pure false
  else
    match ← Queues.removeFirst q with
    | none => do
      Queues.finish q
      pure false
    | some n =>
      if ← runEntry calls q n then
        match (← Action.queue q).pace with
        | .instant => pure true
        | .timed => goesOn q n
      else pure false

/-! ## One turn -/

/-- Runs entries of a queue until its turn is over. -/
def advance (calls : Calls) (fuel : Nat) (q : QueueRef) : Action Unit :=
  Action.repeatWhile (step calls q) fuel

/-- Whether a queue is still held back. A delay that has passed is cleared. -/
def isHeldBack (q : QueueRef) : Action Bool := do
  match (← Action.queue q).delay with
  | none => pure false
  | some delay =>
    if ← Action.look (Queues.isHolding · delay) then pure true
    else
      Action.changeQueue q ({ · with delay := none })
      pure false

/-- Gives a queue its turn. -/
def heartbeat (calls : Calls) (fuel : Nat) (q : QueueRef) : Action Unit := do
  let queue ← Action.queue q
  if queue.state = .running then
    match queue.pace with
    | .instant => advance calls fuel q
    | .timed =>
      unless ← isHeldBack q do
        advance calls fuel q

/-- Starts an idle queue and gives it its first turn. -/
def start (calls : Calls) (fuel : Nat) (q : QueueRef) : Action Unit := do
  if (← Action.queue q).state = .idle then
    Queues.launch q
    heartbeat calls fuel q

/-- Starts a queue and gives it turn after turn until it ends or is held. -/
def runToCompletion (calls : Calls) (fuel : Nat) (q : QueueRef) : Action Unit := do
  start calls fuel q
  Action.repeatWhile
    (do
      if ← Action.look fun e => isActive e q && !isWaiting e q then
        advance calls fuel q
        pure true
      else pure false)
    fuel

/-! ## Procedures -/

/-- The number of the procedure with a name. -/
def procedureNamed (name : String) : Action Nat := do
  match ← Action.look (·.scriptNamed? name) with
  | none => Action.breakOff (.noProcedure name)
  | some n =>
    if (← Action.look (·.script n)).kind = .procedure then pure n
    else Action.breakOff (.notProcedure name)

/-- Runs a procedure on a queue of its own and gives the first value it determined. -/
def runProcedure (calls : Calls) (fuel : Nat) (name : String) (args : List Value) :
    Action Value := do
  let n ← procedureNamed name
  let script ← Scripts.reference n
  let q ← Queues.create .instant script.name { isProcedural := true, script := some script }
  Scripts.load q n args []
  runToCompletion calls fuel q
  if !(← Action.queue q).state.isEnd then
    Queues.stop q
  match ← Action.look (·.determinations? q) with
  | some (v :: _) => pure v
  | _ => Action.breakOff (.undetermined name)

/-! ## Nesting -/

/-- What entries may set going with an amount of fuel: every level of nesting has less. -/
def calls : Nat → Calls
  | 0 => ⟨fun _ => Action.fail .exhausted, fun _ _ => Action.fail .exhausted⟩
  | fuel + 1 =>
    ⟨fun q => start (calls fuel) fuel q, fun name args => runProcedure (calls fuel) fuel name args⟩

end Drive

end QueueScript
