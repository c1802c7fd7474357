import QueueScript.Proofs.Discipline.Basic

/-!
# Equations of the engine

What the functions of an engine that look at it first go on to do, one equation for each thing they
can find there.  The second half of an action that is cut in two here has a name, so that what is
shown of it is stated once.
-/

namespace QueueScript

/-! ## Looking at an engine -/

namespace Action

variable {α β : Type}

/-- What follows a look is given what was seen. -/
theorem look_bind (g : Engine → α) (f : α → Action β) (e : Engine) :
    (look g >>= f) e = f (g e) e :=
  rfl

/-- What follows a look at a queue is given the queue. -/
theorem queue_bind (q : QueueRef) (f : Queue → Action β) (e : Engine) :
    (queue q >>= f) e = f (e.queue q) e :=
  rfl

/-- What follows a look at an entry is given the entry. -/
theorem entry_bind (n : EntryRef) (f : Entry → Action β) (e : Engine) :
    (entry n >>= f) e = f (e.entry n) e :=
  rfl

end Action

/-! ## Queues -/

namespace Queues

variable {q : QueueRef} {e : Engine}

/-- A determination joins the list that the queue keeps, or starts a new one. -/
theorem determine_cases (q : QueueRef) (v : Value) (e : Engine) :
    (∃ i, (e.queue q).determinations = some i ∧
      (determine q v e).2 = { e with lists := e.lists.modify i (· ++ [v]) }) ∨
    ((e.queue q).determinations = none ∧
      (determine q v e).2 = { e with lists := e.lists.push [v] }.changeQueue q
        ({ · with determinations := some e.lists.size })) := by
  simp only [determine, Action.change]
  cases h : (e.queue q).determinations with
  | some i => exact .inl ⟨i, rfl, rfl⟩
  | none => exact .inr ⟨rfl, rfl⟩

/-- There is no first entry to take when none is pending. -/
theorem removeFirst_nil (h : (e.queue q).pending = []) : removeFirst q e = (.ok none, e) := by
  rw [removeFirst, Action.queue_bind, h]
  rfl

/-- The first pending entry is taken, and the rest stays. -/
theorem removeFirst_cons {n : EntryRef} {rest : List EntryRef} (h : (e.queue q).pending = n :: rest) :
    removeFirst q e = (.ok (some n), e.changeQueue q ({ · with pending := rest })) := by
  rw [removeFirst, Action.queue_bind, h]
  rfl

/-- The definitions of a run are all that changes when they are made. -/
theorem defineAll_eq (q : QueueRef) (pairs : List (String × Value)) (e : Engine) :
    ∃ memories, defineAll q pairs e = (.ok (), { e with memories }) := by
  induction pairs generalizing e with
  | nil => exact ⟨e.memories, rfl⟩
  | cons p rest ih => exact ih _

end Queues

/-! ## Entries -/

namespace Entries

variable {n : EntryRef} {e : Engine}

/-- An entry on a queue has the queue it requires. -/
theorem requireQueue_eq {q : QueueRef} (h : e.residingQueue n = some q) :
    requireQueue n e = (.ok q, e) := by
  rw [requireQueue, Action.look_bind, h]
  rfl

/-- A key that the command does not give has no argument. -/
theorem argument?_of_none {calls : Calls} {key : String} (h : (e.entry n).code.argument? key = none) :
    argument? calls n key e = (.ok none, e) := by
  rw [argument?, Action.entry_bind, h]
  rfl

/-- A key that the command gives has its argument, resolved. -/
theorem argument?_of_some {calls : Calls} {key : String} {a : CompiledArgument}
    (h : (e.entry n).code.argument? key = some a) :
    argument? calls n key e = (some <$> resolveArgument calls n a) e := by
  rw [argument?, Action.entry_bind, h]

/-- The second half of the resolution of an argument, once its key is known: its value is resolved, and
a text that was written with a colon may be a key and a value in one. -/
def resolveValue (calls : Calls) (n : EntryRef) (a : CompiledArgument) (context : Tags.Context)
    (key : Option String) : Action Argument := do
  let object ← Tags.resolve calls context a.value
  let handler := (← Action.entry n).code.handler
  match key, object with
  | none, .str text =>
    if a.hadColon && handler.dynamicKeys then
      pure (Argument.ofText text handler.anyKeySymbol true)
    else argumentOf none object
  | _, _ => argumentOf key object

/-- An argument without tags is as it was compiled. -/
theorem resolveArgument_of_literal {calls : Calls} {a : CompiledArgument} {argument : Argument}
    (h : a.literal? = some argument) : resolveArgument calls n a = pure argument := by
  rw [resolveArgument, h]

/-- An argument without a key has its value resolved only. -/
theorem resolveArgument_of_bare {calls : Calls} {a : CompiledArgument} (h : a.literal? = none)
    (hk : a.key = none) : resolveArgument calls n a = (do
      let context ← context n
      let key ← pure none
      resolveValue calls n a context key) := by
  rw [resolveArgument, h, hk]
  rfl

/-- An argument with a key has the key resolved before the value. -/
theorem resolveArgument_of_keyed {calls : Calls} {a : CompiledArgument} {t : Template}
    (h : a.literal? = none) (hk : a.key = some t) : resolveArgument calls n a = (do
      let context ← context n
      let v ← Tags.resolve calls context t
      let key ← some <$> Action.textOf v
      resolveValue calls n a context key) := by
  rw [resolveArgument, h, hk]
  rfl

end Entries

/-! ## Scripts -/

namespace Scripts

variable {e : Engine}

/-- A script that was compiled keeps its entries. -/
theorem baseEntries_of_some {n : Nat} {entries : List EntryRef} (h : (e.script n).base = some entries) :
    baseEntries n e = (.ok entries, e) := by
  rw [baseEntries, Action.look_bind, h]
  rfl

/-- A script that was not compiled yet is, and its entries are kept. -/
theorem baseEntries_of_none {n : Nat} (h : (e.script n).base = none) :
    baseEntries n e = (do
      let entries ← Entries.createAll
        (← compile (e.script n).source (some ⟨n, (e.script n).name⟩))
      Action.change fun e =>
        { e with scripts := e.scripts.modify n ({ · with base := some entries }) }
      pure entries : Action (List EntryRef)) e := by
  rw [baseEntries, Action.look_bind, h]

/-- A script that is not registered cannot be run. -/
theorem prepare_of_none {name : String} {options : RunOptions} (h : e.scriptNamed? name = none) :
    prepare name options e = (.error (.runtime (.noScript name)), e) := by
  rw [prepare, Action.look_bind, h]
  rfl

/-- A script that is registered gets a queue, onto which it is loaded. -/
theorem prepare_of_some {name : String} {options : RunOptions} {n : Nat}
    (h : e.scriptNamed? name = some n) :
    prepare name options e = (do
      let q ← createQueue options (e.script n).name (some ⟨n, (e.script n).name⟩)
      load q n options.args options.definitions
      pure q : Action QueueRef) e := by
  rw [prepare, Action.look_bind, h]
  rfl

end Scripts

/-! ## Commands -/

namespace Commands

variable {n : EntryRef} {q : QueueRef} {e : Engine}

/-- Puts the chosen block at the head of the queue. -/
def Condition.putOn (n : EntryRef) (q : QueueRef) : Option (Nat × Branch EntryRef) → Action Unit
  | none => report n [("branch", "none")]
  | some (index, branch) => do
    report n [("branch", Number.natText (index + 1)), ("entries", Number.natText branch.body.length)]
    Queues.inject q (← Entries.spawn n branch.body)

/-- A condition on a queue puts the block that it chooses before the rest. -/
theorem Condition.execute_of_residing {calls : Calls} (h : e.residingQueue n = some q) :
    execute calls n e = (choose calls n 0 (e.entry n).blocks >>= putOn n q) e :=
  Action.bind_ok (Entries.requireQueue_eq h)

/-- A mark that comes first is the first one. -/
theorem Loop.firstMark_of_mark {rest : List EntryRef} (h : (e.entry n).isLoopMark = true) :
    firstMark e (n :: rest) = some (0, n) := by
  rw [firstMark, if_pos h]

/-- An entry that is no mark is passed over. -/
theorem Loop.firstMark_of_plain {rest : List EntryRef} (h : (e.entry n).isLoopMark = false) :
    firstMark e (n :: rest) = (firstMark e rest).map fun p => (p.1 + 1, p.2) := by
  rw [firstMark, h]
  rfl

/-- A loop cannot be ended where none is pending. -/
theorem Loop.endEarly_of_none {stop : Bool} (h : firstMark e (e.queue q).pending = none) :
    endEarly n q stop e = (.error (.runtime (.notInLoop stop)), e) := by
  rw [endEarly, Action.look_bind, h]
  rfl

/-- A loop is ended by dropping what comes before its mark, and the mark too when it stops. -/
theorem Loop.endEarly_of_some {stop : Bool} {i : Nat} {mark : EntryRef}
    (h : firstMark e (e.queue q).pending = some (i, mark)) :
    endEarly n q stop e = (do
      Queues.dropFirst q (if stop then i + 1 else i)
      if stop then
        if let some (_, loop) := ← Action.look (loopOf · mark) then
          restore q loop
      report n [(if stop then "stop" else "next", "skipped " ++ Number.natText i ++ " entries")]
      : Action Unit) e := by
  rewrite [endEarly, Action.look_bind, h]
  rfl

/-- A loop at its mark goes into its next round, or is over. -/
theorem Loop.iterate_of_some {mark owner : EntryRef} {loop : LoopState}
    (h : loopOf e mark = some (owner, loop)) :
    iterate mark q e = (if loop.index + 1.0 ≤ loop.target then do
        Queues.define q loop.name (.num (loop.index + 1.0))
        injectIteration owner q (← body owner)
      else restore q { loop with index := loop.index + 1.0 } : Action Unit)
      (e.changeEntry owner ({ · with loop := some { loop with index := loop.index + 1.0 } })) := by
  rw [iterate, Action.look_bind, h]
  rfl

/-- What a loop keeps of its arguments after its quantity: the first index and the name of the index. -/
def Loop.keepRange (calls : Calls) (n : EntryRef) : Action Unit := do
  let start ←
    match ← Entries.argument? calls n "from" with
    | some a => Action.ofExcept .arguments a.asWhole
    | none => pure 1.0
  Entries.store n "from" (.num start)
  let name ← Entries.argumentText? calls n "as"
  Entries.store n "as" (.str (name.getD "value"))

/-- A loop is parsed by taking its words, and then its range. -/
theorem Loop.parse_eq (calls : Calls) (n : EntryRef) : parse calls n = (do
    Action.each (take n) (← arguments n)
    unless ← isControl calls n do
      if !(← has n "quantity") then
        Action.refuse .noQuantity
    keepRange calls n) :=
  rfl

/-- What a command that runs a script keeps of its arguments after the name of the script. -/
def Run.keepSpeed (calls : Calls) (n : EntryRef) : Action Unit := do
  if let some a := ← Entries.argument? calls n "speed" then
    Entries.store n "speed" (.num (← Action.ofExcept .arguments a.asDuration))

/-- The command that runs a script is parsed by taking its words, and then the speed. -/
theorem Run.parse_eq (calls : Calls) (n : EntryRef) : parse calls n = (do
    Action.each (take n) (← arguments n)
    if !(← has n "script") then
      Action.refuse .noScript
    keepSpeed calls n) :=
  rfl

/-- How a script is to be run, once the id that it is to run under is known to be free. -/
def Run.optionsUnder (calls : Calls) (n : EntryRef) (id : Option String) :
    Action Scripts.RunOptions := do
  let given ← Entries.argument? calls n "def"
  let speed ← Entries.object? n "speed"
  let pace ← pace calls n speed
  let args ←
    match given with
    | some a => do pure (← Action.reveal a.object).asList
    | none => pure []
  pure { pace := some pace, id, speed := (speed.map Value.count).getD 0.0, args }

/-- The options of a run are read after its id was found to be free. -/
theorem Run.options_eq (calls : Calls) (n : EntryRef) : options calls n = (do
    let id ← Entries.argumentText? calls n "id"
    if let some id := id then
      if ← Action.look fun e => (e.registered? id).isSome then
        Action.breakOff (.queueExists id)
    optionsUnder calls n id) :=
  rfl

/-- What a web request keeps of its arguments after the address: the method and the time limit. -/
def Web.keepOptions (calls : Calls) (n : EntryRef) : Action Unit := do
  Entries.store n "method" (.str (← method calls n))
  let timeout ←
    match ← Entries.argument? calls n "timeout" with
    | some a => Action.ofExcept .arguments a.asDuration
    | none => pure defaultTimeout
  Entries.store n "timeout" (.num timeout)

/-- A web request is parsed by taking its words, and then its address and options. -/
theorem Web.parse_eq (calls : Calls) (n : EntryRef) : parse calls n = (do
    Action.each (take n) (← arguments n)
    match ← Entries.element? n "url" with
    | none => Action.refuse .noUrl
    | some url =>
      if !hasWebScheme url then
        Action.refuse (.badUrl url)
    keepOptions calls n) :=
  rfl

/-- The request that an entry asks for, once its headers are known. -/
def Web.requestWith (calls : Calls) (n : EntryRef) (saveTo : Option Path) (body : Option Argument)
    (url method : Option String) (headers : List (String × String)) : Action WebRequest := do
  let body ←
    match body with
    | some a => do pure (some (bodyOf (← Action.reveal a.object)))
    | none => pure none
  let timeout ← Entries.count n "timeout"
  let isSilent ← Entries.flag calls n "hide_failure"
  pure { url := url.getD "", method := method.getD "GET", headers, body, timeout, saveTo, isSilent }

/-- A request is made of the path to save to, the headers and the body, in this order. -/
theorem Web.request_eq (calls : Calls) (n : EntryRef) : request calls n = (do
    let saveTo ← savePath calls n
    let headers ← Entries.argument? calls n "headers"
    let body ← Entries.argument? calls n "data"
    let url ← Entries.element? n "url"
    let method ← Entries.element? n "method"
    let headers ←
      match headers with
      | some a => Action.ofExcept id (← Action.reveal a.object).asMap
      | none => pure []
    requestWith calls n saveTo body url method headers) :=
  rfl

end Commands

/-! ## Turns -/

namespace Executor

variable {n : EntryRef} {name : String} {e : Engine}

/-- An entry that is on no queue is not saved. -/
theorem save_of_none (h : e.residingQueue n = none) : save n name e = (.ok (), e) := by
  rw [save, Action.look_bind, h]
  rfl

/-- An entry is saved on the queue it is on. -/
theorem save_of_some {q : QueueRef} (h : e.residingQueue n = some q) :
    save n name e = Queues.hold q name n e := by
  rw [save, Action.look_bind, h]

end Executor

namespace Drive

variable {calls : Calls} {fuel : Nat} {q : QueueRef} {n : EntryRef} {e : Engine}

/-- Whether a turn goes on after an entry; an instant queue goes on unless the entry failed. -/
def goesOnAfter (q : QueueRef) (n : EntryRef) (ran : Bool) : Action Bool := do
  if ran then
    match (← Action.queue q).pace with
    | .instant => pure true
    | .timed => goesOn q n
  else pure false

/-- An instant queue goes on after an entry that ran. -/
theorem goesOnAfter_of_instant (h : (e.queue q).pace = .instant) (ran : Bool) :
    goesOnAfter q n ran e = (.ok ran, e) := by
  cases ran with
  | false => rfl
  | true =>
    rw [goesOnAfter, if_pos rfl, Action.queue_bind, h]
    rfl

/-- A timed queue goes on after an entry as its speed allows. -/
theorem goesOnAfter_of_timed (h : (e.queue q).pace = .timed) :
    goesOnAfter q n true e = goesOn q n e := by
  rw [goesOnAfter, if_pos rfl, Action.queue_bind, h]

/-- A queue that does not run takes no step. -/
theorem step_of_inactive (h : isActive e q = false) : step calls q e = (.ok false, e) := by
  rw [step, Action.look_bind, h]
  rfl

/-- A queue that waits for its last entry takes no step. -/
theorem step_of_waiting (h : isWaiting e q = true) : step calls q e = (.ok false, e) := by
  rw [step, Action.look_bind]
  split
  · rfl
  · rw [Action.look_bind, h]
    rfl

/-- A queue without pending entries finishes. -/
theorem step_of_empty (ha : isActive e q = true) (hw : isWaiting e q = false)
    (h : (e.queue q).pending = []) :
    step calls q e = (Queues.finish q >>= fun _ => pure false : Action Bool) e := by
  rw [step, Action.look_bind, ha, if_neg (by decide), Action.look_bind, hw,
    if_neg Bool.false_ne_true]
  exact Action.bind_ok (Queues.removeFirst_nil h)

/-- A queue takes its first pending entry, and runs it. -/
theorem step_of_pending {rest : List EntryRef} (ha : isActive e q = true) (hw : isWaiting e q = false)
    (h : (e.queue q).pending = n :: rest) :
    step calls q e = (runEntry calls q n >>= goesOnAfter q n : Action Bool)
      (e.changeQueue q ({ · with pending := rest })) := by
  rw [step, Action.look_bind, ha, if_neg (by decide), Action.look_bind, hw,
    if_neg Bool.false_ne_true]
  exact Action.bind_ok (Queues.removeFirst_cons h)

/-- A queue without a delay is not held back. -/
theorem isHeldBack_of_none (h : (e.queue q).delay = none) : isHeldBack q e = (.ok false, e) := by
  rw [isHeldBack, Action.queue_bind, h]
  rfl

/-- A queue with a delay is held back while it lasts, and loses it then. -/
theorem isHeldBack_of_some {d : Delay} (h : (e.queue q).delay = some d) :
    isHeldBack q e = if Queues.isHolding e d then (.ok true, e)
      else (.ok false, e.changeQueue q ({ · with delay := none })) := by
  rw [isHeldBack, Action.queue_bind, h]
  dsimp only
  rw [Action.look_bind]
  split
  · rfl
  · rfl

/-- A queue that does not run has no turn in a beat. -/
theorem heartbeat_of_still (h : (e.queue q).state ≠ .running) :
    heartbeat calls fuel q e = (.ok (), e) := by
  rw [heartbeat, Action.queue_bind, if_neg h]
  rfl

/-- An instant queue advances in a beat. -/
theorem heartbeat_of_instant (h : (e.queue q).state = .running) (hp : (e.queue q).pace = .instant) :
    heartbeat calls fuel q e = advance calls fuel q e := by
  rw [heartbeat, Action.queue_bind, if_pos h, hp]

/-- A timed queue advances in a beat unless it is held back. -/
theorem heartbeat_of_timed (h : (e.queue q).state = .running) (hp : (e.queue q).pace = .timed) :
    heartbeat calls fuel q e = (do unless ← isHeldBack q do advance calls fuel q : Action Unit) e := by
  rw [heartbeat, Action.queue_bind, if_pos h, hp]

/-- A procedure that is not registered is not found. -/
theorem procedureNamed_of_none {name : String} (h : e.scriptNamed? name = none) :
    procedureNamed name e = (.error (.runtime (.noProcedure name)), e) := by
  rw [procedureNamed, Action.look_bind, h]
  rfl

/-- A script that is registered is found if it is a procedure. -/
theorem procedureNamed_of_some {name : String} {k : Nat} (h : e.scriptNamed? name = some k) :
    procedureNamed name e = (if (e.script k).kind = .procedure then pure k
      else Action.breakOff (.notProcedure name) : Action Nat) e := by
  rw [procedureNamed, Action.look_bind, h]
  rfl

end Drive

end QueueScript
