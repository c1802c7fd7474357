import QueueScript.Proofs.Doubles
import QueueScript.Proofs.Handoffs

/-!
# Programs of blocks and loops, run by their structure

A program is a tree: leaves that write messages, set definitions or fail, conditions with blocks, and
loops with a block.  Here is what such a tree means, by recursion over it.  A block runs its commands
one after the other, a condition the first block that is chosen, and a loop its block a number of
times.  A command that ends a round or a loop early leaves all blocks up to the innermost loop, which
the result of running a block says (`Exit`).

Nothing here looks for marks among the pending entries.  The list of pending entries is only written
down, for whoever reads the history.
-/

namespace QueueScript

/-! ## Running an entry with a given command -/

namespace Executor

variable {α : Type}

/-- The steps of an entry up to its command: nothing if it is skipped, else the name to save it
under. -/
def enter (calls : Calls) (n : EntryRef) (scope : Scope) : Action (Option (Option String)) := do
  let code := (← Action.entry n).code
  match ← prelude calls n none code.metaArgs with
  | .skip outcome =>
    Action.trace ("Skipping '" ++ code.keyword ++ "': if:" ++ outcome) scope
    Entries.finish n
    pure none
  | .run saveAs =>
    let _ ← Entries.resolveArguments calls n
    Commands.parse calls n
    pure (some saveAs)

/-- The steps of an entry after its command. -/
def leave (n : EntryRef) (saveAs : Option String) : Action Unit := do
  if let some name := saveAs then
    save n name
  if !(← Action.entry n).code.handler.isHoldable then
    Entries.finish n

/-- The command of an entry that is not skipped, and the steps after it. -/
def proceed (n : EntryRef) (act : Action α) : Option (Option String) → Action (Bool × Option α)
  | none => pure (true, none)
  | some saveAs => do
    let a ← act
    leave n saveAs
    pure (true, some a)

/-- Runs an entry with `act` in the place of its command.  There is no result of `act` if the entry is
skipped, refused or fails. -/
def executeWith (calls : Calls) (n : EntryRef) (act : Action α) : Action (Bool × Option α) := do
  Entries.refresh n
  let code := (← Action.entry n).code
  let scope ← Entries.scope n
  Action.announce code.render scope
  if ← Action.look (isRefused · n) then
    Action.error ("The command '" ++ code.keyword ++ "' cannot be used in a procedure.") scope none
    Entries.finish n
    pure (false, none)
  else
    Action.orElse
      (do proceed n act (← enter calls n scope))
      (fun f => do
        Action.error (failureText code f) scope (some f)
        Entries.finish n
        pure (false, none))

end Executor

/-! ## Programs -/

namespace Compiled

/-- Whether a command can be taken for a mark. -/
def isMarked (c : Compiled) : Bool :=
  c.words.contains Builtin.loopMark || c.literals.contains Builtin.loopMark ||
    (c.positions.get? Builtin.loopMark).isSome

/-- Whether a command is a leaf, a condition or a loop. -/
def isStatement (c : Compiled) : Bool :=
  !c.isMarked &&
    match c.handler.behaviour with
    | .stub | .debug | .define | .condition | .loop => true
    | _ => false

mutual

/-- Whether a command and all commands in its blocks are leaves, conditions and loops. -/
def isProgram : Compiled → Bool
  | c@{ branches, .. } =>
    c.isStatement &&
      match branches with
      | some bs => arePrograms bs
      | none => true

/-- Whether all blocks are programs. -/
def arePrograms : List (Branch Compiled) → Bool
  | [] => true
  | ⟨_, _, body⟩ :: rest => isBlock body && arePrograms rest

/-- Whether all commands of a block are programs. -/
def isBlock : List Compiled → Bool
  | [] => true
  | c :: rest => c.isProgram && isBlock rest

end

end Compiled

namespace Structured

/-! ## Where a command stands -/

/-- How a block is left. -/
inductive Exit where
  /-- All of it has run. -/
  | done
  /-- The rest of the round is abandoned. -/
  | next
  /-- The loop is abandoned. -/
  | stop
  /-- A loop was asked for that counts beyond the whole numbers that doubles tell apart. -/
  | beyond
  deriving DecidableEq, Repr

/-- The definition that holds the index of a loop, and what it held before the loop. -/
structure Binding where
  /-- The name of the definition. -/
  name : String
  /-- What it held before. -/
  before : Option Value

/-- Gives the definition back what it held before the loop. -/
def Binding.restore (q : QueueRef) (b : Binding) : Action Unit :=
  match b.before with
  | some v => Queues.define q b.name v
  | none => Queues.undefine q b.name

/-- The innermost loop that is running. -/
structure Loop where
  /-- Its index. -/
  binding : Binding
  /-- The mark at the end of the round. -/
  mark : EntryRef
  /-- What comes after the loop. -/
  behind : List EntryRef

/-- What comes after a command. -/
structure Place where
  /-- The rest of the round, or of the program if no loop is running. -/
  rest : List EntryRef
  /-- The innermost loop. -/
  loop : Option Loop

/-- All entries that come after a command, up to the end of the program. -/
def Place.pending (p : Place) : List EntryRef :=
  p.rest ++
    match p.loop with
    | none => []
    | some l => l.mark :: l.behind

/-- What stays the same in all rounds of a loop. -/
structure Rounds where
  /-- The command that started the loop. -/
  owner : EntryRef
  /-- The index. -/
  binding : Binding
  /-- The last index. -/
  target : Float
  /-- The entries of its block. -/
  body : List EntryRef

/-- What a command for loops comes to. -/
inductive Control where
  /-- A loop of no rounds. -/
  | pass
  /-- The end of all blocks up to the innermost loop. -/
  | leave (exit : Exit)
  /-- The first round of a loop: the index, the number of rounds after it, and its entries. -/
  | enter (rounds : Rounds) (first : Int) (more : Nat) (body : List EntryRef) (mark : EntryRef)

variable {α : Type} (calls : Calls) (seconds : Option Float) (q : QueueRef)

/-! ## One entry -/

/-- Runs an entry of the queue and writes it down.  After a failure the queue goes on with the next
beat. -/
def attend (n : EntryRef) (following : List EntryRef) (run : Action (Bool × α)) : Action α := do
  Action.changeQueue q ({ · with pending := following })
  let before ← Action.queue q
  let previous ← Action.look fun e => before.last.map e.entry
  Drive.note (.began q n before previous)
  Action.changeQueue q ({ · with last := some n })
  let (ran, a) ← run
  Drive.note (.returned q n ran)
  unless ran do
    Action.change (Heartbeat.opened · seconds)
  pure a

/-- Runs an entry of the queue with a given command. -/
def serve (n : EntryRef) (following : List EntryRef) (act : Action α) : Action (Option α) :=
  attend seconds q n following (Executor.executeWith calls n act)

/-! ## Conditions -/

/-- Puts the chosen block at the head of the queue, and gives its place and its entries. -/
def choice (n : EntryRef) : Action (Option (Nat × List EntryRef)) := do
  match ← Commands.Condition.choose calls n 0 (← Commands.branches n) with
  | none =>
    Commands.report n [("branch", "none")]
    pure none
  | some (index, branch) =>
    Commands.report n [("branch", Number.natText (index + 1)),
      ("entries", Number.natText branch.body.length)]
    let ns ← Entries.spawn n branch.body
    Queues.inject q ns
    pure (some (index, ns))

/-! ## Loops -/

/-- Begins a round: binds the index and puts the block and a mark at the head of the queue. -/
def openRound (r : Rounds) (value : Float) : Action (List EntryRef × EntryRef) := do
  Action.changeEntry r.owner ({ · with
    loop := some ⟨value, r.target, r.binding.name, r.binding.before⟩ })
  Queues.define q r.binding.name (.num value)
  let ns ← Entries.spawn r.owner r.body
  let mark ← Commands.Loop.createMark r.owner
  Action.each (Entries.forceInstant · true) (ns ++ [mark])
  Queues.inject q (ns ++ [mark])
  pure (ns, mark)

/-- Ends a loop after its last round. -/
def closeLoop (r : Rounds) (value : Float) : Action Unit := do
  Action.changeEntry r.owner ({ · with
    loop := some ⟨value, r.target, r.binding.name, r.binding.before⟩ })
  r.binding.restore q

/-- What happens at a mark, with `act` at its heart. -/
def atMark (mark : EntryRef) (act : Action α) : Action (Bool × α) := do
  Entries.refresh mark
  let code := (← Action.entry mark).code
  Action.announce code.render (← Entries.scope mark)
  Action.changeEntry mark ({ · with arguments := [] })
  Entries.store mark "from" (.num 1.0)
  Entries.store mark "as" (.str "value")
  let a ← act
  Entries.finish mark
  pure (true, a)

/-- Whether doubles tell a whole number apart from its neighbours. -/
def isSmall (i : Int) : Bool :=
  decide (i.natAbs < 2 ^ 53)

/-- The number of rounds and the first index, if both and their sum are small whole numbers. -/
def range? (amount first : Float) : Option (Int × Int) := do
  let a ← Doubles.whole? amount
  let f ← Doubles.whole? first
  if isSmall a && isSmall f && isSmall (f + a) then some (a, f) else none

/-- Starts a loop. -/
def startLoop (n : EntryRef) : Action Control := do
  let amount ← Entries.count n "quantity"
  let first ← Entries.count n "from"
  let name := (← Entries.element? n "as").getD "value"
  Commands.report n [("quantity", Number.text amount), ("from", Number.text first), ("as", name)]
  match range? amount first with
  | none => pure (.leave .beyond)
  | some (a, f) =>
    if a ≤ 0 then pure .pass
    else
      let body ← Commands.Loop.body n
      if body.isEmpty then
        Action.breakOff .emptyLoop
      let before ← Action.look (·.definition? q name)
      let r : Rounds := ⟨n, ⟨name, before⟩, first + amount - 1.0, body⟩
      let (ns, mark) ← openRound q r first
      pure (.enter r f (a.toNat - 1) ns mark)

/-- Ends the innermost loop, or only its current round. -/
def leaveEarly (n : EntryRef) (place : Place) (stop : Bool) : Action Control := do
  match place.loop with
  | none => Action.breakOff (.notInLoop stop)
  | some l =>
    if stop then
      Action.changeQueue q ({ · with pending := l.behind })
      l.binding.restore q
    else
      Action.changeQueue q ({ · with pending := l.mark :: l.behind })
    Commands.report n [(if stop then "stop" else "next",
      "skipped " ++ Number.natText place.rest.length ++ " entries")]
    pure (.leave (if stop then .stop else .next))

/-- Ends a loop or a round, or starts a loop. -/
def control (n : EntryRef) (place : Place) : Action Control := do
  if ← Entries.flag calls n "stop" then leaveEarly q n place true
  else if ← Entries.flag calls n "next" then leaveEarly q n place false
  else startLoop q n

/-- Runs the rounds of a loop: the current one, whose entries are on the queue, and a number of
further ones. -/
def iterate (r : Rounds) (following : List EntryRef)
    (body : List EntryRef → Place → Action Exit) :
    Nat → Int → List EntryRef → EntryRef → Action Exit
  | more, index, ns, mark => do
    match ← body ns ⟨[], some ⟨r.binding, mark, following⟩⟩ with
    | .stop => pure .done
    | .beyond => pure .beyond
    | .done | .next =>
      match more with
      | 0 =>
        attend seconds q mark following (atMark mark (closeLoop q r (Float.ofInt (index + 1))))
        pure .done
      | more + 1 =>
        let (ns, mark) ← attend seconds q mark following
          (atMark mark (openRound q r (Float.ofInt (index + 1))))
        iterate r following body more (index + 1) ns mark

/-! ## Programs -/

mutual

/-- Runs a command and the blocks it asks for. -/
def single : Compiled → EntryRef → Place → Action Exit
  | { handler, branches, .. }, n, place =>
    match handler.behaviour with
    | .condition => do
      match ← serve calls seconds q n place.pending (choice calls q n) with
      | some (some (index, ns)) =>
        match branches with
        | some bs => chosen bs index ns place
        | none => pure .done
      | _ => pure .done
    | .loop => do
      match ← serve calls seconds q n place.pending (control calls q n place) with
      | some (.leave exit) => pure exit
      | some (.enter r first more ns mark) =>
        match branches with
        | some bs => iterate seconds q r place.pending (chosen bs 0) more first ns mark
        | none => pure .done
      | _ => pure .done
    | _ => do
      let _ ← serve calls seconds q n place.pending (Commands.execute calls n)
      pure .done

/-- Runs the commands of a block. -/
def block : List Compiled → List EntryRef → Place → Action Exit
  | c :: cs, n :: ns, place => do
    match ← single c n { place with rest := ns ++ place.rest } with
    | .done => block cs ns place
    | exit => pure exit
  | _, _, _ => pure .done

/-- Runs the block at a place. -/
def chosen : List (Branch Compiled) → Nat → List EntryRef → Place → Action Exit
  | ⟨_, _, body⟩ :: _, 0, ns, place => block body ns place
  | _ :: rest, index + 1, ns, place => chosen rest index ns place
  | [], _, _, _ => pure .done

end

/-- Starts the queue, runs its entries as a program, and ends the queue. -/
def run : Action Exit := do
  Queues.launch q
  let ns ← Action.look fun e => (e.queue q).pending
  let codes ← Action.look fun e => ns.map fun n => (e.entry n).code
  match ← block calls seconds q codes ns ⟨[], none⟩ with
  | .done => do
    Queues.finish q
    pure .done
  | exit => pure exit

end Structured

end QueueScript
