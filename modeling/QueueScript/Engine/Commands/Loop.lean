import QueueScript.Engine.Commands.Basic

/-!
# Loops

The command that runs its block a number of times. The entries of one iteration are put at the head
of the queue, followed by a mark that starts the next iteration when its turn comes. A loop is ended
early by dropping the entries up to the next mark: that mark belongs to the innermost loop, since
the marks of outer loops come later.
-/

namespace QueueScript.Commands.Loop

/-- Stores one argument, the quantity. -/
def take (n : EntryRef) (a : Argument) : Action Unit := do
  if !(← has n "quantity") && a.key.isNone && a.isWhole then
    Entries.store n "quantity" (.num (← Action.ofExcept .arguments a.asWhole))
  else
    refuseArgument a

/-- Whether the command controls a loop instead of starting one. -/
def isControl (calls : Calls) (n : EntryRef) : Action Bool :=
  Action.someHolds (Entries.flag calls n) ["stop", "next", Builtin.loopMark]

/-- Stores the quantity, the first index and the name of the index. -/
def parse (calls : Calls) (n : EntryRef) : Action Unit := do
  Action.each (take n) (← arguments n)
  unless ← isControl calls n do
    if !(← has n "quantity") then
      Action.refuse .noQuantity
  let start ←
    match ← Entries.argument? calls n "from" with
    | some a => Action.ofExcept .arguments a.asWhole
    | none => pure 1.0
  Entries.store n "from" (.num start)
  let name ← Entries.argumentText? calls n "as"
  Entries.store n "as" (.str (name.getD "value"))

/-- Gives the definition of the index back what it held before the loop. -/
def restore (q : QueueRef) (loop : LoopState) : Action Unit :=
  match loop.before with
  | some v => Queues.define q loop.name v
  | none => Queues.undefine q loop.name

/-- The entry that marks the end of an iteration of a loop. -/
def createMark (owner : EntryRef) : Action EntryRef := do
  let code := (← Action.entry owner).code
  let catalogue ← Action.look (·.catalogue)
  let (command, notes) := buildFlat catalogue code.script "repeat" [Builtin.loopMark] code.line
  Action.noteAll notes
  let mark ← Entries.create command
  Action.changeEntry mark ({ · with owner := some owner })
  pure mark

/-- Puts one iteration at the head of the queue: clones of the entries of the block and a mark, all
instant. -/
def injectIteration (owner : EntryRef) (q : QueueRef) (body : List EntryRef) : Action Unit := do
  let entries ← Entries.spawn owner body
  let mark ← createMark owner
  let all := entries ++ [mark]
  Action.each (Entries.forceInstant · true) all
  Queues.inject q all

/-- The first block of a loop. -/
def body (owner : EntryRef) : Action (List EntryRef) := do
  pure ((← branches owner).head?.elim [] (·.body))

/-- Starts a loop. -/
def start (n : EntryRef) (q : QueueRef) : Action Unit := do
  let amount ← Entries.count n "quantity"
  let first ← Entries.count n "from"
  let name := (← Entries.element? n "as").getD "value"
  report n [("quantity", Number.text amount), ("from", Number.text first), ("as", name)]
  unless amount ≤ 0.0 do
    let body ← body n
    if body.isEmpty then
      Action.breakOff .emptyLoop
    let before ← Action.look (·.definition? q name)
    let loop : LoopState :=
      { index := first, target := first + amount - 1.0, name, before }
    Action.changeEntry n ({ · with loop := some loop })
    Queues.define q name (.num first)
    injectIteration n q body

/-- The loop that a mark belongs to: the entry that runs it, and its state. -/
def loopOf (e : Engine) (mark : EntryRef) : Option (EntryRef × LoopState) :=
  (e.entry mark).owner.bind fun owner => (e.entry owner).loop.map (owner, ·)

/-- Starts the next iteration of the loop that a mark belongs to, or ends the loop. -/
def iterate (mark : EntryRef) (q : QueueRef) : Action Unit := do
  match ← Action.look (loopOf · mark) with
  | none => Action.breakOff .noLoop
  | some (owner, loop) =>
    let loop := { loop with index := loop.index + 1.0 }
    Action.changeEntry owner ({ · with loop := some loop })
    if loop.index ≤ loop.target then
      Queues.define q loop.name (.num loop.index)
      injectIteration owner q (← body owner)
    else
      restore q loop

/-- The place of the first mark among entries, and the mark. -/
def firstMark (e : Engine) : List EntryRef → Option (Nat × EntryRef)
  | [] => none
  | n :: rest =>
    if (e.entry n).isLoopMark then some (0, n)
    else (firstMark e rest).map fun (i, mark) => (i + 1, mark)

/-- Ends the innermost loop, or only its current iteration. -/
def endEarly (n : EntryRef) (q : QueueRef) (stop : Bool) : Action Unit := do
  match ← Action.look fun e => firstMark e (e.queue q).pending with
  | none => Action.breakOff (.notInLoop stop)
  | some (i, mark) =>
    Queues.dropFirst q (if stop then i + 1 else i)
    if stop then
      if let some (_, loop) := ← Action.look (loopOf · mark) then
        restore q loop
    report n [(if stop then "stop" else "next", "skipped " ++ Number.natText i ++ " entries")]

/-- Ends a loop or an iteration, goes on with a loop, or starts one. -/
def execute (calls : Calls) (n : EntryRef) : Action Unit := do
  let q ← Entries.requireQueue n
  if ← Entries.flag calls n "stop" then endEarly n q true
  else if ← Entries.flag calls n "next" then endEarly n q false
  else if ← Entries.flag calls n Builtin.loopMark then iterate n q
  else start n q

end QueueScript.Commands.Loop
