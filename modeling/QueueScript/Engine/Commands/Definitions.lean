import QueueScript.Engine.Commands.Basic

/-!
# Definitions and determinations

The commands that change what the entries of a queue share, and the command that stops a queue.
-/

namespace QueueScript.Commands

/-! ## Definitions -/

namespace Define

/-- Stores one argument: a name with its value, a name, or the value of a name. -/
def take (n : EntryRef) (a : Argument) : Action Unit := do
  if !(← has n "definition") then
    match a.key with
    | some key =>
      Entries.store n "definition" (.str key)
      Entries.store n "value" a.object
    | none => Entries.store n "definition" (.str a.raw)
  else if !(← has n "value") then
    Entries.store n "value" a.object
  else
    refuseArgument a

/-- Stores the name and the value. -/
def parse (n : EntryRef) : Action Unit := do
  Action.each (take n) (← arguments n)
  if !(← has n "definition") then
    Action.refuse .noDefinition

/-- Sets the definition, or removes it if there is no value. -/
def execute (n : EntryRef) : Action Unit := do
  let q ← Entries.requireQueue n
  let name := (← Entries.element? n "definition").getD ""
  match ← Entries.object? n "value" with
  | none =>
    report n [("definition", name), ("value", "(removed)")]
    Queues.undefine q name
  | some v =>
    report n [("definition", name), ("value", ← Action.describe v)]
    Queues.define q name v

end Define

/-! ## Determinations -/

namespace Determine

/-- Stores one argument: the word that keeps the queue running, or the outcome. -/
def take (n : EntryRef) (a : Argument) : Action Unit := do
  if !(← has n "passively") && a.key.isNone && a.isWord ["passively"] then
    Entries.store n "passively" (.bool true)
  else if !(← has n "outcome") then
    Entries.store n "outcome" a.object
  else
    refuseArgument a

/-- Stores the outcome and whether the queue runs on. -/
def parse (n : EntryRef) : Action Unit := do
  Action.each (take n) (← arguments n)
  Entries.storeDefault n "outcome" (.str "none")
  Entries.storeDefault n "passively" (.bool false)

/-- The outcome that was parsed; a text stands for no value. -/
def outcome (n : EntryRef) : Action Value := do
  match ← Entries.object? n "outcome" with
  | none | some .null => pure (.str "none")
  | some v => pure v

/-- Adds the determination and ends the queue, unless it is to run on. -/
def execute (n : EntryRef) : Action Unit := do
  let q ← Entries.requireQueue n
  let outcome ← outcome n
  let passively ← Entries.isTrue n "passively"
  report n [("outcome", ← Action.describe outcome), ("passively", truthText passively)]
  Queues.determine q outcome
  unless passively do
    Queues.clear q
    Queues.stop q

end Determine

/-! ## Stopping -/

namespace Stop

/-- Stops the queue. -/
def execute (n : EntryRef) : Action Unit := do
  let q ← Entries.requireQueue n
  Queues.clear q
  Queues.stop q

end Stop

end QueueScript.Commands
