import QueueScript.Engine.Background
import QueueScript.Engine.Scripts

/-!
# What commands share

A command has two steps: parsing stores its arguments as objects on the entry, and executing reads
them back. Here are the steps that several commands take.
-/

namespace QueueScript.Commands

/-- The arguments of an entry as they were last resolved. -/
def arguments (n : EntryRef) : Action (List Argument) := do
  pure (← Action.entry n).arguments

/-- Whether something is stored under a key. -/
def has (n : EntryRef) (key : String) : Action Bool := do
  pure ((← Action.entry n).hasObject key)

/-- The command has no use for an argument. -/
def refuseArgument (a : Argument) : Action Unit :=
  Action.refuse (.unknown a.text)

/-- Takes no arguments beyond those that are read by key or by word. -/
def takeNone (n : EntryRef) : Action Unit := do
  Action.each refuseArgument (← arguments n)

/-- Reports parsed values under the name of the command. -/
def report (n : EntryRef) (values : List (String × String)) : Action Unit := do
  Action.report (← Action.entry n).code.handler.name values (← Entries.scope n)

/-- The word for a truth value. -/
def truthText (b : Bool) : String :=
  if b then "true" else "false"

/-- The blocks of an entry. -/
def branches (n : EntryRef) : Action (List (Branch EntryRef)) := do
  pure (← Action.entry n).blocks

end QueueScript.Commands
