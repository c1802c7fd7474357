import QueueScript.Engine.Commands.Basic

/-!
# Commands of the host

Commands that a host adds to an engine, each described by data: how it reads its arguments and what
it does.
-/

namespace QueueScript.Commands.Host

/-- Stores every argument: as shown, its key, its value, and whether the key came out of a tag. -/
def record (n : EntryRef) : Action Unit := do
  let args ← arguments n
  Entries.store n "args" (.list (args.map fun a => .str a.text))
  Entries.store n "prefixes" (.list (args.map fun a => (a.key.map Value.str).getD .null))
  Entries.store n "values" (.list (args.map (·.object)))
  Entries.store n "dynamic" (.list (args.map fun a => .bool a.keyWasDynamic))

/-- Reads the arguments as the host says. -/
def parse (command : HostCommand) (n : EntryRef) : Action Unit :=
  match command.parse with
  | .refuse => takeNone n
  | .record => record n

/-- Puts clones of the entries of the first block at the head of the queue. -/
def injectFirst (n : EntryRef) : Action Unit := do
  match ← branches n with
  | [] => pure ()
  | branch :: _ =>
    let q ← Entries.requireQueue n
    Queues.inject q (← Entries.spawn n branch.body)

/-- Writes the name and the arguments to the log. -/
def logArguments (n : EntryRef) : Action Unit := do
  let name := (← Action.entry n).code.handler.name
  let args := (← Entries.element? n "args").getD "null"
  Action.log (name ++ ": " ++ args) (← Entries.scope n)

/-- Does what the host says. -/
def execute (command : HostCommand) (n : EntryRef) : Action Unit :=
  match command.action with
  | .failRuntime => Action.breakOff (.host command.message)
  | .failArguments => Action.refuse (.host command.message)
  | .failError => Action.fail (.host command.message)
  | .failBare => Action.fail (.bare command.message)
  | .hold => pure ()
  | .finish => Entries.finish n
  | .work => Background.launch n (.give command.value)
  | .workFails => Background.launch n (.fail command.message)
  | .workResultFails => Background.launch n (.giveUnusable command.message)
  | .inject => injectFirst n
  | .needQueue => do
    let _ ← Entries.requireQueue n
    pure ()
  | .log => logArguments n

end QueueScript.Commands.Host
