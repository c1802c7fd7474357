import QueueScript.Engine.Commands.Dispatch

/-!
# Running one entry

An entry runs in steps: the arguments that every command understands are resolved first, then the
others, then the command parses and executes. A failure of any step is reported, and the entry is
done.
-/

namespace QueueScript.Executor

/-! ## Arguments that come first -/

/-- What the arguments that come first say. -/
inductive Prelude where
  /-- The entry is not to run; the outcome of its condition as text. -/
  | skip (outcome : String)
  /-- The entry is to run, and to be saved under a name if there is one. -/
  | run (saveAs : Option String)

/-- Whether the text of a condition lets an entry run. -/
def lets (outcome : String) : Bool :=
  let lower := Text.lower outcome
  lower == "true" || lower == "!false"

/-- Resolves the arguments that come first, up to a condition that does not hold. `saveAs` is the
last name so far to save under. Keys that the handler reserves are stored on the entry. -/
def prelude (calls : Calls) (n : EntryRef) (saveAs : Option String) :
    List CompiledArgument → Action Prelude
  | [] => pure (.run saveAs)
  | a :: rest => do
    let argument ← Entries.resolveArgument calls n a
    match Text.lower (argument.key.getD "") with
    | "if" =>
      if lets argument.raw then prelude calls n saveAs rest else pure (.skip argument.raw)
    | "save" => prelude calls n (some argument.raw) rest
    | key => do
      Entries.store n key argument.object
      prelude calls n saveAs rest

/-! ## The steps of an entry -/

/-- Saves an entry on the queue it runs on. -/
def save (n : EntryRef) (name : String) : Action Unit := do
  if let some q := ← Action.look (·.residingQueue n) then
    Queues.hold q name n

/-- The steps of an entry that is not skipped. -/
def perform (calls : Calls) (n : EntryRef) (saveAs : Option String) : Action Unit := do
  let _ ← Entries.resolveArguments calls n
  Commands.parse calls n
  Commands.execute calls n
  if let some name := saveAs then
    save n name
  if !(← Action.entry n).code.handler.isHoldable then
    Entries.finish n

/-- Runs an entry, or skips it. -/
def attempt (calls : Calls) (n : EntryRef) (scope : Scope) : Action Unit := do
  let code := (← Action.entry n).code
  match ← prelude calls n none code.metaArgs with
  | .skip outcome =>
    Action.trace ("Skipping '" ++ code.keyword ++ "': if:" ++ outcome) scope
    Entries.finish n
  | .run saveAs => perform calls n saveAs

/-- How a failure of a command is reported. -/
def failureText (code : Compiled) : Failure → String
  | .arguments f => "Invalid arguments were specified!\n" ++ f.message ++ "\n" ++ code.usageHint
  | .runtime f => f.message
  | f => "Internal error running '" ++ code.keyword ++ "': " ++ f.message

/-- Whether a command is refused because its queue runs a procedure. -/
def isRefused (e : Engine) (n : EntryRef) : Bool :=
  !(e.entry n).code.handler.isProcedural &&
    (e.residingQueue n).any fun q => (e.queue q).isProcedural

/-- Runs an entry. The outcome says whether it ran or was skipped, rather than failed. -/
def execute (calls : Calls) (n : EntryRef) : Action Bool := do
  Entries.refresh n
  let code := (← Action.entry n).code
  let scope ← Entries.scope n
  Action.announce code.render scope
  if ← Action.look (isRefused · n) then
    Action.error ("The command '" ++ code.keyword ++ "' cannot be used in a procedure.") scope none
    Entries.finish n
    pure false
  else
    Action.orElse
      (do
        attempt calls n scope
        pure true)
      (fun f => do
        Action.error (failureText code f) scope (some f)
        Entries.finish n
        pure false)

end QueueScript.Executor
