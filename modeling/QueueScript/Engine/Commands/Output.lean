import QueueScript.Engine.Commands.Basic

/-!
# Output

The command that writes a message: to the log, as a trace, or as an error.
-/

namespace QueueScript.Commands.Debug

/-- The kinds of messages. -/
def kinds : List String := Builtin.messageKinds

/-- The kind that the first argument names, if there are more, and the arguments that make up the
message. -/
def splitKind : List Argument → Option String × List Argument
  | first :: second :: rest =>
    if first.key.isNone && first.isWord kinds then (some (Text.lower first.raw), second :: rest)
    else (none, first :: second :: rest)
  | args => (none, args)

/-- Stores the kind and the message. -/
def parse (n : EntryRef) : Action Unit := do
  let (kind, words) := splitKind (← arguments n)
  if let some kind := kind then
    Entries.store n "type" (.str kind)
  if words.isEmpty then
    Action.refuse .noMessage
  Entries.storeDefault n "type" (.str "log")
  Entries.store n "message" (.str (String.intercalate " " (words.map Argument.text)))

/-- Writes the message. -/
def execute (n : EntryRef) : Action Unit := do
  let message := (← Entries.element? n "message").getD ""
  let scope ← Entries.scope n
  match ← Entries.element? n "type" with
  | some "echo" => Action.trace message scope
  | some "error" => Action.error message scope none
  | _ => Action.log message scope

end QueueScript.Commands.Debug
