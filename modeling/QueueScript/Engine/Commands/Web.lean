import QueueScript.Engine.Commands.Files

/-!
# Web requests

The command that sends a web request. The request is always sent in the background; an entry that
is not waited for lets the queue go on meanwhile.
-/

namespace QueueScript.Commands.Web

/-- Whether an address has a scheme of the web, case aside. -/
def hasWebScheme (url : String) : Bool :=
  ["http://", "https://"].any fun scheme =>
    (url.toList.take scheme.length).map Char.toLower == scheme.toList

/-- How long to wait for a response if nothing is said, in milliseconds. -/
def defaultTimeout : Float := 10000.0

/-- Stores one argument, the address. An address looks like an argument with a key, so it is taken
as shown. -/
def take (n : EntryRef) (a : Argument) : Action Unit := do
  if ← has n "url" then
    refuseArgument a
  Entries.store n "url" (.str a.text)

/-- The request method: what is asked for, or else what suits the presence of a body. -/
def method (calls : Calls) (n : EntryRef) : Action String := do
  let hasBody := (← Entries.argument? calls n "data").isSome
  let asked ← Entries.argumentText? calls n "method"
  let method := Text.upper (asked.getD (if hasBody then "POST" else "GET"))
  if Builtin.webMethods.contains method then pure method
  else Action.refuse (.unknownMethod method Builtin.webMethods)

/-- Stores the address, the method and the time limit. -/
def parse (calls : Calls) (n : EntryRef) : Action Unit := do
  Action.each (take n) (← arguments n)
  match ← Entries.element? n "url" with
  | none => Action.refuse .noUrl
  | some url =>
    if !hasWebScheme url then
      Action.refuse (.badUrl url)
  Entries.store n "method" (.str (← method calls n))
  let timeout ←
    match ← Entries.argument? calls n "timeout" with
    | some a => Action.ofExcept .arguments a.asDuration
    | none => pure defaultTimeout
  Entries.store n "timeout" (.num timeout)

/-- Where the body of the response is to be written, which must be allowed. -/
def savePath (calls : Calls) (n : EntryRef) : Action (Option Path) := do
  match ← Entries.argumentText? calls n "savefile" with
  | none => pure none
  | some target =>
    Files.requireAllowed (·.allowFileWrite) "Writing files is" "allowFileWrite"
    some <$> Files.requirePath target

/-- The body that a value makes: binary data and texts as they are, all else as JSON. -/
def bodyOf : Value → Value
  | .bytes b => .bytes b
  | .str s => .str s
  | v => .str v.json

/-- The request that an entry asks for. -/
def request (calls : Calls) (n : EntryRef) : Action WebRequest := do
  let saveTo ← savePath calls n
  let headers ← Entries.argument? calls n "headers"
  let body ← Entries.argument? calls n "data"
  let url := (← Entries.element? n "url").getD ""
  let method := (← Entries.element? n "method").getD "GET"
  let headers ←
    match headers with
    | some a => Action.ofExcept id (← Action.reveal a.object).asMap
    | none => pure []
  let body ←
    match body with
    | some a => do pure (some (bodyOf (← Action.reveal a.object)))
    | none => pure none
  let timeout ← Entries.count n "timeout"
  let isSilent ← Entries.flag calls n "hide_failure"
  pure { url, method, headers, body, timeout, saveTo, isSilent }

/-- Sends the request. -/
def execute (calls : Calls) (n : EntryRef) : Action Unit := do
  Files.requireAllowed (·.allowWebget) "Web requests are" "allowWebget"
  let r ← request calls n
  report n [("url", r.url), ("method", r.method), ("timeout", Duration.text r.timeout)]
  Background.launch n (.request r)

end QueueScript.Commands.Web
