import QueueScript.Failure

/-!
# Diagnostics

What an engine tells its host: the output of scripts, traces, reports of parsed values and errors.
Errors are always shown, with the place they come from and an excerpt of the script; traces and
reports only while tracing is on and the script does not silence them.
-/

namespace QueueScript

/-! ## Where something happened -/

/-- Where a diagnostic comes from. -/
structure Scope where
  /-- The id of the queue. -/
  queue : Option String := none
  /-- The name of the script. -/
  script : Option String := none
  /-- The number of the source line. -/
  line : Option Int := none
  /-- The command as it is shown. -/
  command : Option String := none
  /-- The text of the script. -/
  source : Option String := none
  /-- Whether traces are wanted. -/
  traced : Bool := true

/-- A text that is given and not empty. -/
def given (s : Option String) : Option String :=
  s.filter (! ·.isEmpty)

/-- The parts of a scope that name a place. -/
def Scope.places (s : Scope) : List String :=
  ((given s.queue).map ("queue " ++ ·)).toList ++
    ((given s.script).map ("script " ++ ·)).toList ++
    ((s.line.filter (0 < ·)).map ("line " ++ Number.intText ·)).toList

/-- A line number in three columns. -/
def padded (n : Nat) : String :=
  let digits := Nat.toDigits 10 n
  String.ofList (List.replicate (3 - digits.length) ' ' ++ digits)

/-- One line of an excerpt, counted from zero. -/
def excerptLine (marked index : Nat) (text : String) : String :=
  "  " ++ (if index = marked then ">" else " ") ++ padded (index + 1) ++ " | " ++ text

/-- The lines around a line of a script, two on each side. -/
def excerpt (source : String) (line : Nat) : Option String :=
  let lines := Text.splitAt '\n' source
  let marked := line - 1
  if marked < lines.length then
    let start := marked - 2
    let shown := (lines.take (marked + 3)).drop start
    some (String.intercalate "\n"
      (shown.zipIdx.map fun (text, i) => excerptLine marked (start + i) text))
  else none

/-- A message with the place it comes from. -/
def Scope.locate (s : Scope) (message : String) : String :=
  let places := s.places
  let located :=
    if places.isEmpty then message else message ++ "\n  at " ++ String.intercalate ", " places
  let executing :=
    match given s.command with
    | some command => located ++ "\n  while executing: " ++ command
    | none => located
  match given s.source, s.line.filter (0 < ·) with
  | some source, some line =>
    match excerpt source line.toNat with
    | some text => executing ++ "\n\nContext:\n" ++ text
    | none => executing
  | _, _ => executing

/-! ## Events -/

/-- The kinds of diagnostics. -/
inductive EventKind where
  /-- Output of a script. -/
  | log
  /-- A trace. -/
  | debug
  /-- An error. -/
  | error
  /-- The values that a command parsed. -/
  | report
  /-- A command about to run. -/
  | execute
  deriving DecidableEq, Repr

/-- The name of a kind. -/
def EventKind.name : EventKind → String
  | .log => "log"
  | .debug => "debug"
  | .error => "error"
  | .report => "report"
  | .execute => "execute"

/-- A diagnostic. -/
structure Event where
  /-- Its kind. -/
  kind : EventKind
  /-- Its text. -/
  message : String
  /-- The id of the queue it comes from. -/
  queue : Option String
  /-- The name of the script it comes from. -/
  script : Option String
  /-- The source line it comes from. -/
  line : Option Int
  /-- The command it comes from. -/
  command : Option String
  /-- The failure behind it. -/
  failure : Option Failure

/-- A diagnostic from a place. -/
def Event.at (kind : EventKind) (message : String) (s : Scope) (failure : Option Failure) : Event :=
  ⟨kind, message, s.queue, s.script, s.line, s.command, failure⟩

/-- Output of a script. -/
def Event.log (message : String) (s : Scope) : Event :=
  .at .log message s none

/-- An error, with the place it comes from. -/
def Event.error (message : String) (s : Scope) (failure : Option Failure) : Event :=
  .at .error (s.locate message) s failure

/-- A trace. -/
def Event.trace (message : String) (s : Scope) : Event :=
  .at .debug message s none

/-- A command about to run. -/
def Event.executing (command : String) (s : Scope) : Event :=
  .at .execute ("Executing: " ++ command) s none

/-- A report of parsed values. -/
def Event.report (name : String) (values : List (String × String)) (s : Scope) : Event :=
  let parts := values.map fun (k, v) => k ++ "=" ++ v
  .at .report (Text.trim (name ++ ": " ++ String.intercalate " " parts)) s none

/-- Traces, reports and announcements of commands, which are shown only when tracing. -/
def EventKind.isTrace : EventKind → Bool
  | .debug | .report | .execute => true
  | .log | .error => false

/-- Whether a diagnostic from a place is shown. -/
def Event.isShown (e : Event) (tracing : Bool) (s : Scope) : Bool :=
  !e.kind.isTrace || (tracing && s.traced)

/-- The line that shows a diagnostic on a console. -/
def Event.consoleLine (e : Event) : String :=
  let place :=
    match given e.queue with
    | some q => " " ++ q
    | none => ""
  "[CueScript" ++ place ++ "] " ++ e.message

end QueueScript
