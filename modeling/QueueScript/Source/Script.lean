import QueueScript.Source.Line
import QueueScript.Number

/-!
# Script texts

A script has one command a line, which may be written as a list item after a dash. Blank lines and
lines that start with a hash are passed over. A line that ends in an unquoted brace opens a block, a
line that starts with a closing brace closes one, and `} else {` does both. Faults are noted and
reading goes on.
-/

namespace QueueScript.Source

/-- What is wrong with a script text. -/
inductive ScriptFault where
  /-- A closing brace where no block is open. -/
  | strayClose
  /-- Text after a closing brace that opens no block. -/
  | textAfterClose
  /-- A block that is never closed, and the command that opened it. -/
  | unclosed (command : String)
  deriving DecidableEq, Repr

/-- The wording of a fault. -/
def ScriptFault.message : ScriptFault → String
  | .strayClose => "Unexpected '\x7d' without an open block."
  | .textAfterClose => "Unexpected text after '\x7d'."
  | .unclosed command => "Block opened by '" ++ command ++ "' is never closed."

/-- A fault and the line it was found on. -/
structure ScriptNote where
  /-- What is wrong. -/
  fault : ScriptFault
  /-- The number of the source line. -/
  line : Int
  deriving DecidableEq, Repr

/-- The command lines of a script and the faults found in it, both in order. -/
structure Script where
  /-- The command lines. -/
  lines : List Line
  /-- The faults. -/
  notes : List ScriptNote

/-! ## One line of source -/

/-- The words of a line, with a brace typed against the last word set apart. A last word that starts
with a tag keeps it. -/
def lineWords (text : String) : List Word :=
  let ws := splitWords text
  match ws.getLast? with
  | some last =>
    if !last.quoted && decide (1 < last.text.length) && last.text.endsWith "\x7b" &&
        !last.text.startsWith "<" then
      ws.dropLast ++ [⟨String.ofList last.text.toList.dropLast, false⟩, ⟨"\x7b", false⟩]
    else ws
  | none => ws

/-- Whether the words end in a brace that opens a block. -/
def opensBlock (ws : List Word) : Bool :=
  ws.getLast? == some ⟨"\x7b", false⟩

/-- What a line of source means. -/
inductive Statement where
  /-- Blank, a comment, or no command. -/
  | nothing
  /-- A closing brace and the words after it. -/
  | close (rest : List Word)
  /-- A command, its arguments, and whether it opens a block. -/
  | command (word : String) (args : List String) (opens : Bool)

/-- The text of a line without the dash of a list item. -/
def withoutDash (line : String) : String :=
  if line = "-" then ""
  else if line.startsWith "- " then String.ofList (line.toList.drop 2)
  else line

/-- The meaning of a line of source. -/
def Statement.ofLine (text : String) : Statement :=
  let line := Text.trim text
  if line.isEmpty || line.startsWith "#" then .nothing
  else if line.startsWith "\x7d" then .close (lineWords (String.ofList (line.toList.drop 1)))
  else
    let ws := lineWords (withoutDash line)
    let opens := opensBlock ws
    match Word.texts (if opens then ws.dropLast else ws) with
    | [] => .nothing
    | word :: args => .command word args opens

/-! ## Nesting -/

/-- A command one of whose blocks is open. -/
structure OpenLine where
  /-- The command word. -/
  command : String
  /-- Its arguments. -/
  args : List String
  /-- The number of its source line. -/
  number : Int
  /-- The blocks that are complete, in reverse. -/
  done : List (Block Line)
  /-- The header of the open block. -/
  header : List String
  /-- The lines of the open block, in reverse. -/
  lines : List Line

/-- The blocks of the command, the open one included, in reverse. -/
def OpenLine.closed (o : OpenLine) : List (Block Line) :=
  ⟨o.header, o.lines.reverse⟩ :: o.done

/-- The command line, its open block closed. -/
def OpenLine.line (o : OpenLine) : Line :=
  ⟨o.command, o.args, o.closed.reverse, o.number⟩

/-- How far a script has been read. The lists are in reverse. -/
structure Progress where
  /-- The lines outside any block. -/
  lines : List Line
  /-- The commands whose blocks are open, the innermost first. -/
  stack : List OpenLine
  /-- The faults so far. -/
  notes : List ScriptNote

/-- The start of a script. -/
def Progress.start : Progress := ⟨[], [], []⟩

/-- One more complete line, in the innermost open block if there is one. -/
def Progress.add (p : Progress) (line : Line) : Progress :=
  match p.stack with
  | [] => { p with lines := line :: p.lines }
  | o :: rest => { p with stack := { o with lines := line :: o.lines } :: rest }

/-- One more fault. -/
def Progress.note (p : Progress) (fault : ScriptFault) (line : Int) : Progress :=
  { p with notes := ⟨fault, line⟩ :: p.notes }

/-- The progress after one line of source. -/
def Progress.step (p : Progress) (number : Int) (text : String) : Progress :=
  match Statement.ofLine text with
  | .nothing => p
  | .close rest =>
    match p.stack with
    | [] => p.note .strayClose number
    | o :: outer =>
      if rest.isEmpty then { p with stack := outer }.add o.line
      else if opensBlock rest then
        let next := { o with done := o.closed, header := Word.texts rest.dropLast, lines := [] }
        { p with stack := next :: outer }
      else ({ p with stack := outer }.add o.line).note .textAfterClose number
  | .command word args opens =>
    if opens then { p with stack := ⟨word, args, number, [], [], []⟩ :: p.stack }
    else p.add ⟨word, args, [], number⟩

/-- The progress after lines of source that start at a number. -/
def Progress.steps (p : Progress) (number : Int) : List String → Progress
  | [] => p
  | text :: rest => (p.step number text).steps (number + 1) rest

/-- The outermost command, once a complete line is put into the innermost open block and all blocks
are closed. -/
def closeAround (line : Line) : List OpenLine → Line
  | [] => line
  | o :: outer => closeAround { o with lines := line :: o.lines }.line outer

/-- The lines outside any block, once every block that is still open is closed, in reverse. -/
def Progress.closed (p : Progress) : List Line :=
  match p.stack with
  | [] => p.lines
  | o :: outer => closeAround o.line outer :: p.lines

/-- The script read. The outermost block that is still open is a fault of the command that opened
it. -/
def Progress.finish (p : Progress) : Script :=
  let noted :=
    match p.stack.getLast? with
    | some o => p.note (.unclosed o.command) o.number
    | none => p
  ⟨p.closed.reverse, noted.notes.reverse⟩

/-- The command lines of a script text. -/
def parse (source : String) : Script :=
  (Progress.start.steps 1 (Text.splitAt '\n' source)).finish

end QueueScript.Source
