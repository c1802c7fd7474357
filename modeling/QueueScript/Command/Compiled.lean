import QueueScript.Command.Handler
import QueueScript.Diagnostics
import QueueScript.Source.Fold

/-!
# Compiled commands

A command line is compiled once into everything that can be known before it runs: its handler, its
arguments with their templates, which of them are read by key, and its blocks, compiled in turn.
Compiling never fails. What is wrong is noted, and a command that is unknown or has a wrong number
of arguments gets the handler that reports it when it runs.
-/

namespace QueueScript

/-- A block of a compiled command. -/
structure Branch (α : Type) where
  /-- The command word for the first block, the words before the block for a later one. -/
  key : String
  /-- The words before the block. -/
  args : List String
  /-- The commands of the block. -/
  body : List α

/-- The script that a command belongs to: its number in the engine, and its name. -/
structure ScriptRef where
  /-- The number of the script. -/
  number : Nat
  /-- The name of the script. -/
  name : String
  deriving DecidableEq, Repr

/-- A compiled command. -/
structure Compiled where
  /-- The command word in lower case, without a mark. -/
  keyword : String
  /-- The handler that runs. -/
  handler : Handler
  /-- The handler that was asked for, if a wrong number of arguments replaced it. -/
  intended : Option Handler
  /-- The words as given, blocks written out flat. -/
  words : List String
  /-- The words without those that are resolved first, blocks written out flat. -/
  counted : List String
  /-- The arguments that are resolved before the others: the condition, the name to save under, and
  what the handler reserves. -/
  metaArgs : List CompiledArgument
  /-- The other arguments before the first block. -/
  args : List CompiledArgument
  /-- The arguments that the handler parses. -/
  parsed : List CompiledArgument
  /-- The arguments without a tag, in lower case. -/
  literals : List String
  /-- For each key without a tag, the position of the first argument that has it. -/
  positions : Keyed Nat
  /-- The blocks, if the handler owns blocks. -/
  branches : Option (List (Branch Compiled))
  /-- Whether there are blocks. -/
  hasBlocks : Bool
  /-- Whether it was marked to run at once. -/
  instant : Bool
  /-- Whether the queue waits for it. -/
  waits : Bool
  /-- Whether any argument has a tag. -/
  hasTags : Bool
  /-- Whether the number of arguments was wrong. -/
  wrongCount : Bool
  /-- The number of its source line. -/
  line : Int
  /-- The script it belongs to. -/
  script : Option ScriptRef

/-! ## What may be wrong -/

/-- What is wrong with a command that is being compiled. -/
inductive BuildFault where
  /-- There is no such command. -/
  | unknown (keyword : String)
  /-- The command cannot be waited for. -/
  | cannotWait (keyword : String)
  /-- A brace stands against an argument. -/
  | gluedBrace (keyword arg : String)
  /-- A block is never closed. -/
  | unclosed (keyword : String)
  deriving DecidableEq, Repr

/-- The wording of a fault. -/
def BuildFault.message : BuildFault → String
  | .unknown keyword => "Unknown command '" ++ keyword ++ "'."
  | .cannotWait keyword => "The command '" ++ keyword ++ "' cannot be waited for!"
  | .gluedBrace keyword arg =>
    "Command '" ++ keyword ++ "' has argument '" ++ arg ++
      "', which is missing a space before '\x7b'."
  | .unclosed keyword => "Command '" ++ keyword ++ "' has an unclosed block."

/-- A fault and where it was found. -/
structure BuildNote where
  /-- What is wrong. -/
  fault : BuildFault
  /-- Where. -/
  scope : Scope

/-- A note as a diagnostic. -/
def BuildNote.event (n : BuildNote) : Event :=
  .error n.fault.message n.scope none

/-! ## The parts of a compiled command -/

/-- A command word with its mark taken off. -/
structure Keyword where
  /-- The word in lower case. -/
  word : String
  /-- Whether it was marked to run at once. -/
  instant : Bool
  /-- Whether it was marked to be waited for. -/
  waits : Bool

/-- The reading of a command word. -/
def Keyword.ofCommand (command : String) : Keyword :=
  match command.toList with
  | '^' :: rest => ⟨Text.lower (String.ofList rest), true, false⟩
  | '~' :: rest => ⟨Text.lower (String.ofList rest), false, true⟩
  | _ => ⟨Text.lower command, false, false⟩

/-- The keys that every command understands. -/
def metaKeys : List String := ["if", "save"]

/-- Whether a word is resolved before the others. -/
def Handler.isMeta (h : Handler) (w : String) : Bool :=
  match splitKey? h.anyKeySymbol w with
  | some (key, _) =>
    let lower := Text.lower key
    metaKeys.contains lower || h.reservedKeys.contains lower
  | none => false

/-- For each key without a tag, the position of the first argument that has it, from a position
on. -/
def positionsFrom (h : Handler) (start : Nat) (known : Keyed Nat) :
    List CompiledArgument → Keyed Nat
  | [] => known
  | a :: rest =>
    match a.literalKey? with
    | some key =>
      let canonical := h.canonicalKey key
      positionsFrom h (start + 1)
        (if known.has canonical then known else known.put canonical start) rest
    | none => positionsFrom h (start + 1) known rest

/-- What is known of a command before its blocks are compiled, and what was found wrong. -/
structure Assembled where
  /-- The command without its blocks. -/
  command : Compiled
  /-- What is wrong. -/
  notes : List BuildNote
  /-- The words that are not resolved before the others. -/
  plain : List String

/-- Where a command that is being compiled stands. -/
def buildScope (script : Option ScriptRef) (command : String) (words : List String)
    (number : Int) : Scope :=
  { script := script.map (·.name), line := some number,
    command := some (showWords (command :: words.map showWord)) }

/-- The faults of a command word: unknown, or waited for in vain. -/
def keywordFaults (found : Option Handler) (k : Keyword) : List BuildFault :=
  match found with
  | none => [.unknown k.word]
  | some h => if k.waits && !h.isHoldable then [.cannotWait k.word] else []

/-- The command without its blocks. `words` are the words as given with blocks flat, `before` those
before the first block. -/
def assemble (catalogue : Catalogue) (script : Option ScriptRef) (command : String)
    (words before : List String) (blocks : List (Block Line)) (number : Int) : Assembled :=
  let k := Keyword.ofCommand command
  let found := catalogue.find? k.word
  let asked := found.getD Handler.stub
  let scope := buildScope script command words number
  let waits := (k.waits && found.all (·.isHoldable)) || asked.isAlwaysHeld
  let plain := before.filter (!asked.isMeta ·)
  let metaArgs := (before.filter asked.isMeta).map (.ofWord asked.anyKeySymbol)
  let args := plain.map (.ofWord asked.anyKeySymbol)
  let counted := plain ++ Line.flattenBlocks blocks
  let hasBlocks := !blocks.isEmpty
  let wrongCount := !asked.isStub && asked.refusesCount counted.length hasBlocks
  { command :=
      { keyword := k.word
        handler := if wrongCount then Handler.stub else asked
        intended := if wrongCount then some asked else none
        words, counted, metaArgs, args
        parsed := args.filter asked.parsesArgument
        literals := (args.filter (!·.isDynamic)).map (Text.lower ·.raw)
        positions := positionsFrom asked 0 [] args
        branches := none
        hasBlocks
        instant := k.instant
        waits
        hasTags := (metaArgs ++ args).any (·.isDynamic)
        wrongCount
        line := number
        script }
    notes := (keywordFaults found k).map (⟨·, scope⟩)
    plain }

/-! ## Compiling -/

mutual

/-- The command of a line whose blocks are already apart. -/
def buildLine (catalogue : Catalogue) (script : Option ScriptRef) :
    Line → Compiled × List BuildNote
  | ⟨command, args, blocks, number⟩ =>
    let words := args ++ Line.flattenBlocks blocks
    let a := assemble catalogue script command words args blocks number
    if a.command.handler.isBraced then
      let (branches, notes) := buildBlocks catalogue script (some (a.command.keyword, a.plain)) blocks
      ({ a.command with branches := some branches }, a.notes ++ notes)
    else (a.command, a.notes)

/-- The blocks of a command. The first one takes its key and words from the command, as `first`
says. -/
def buildBlocks (catalogue : Catalogue) (script : Option ScriptRef)
    (first : Option (String × List String)) :
    List (Block Line) → List (Branch Compiled) × List BuildNote
  | [] => ([], [])
  | ⟨header, lines⟩ :: rest =>
    let (key, args) := first.getD (Text.lower (showWords header), header)
    let (body, notes) := buildLines catalogue script lines
    let (branches, later) := buildBlocks catalogue script none rest
    (⟨key, args, body⟩ :: branches, notes ++ later)

/-- The commands of lines. -/
def buildLines (catalogue : Catalogue) (script : Option ScriptRef) :
    List Line → List Compiled × List BuildNote
  | [] => ([], [])
  | line :: rest =>
    let (c, notes) := buildLine catalogue script line
    let (cs, later) := buildLines catalogue script rest
    (c :: cs, notes ++ later)

end

/-- The faults of words whose braces stand against an argument. -/
def gluedFaults (keyword : String) (words : List String) : List BuildFault :=
  (words.filter Source.hasGluedBrace).map (.gluedBrace keyword)

/-- The command of flat words, whose blocks are found by their braces. -/
def buildFlat (catalogue : Catalogue) (script : Option ScriptRef) (command : String)
    (words : List String) (number : Int) : Compiled × List BuildNote :=
  let folded := Source.fold (words.flatMap Source.ungluedWord) number
  let a := assemble catalogue script command words folded.args folded.blocks number
  let scope := buildScope script command words number
  let k := a.command.keyword
  let faults := gluedFaults k words ++ (if folded.unclosed then [.unclosed k] else [])
  let notes := a.notes ++ faults.map (⟨·, scope⟩)
  if a.command.handler.isBraced then
    let (branches, nested) := buildBlocks catalogue script (some (k, a.plain)) folded.blocks
    ({ a.command with branches := some branches }, notes ++ nested)
  else (a.command, notes)

namespace Compiled

/-- The command as it is shown: its mark, its word, and the words as given. -/
def render (c : Compiled) : String :=
  let mark :=
    if c.instant then "^"
    else if c.waits && !c.handler.isAlwaysHeld then "~"
    else ""
  showWords ((mark ++ c.keyword) :: c.words.map showWord)

/-- How the command is written, for a message. -/
def usageHint (c : Compiled) : String :=
  (c.intended.getD c.handler).usageHint

/-- The positions of the arguments that the handler parses. -/
def parsedPositions (c : Compiled) : List Nat :=
  let asked := c.intended.getD c.handler
  (c.args.zipIdx.filter fun p => asked.parsesArgument p.1).map (·.2)

/-- The argument with a key that has no tag. -/
def argument? (c : Compiled) (key : String) : Option CompiledArgument :=
  (c.positions.get? (Text.lower key)).bind fun i => c.args[i]?

end Compiled

end QueueScript
