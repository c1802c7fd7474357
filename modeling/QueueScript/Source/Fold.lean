import QueueScript.Source.Line

/-!
# Blocks in flat words

The way back from words to blocks. An opening brace begins a block of the command being read, a
closing brace ends the innermost block, and a dash ends a command inside a block. Outside blocks,
dashes and closing braces are ordinary words. The reader keeps the commands whose blocks are open as
a stack.
-/

namespace QueueScript.Source

/-- A command whose words are being read. The lists are in reverse. -/
structure Draft where
  /-- The words before the first block. -/
  words : List String
  /-- The blocks that are complete. -/
  blocks : List (Block Line)
  /-- The words after the last block. -/
  header : List String

/-- Nothing read yet. -/
def Draft.empty : Draft := ⟨[], [], []⟩

/-- The draft with one more word. -/
def Draft.push (d : Draft) (w : String) : Draft :=
  if d.blocks.isEmpty then { d with words := w :: d.words } else { d with header := w :: d.header }

/-- The draft with one more block, which the words after the last block introduce. -/
def Draft.close (d : Draft) (lines : List Line) : Draft :=
  { d with blocks := ⟨d.header.reverse, lines⟩ :: d.blocks, header := [] }

/-- The line of a draft that has a command word. -/
def Draft.line? (d : Draft) (number : Int) : Option Line :=
  match d.words.reverse with
  | [] => none
  | command :: args => some ⟨command, args, d.blocks.reverse, number⟩

/-- An open block: the command it belongs to, and its lines so far in reverse. -/
structure Open where
  /-- The command that the block belongs to. -/
  owner : Draft
  /-- The lines that are complete. -/
  lines : List Line

/-- The lines of an open block, the command being read at their end. -/
def Open.linesWith (o : Open) (d : Draft) (number : Int) : List Line :=
  match d.line? number with
  | some line => line :: o.lines
  | none => o.lines

/-- What words fold into. -/
structure Folded where
  /-- The words before the first block. -/
  args : List String
  /-- The blocks. -/
  blocks : List (Block Line)
  /-- Whether a block was never closed. -/
  unclosed : Bool

/-- The end of the words: every open block is closed. -/
def finishFold (number : Int) : List Open → Draft → Draft
  | [], d => d
  | o :: rest, d => finishFold number rest (o.owner.close (o.linesWith d number).reverse)

/-- The words folded into the command being read, below the open blocks. -/
def foldFrom (number : Int) : List Open → Draft → List String → Folded
  | stack, d, [] =>
    let done := finishFold number stack d
    ⟨done.words.reverse, done.blocks.reverse, !stack.isEmpty⟩
  | stack, d, w :: ws =>
    if w = "\x7b" then foldFrom number (⟨d, []⟩ :: stack) .empty ws
    else
      match stack with
      | [] => foldFrom number [] (d.push w) ws
      | o :: rest =>
        if w = "\x7d" then foldFrom number rest (o.owner.close (o.linesWith d number).reverse) ws
        else if w = "-" then foldFrom number (⟨o.owner, o.linesWith d number⟩ :: rest) .empty ws
        else foldFrom number (o :: rest) (d.push w) ws

/-- Flat words folded into words and blocks, whose lines all get the same number. -/
def fold (words : List String) (number : Int) : Folded :=
  foldFrom number [] .empty words

/-- Whether a brace stands against the end of a word where a blank belongs. -/
def hasGluedBrace (w : String) : Bool :=
  match w.toList.reverse with
  | '{' :: '<' :: _ => false
  | '{' :: _ :: _ => true
  | _ => false

/-- The words with a glued brace set apart. -/
def ungluedWord (w : String) : List String :=
  if hasGluedBrace w then [String.ofList w.toList.dropLast, "\x7b"] else [w]

end QueueScript.Source
