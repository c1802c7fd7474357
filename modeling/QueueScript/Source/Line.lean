import QueueScript.Words

/-!
# Command lines and their blocks

A command line has a command word, arguments, and any number of blocks of further command lines.
Written out flat, a block is its header words, an opening brace, its lines each after a dash, and a
closing brace.
-/

namespace QueueScript

/-- A block of lines of a command, with the words written before its brace. -/
structure Block (α : Type) where
  /-- The words between the block before and this one; none for the first. -/
  header : List String
  /-- What the block holds. -/
  lines : List α
  deriving Inhabited

/-- A command line. -/
structure Line where
  /-- The command word as written. -/
  command : String
  /-- The words before the first block. -/
  args : List String
  /-- The blocks of the command. -/
  blocks : List (Block Line)
  /-- The number of the source line, counted from one. -/
  number : Int
  deriving Inhabited

namespace Line

mutual

/-- Blocks written out flat. -/
def flattenBlocks : List (Block Line) → List String
  | [] => []
  | ⟨header, lines⟩ :: rest =>
    header ++ "\x7b" :: flattenLines lines ++ "\x7d" :: flattenBlocks rest

/-- Lines of a block written out flat. -/
def flattenLines : List Line → List String
  | [] => []
  | ⟨command, args, blocks, _⟩ :: rest =>
    "-" :: command :: args ++ flattenBlocks blocks ++ flattenLines rest

end

end Line

end QueueScript
