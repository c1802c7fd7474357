import QueueScript.Text.Blank

/-!
# Words of a command line

A command line is split into words at white space, except inside quotes and inside tags. A quote
opens a section at the start of a word or right after a colon, and closes it where white space or
the end of the line follows. A word that would not survive being split again is shown in quotes.
-/

namespace QueueScript

/-! ## Tags in a text -/

/-- Whether the first of these characters opens a tag: a `<` that neither white space nor `=` nor
another `<` follows, and that is not the last character. -/
def opensTag : List Char → Bool
  | '<' :: next :: _ => !Text.isBlank next && next != '=' && next != '<'
  | _ => false

/-! ## Splitting -/

/-- A word of a command line. -/
structure Word where
  /-- The word, without its quotes. -/
  text : String
  /-- Whether any part of it was written in quotes. -/
  quoted : Bool
  deriving DecidableEq, Repr

/-- The words of a line of plain texts. -/
def Word.texts (ws : List Word) : List String :=
  ws.map (·.text)

/-- Whether a quote at the head of these characters would close a section: white space or nothing
follows it. -/
def closesHere (quote : Char) : List Char → Bool
  | [] => false
  | [c] => c == quote
  | c :: next :: _ => c == quote && Text.isBlank next

/-- Whether a quote that closes a section occurs among these characters. -/
def closesLater (quote : Char) : List Char → Bool
  | [] => false
  | c :: rest => closesHere quote (c :: rest) || closesLater quote rest

/-- The word being read. -/
structure Reading where
  /-- Its characters so far, in reverse. -/
  chars : List Char
  /-- Whether there is a word at all; an empty one may have been written in quotes. -/
  started : Bool
  /-- Whether any part of it was in quotes. -/
  quoted : Bool
  /-- The quote that the section being read waits for. -/
  awaited : Option Char
  /-- How many tags are open. -/
  depth : Nat

/-- Nothing read yet. -/
def Reading.start : Reading := ⟨[], false, false, none, 0⟩

/-- The word read, if there is one. -/
def Reading.word (r : Reading) : List Word :=
  if r.started then [⟨String.ofList r.chars.reverse, r.quoted⟩] else []

/-- The reading with one more character. -/
def Reading.push (r : Reading) (c : Char) : Reading :=
  { r with chars := c :: r.chars, started := true }

/-- Whether a quote may open a section now: outside tags, at the start of a word or after a colon. -/
def Reading.mayQuote (r : Reading) : Bool :=
  r.depth == 0 && (r.chars.isEmpty || r.chars.head? == some ':')

/-- The number of open tags after the first of these characters. -/
def depthAfter (depth : Nat) : List Char → Nat
  | [] => depth
  | c :: rest =>
    if opensTag (c :: rest) then depth + 1
    else if c = '>' then depth - 1
    else depth

/-- The words of the characters, from a word being read. -/
def wordsFrom (r : Reading) : List Char → List Word
  | [] => r.word
  | c :: rest =>
    match r.awaited with
    | some quote =>
      if closesHere quote (c :: rest) then wordsFrom { r with awaited := none } rest
      else wordsFrom (r.push c) rest
    | none =>
      if (c = '"' ∨ c = '\'') ∧ r.mayQuote = true ∧ closesLater c rest = true then
        wordsFrom { r with started := true, quoted := true, awaited := some c } rest
      else
        let depth := depthAfter r.depth (c :: rest)
        if depth = 0 ∧ Text.isBlank c = true then r.word ++ wordsFrom .start rest
        else wordsFrom { r.push c with depth } rest

/-- The words of a command line. -/
def splitWords (line : String) : List Word :=
  wordsFrom .start line.toList

/-! ## Showing -/

/-- A word as it is shown: in quotes if it is empty or has white space, in double quotes unless it
contains one. -/
def showWord (w : String) : String :=
  if w.isEmpty || Text.hasBlank w then
    if w.toList.contains '"' then "'" ++ w ++ "'" else "\"" ++ w ++ "\""
  else w

/-- Words as they are shown, with single spaces between them. -/
def showWords (ws : List String) : String :=
  String.intercalate " " ws

/-! ## Lists and keys -/

/-- The items of a list written with bars; the empty text has none. -/
def splitList (s : String) : List String :=
  if s.isEmpty then [] else Text.splitAt '|' s

/-- A character that may stand in a key when not every symbol is allowed there. -/
def isKeyChar (c : Char) : Bool :=
  c.isAlphanum || c == '_' || c == '.'

/-- The key and the value of a word written `key:value`. The key is not empty and, unless any symbol
is allowed, has only letters, digits, underscores and points. -/
def splitKey? (anySymbol : Bool) (w : String) : Option (String × String) :=
  let cs := w.toList
  match cs.takeWhile (· != ':'), cs.dropWhile (· != ':') with
  | key, _ :: value =>
    if !key.isEmpty && (anySymbol || key.all isKeyChar) then
      some (String.ofList key, String.ofList value)
    else none
  | _, [] => none

/-- Whether a word has a colon that is not its first character. -/
def hasInnerColon (w : String) : Bool :=
  match w.toList with
  | [] => false
  | c :: rest => c != ':' && rest.contains ':'

end QueueScript
