import QueueScript.Source.Script
import Mathlib.Data.List.Basic
import Mathlib.Data.List.Range

/-!
# No command of a script is lost or read twice

The forest that is read from a script is listed command by command, each before the lines of its blocks
(`Line.listing`).  The list is compared with the source read flat, line by line, with nothing but a count
of the blocks that are open (`blocksOpen`): there is one command for each line that has one, at the depth
that the count says, and with a block for its own brace and for every `} ... {` that follows at its level
(`parse_lists_commands`).

The script is read with the blocks that are open on a stack, which is the rightmost path of the forest.
`Progress.listing` lists what has been read with the blocks of the open commands that are still to come,
and one line of source more changes nothing but its end.
-/

namespace QueueScript

/-! ## Listing a forest -/

/-- A command of a forest of command lines. -/
structure ListedLine where
  /-- How many blocks it stands in. -/
  depth : Nat
  /-- The number of its source line. -/
  number : Int
  /-- The command word. -/
  command : String
  /-- Its arguments. -/
  args : List String
  /-- The headers of its blocks. -/
  headers : List (List String)

namespace Line

mutual

/-- The commands of lines that stand in a number of blocks, each before the ones in its blocks. -/
def listing (depth : Nat) : List Line → List ListedLine
  | [] => []
  | ⟨command, args, blocks, number⟩ :: rest =>
    ⟨depth, number, command, args, blocks.map (·.header)⟩ :: blockListing (depth + 1) blocks ++
      listing depth rest

/-- The commands in blocks, whose lines stand in a number of blocks. -/
def blockListing (depth : Nat) : List (Block Line) → List ListedLine
  | [] => []
  | ⟨_, lines⟩ :: rest => listing depth lines ++ blockListing depth rest

end

theorem listing_append (depth : Nat) (xs ys : List Line) :
    listing depth (xs ++ ys) = listing depth xs ++ listing depth ys := by
  induction xs with
  | nil => simp [listing]
  | cons line xs ih =>
    cases line
    simp [listing, ih]

theorem blockListing_append (depth : Nat) (xs ys : List (Block Line)) :
    blockListing depth (xs ++ ys) = blockListing depth xs ++ blockListing depth ys := by
  induction xs with
  | nil => simp [blockListing]
  | cons block xs ih =>
    cases block
    simp [blockListing, ih]

end Line

namespace Source

/-! ## Reading a source flat -/

/-- How many blocks are open after a line of source, from how many were open before it. -/
def Statement.openedAfter (opened : Nat) : Statement → Nat
  | .nothing => opened
  | .close rest => if opensBlock rest then opened else opened - 1
  | .command _ _ opens => if opens then opened + 1 else opened

/-- How many blocks are open after lines of source. -/
def blocksOpen (opened : Nat) (texts : List String) : Nat :=
  texts.foldl (fun opened text => (Statement.ofLine text).openedAfter opened) opened

/-- The headers of the blocks that a command whose block is open gets by later lines, when `inner` blocks
are open inside that block. -/
def laterHeaders : Nat → List String → List (List String)
  | _, [] => []
  | inner, text :: rest =>
    match Statement.ofLine text with
    | .nothing => laterHeaders inner rest
    | .command _ _ opens => laterHeaders (if opens then inner + 1 else inner) rest
    | .close words =>
      match inner with
      | 0 => if opensBlock words then Word.texts words.dropLast :: laterHeaders 0 rest else []
      | inner + 1 => laterHeaders (if opensBlock words then inner + 1 else inner) rest

/-- The words of the command on a line of source, without the dash before them and the brace after them.
There are none on a blank line, in a comment, and on a line that starts with a closing brace. -/
def commandWords (text : String) : List String :=
  let line := Text.trim text
  if line.isEmpty || line.startsWith "#" || line.startsWith "\x7d" then []
  else
    let words := lineWords (withoutDash line)
    Word.texts (if opensBlock words then words.dropLast else words)

/-- Whether a line of source ends in a brace that opens a block. -/
def endsOpening (text : String) : Bool :=
  opensBlock (lineWords (withoutDash (Text.trim text)))

/-- The numbers of the source lines that have a command. -/
def commandNumbers (number : Nat) (texts : List String) : List Nat :=
  ((texts.zipIdx number).filter fun line => !(commandWords line.1).isEmpty).map (·.2)

/-- The command on a line of source, if there is one: how it is listed when some blocks are open and some
lines follow. -/
def Statement.listed (opened : Nat) (number : Int) (rest : List String) : Statement → List ListedLine
  | .command word args opens =>
    [⟨opened, number, word, args, if opens then [] :: laterHeaders 0 rest else []⟩]
  | _ => []

/-- The commands of lines of source, the first of which has a number, when some blocks are open. -/
def flatListing (opened : Nat) (number : Int) : List String → List ListedLine
  | [] => []
  | text :: rest =>
    (Statement.ofLine text).listed opened number rest ++
      flatListing ((Statement.ofLine text).openedAfter opened) (number + 1) rest

/-! ## Listing what has been read -/

/-- The commands on the stack of open blocks, with what their blocks hold so far.  `later` are the headers
of the blocks that they still get, by their place on the stack. -/
def stackListing (later : Nat → List (List String)) : List OpenLine → List ListedLine
  | [] => []
  | o :: outer =>
    stackListing (fun i => later (i + 1)) outer ++
      ⟨outer.length, o.number, o.command, o.args, o.closed.reverse.map (·.header) ++ later 0⟩ ::
        (Line.blockListing (outer.length + 1) o.done.reverse ++
          Line.listing (outer.length + 1) o.lines.reverse)

/-- The commands read so far. -/
def Progress.listing (later : Nat → List (List String)) (p : Progress) : List ListedLine :=
  Line.listing 0 p.lines.reverse ++ stackListing later p.stack

variable {later : Nat → List (List String)} {p : Progress} {o : OpenLine} {outer : List OpenLine} {line : Line}
  {text : String} {texts rest : List String} {opened : Nat} {number : Int}

/-- A complete line comes last. -/
theorem Progress.listing_add (later : Nat → List (List String)) (p : Progress) (line : Line) :
    (p.add line).listing later = p.listing later ++ Line.listing p.stack.length [line] := by
  unfold Progress.add
  match hs : p.stack with
  | [] => simp [Progress.listing, stackListing, Line.listing_append, hs]
  | o :: outer =>
    simp [Progress.listing, stackListing, Line.listing_append, OpenLine.closed, hs]

/-- A command of the stack whose block is closed is listed as a complete line. -/
theorem listing_line (later : Nat → List (List String)) (o : OpenLine) (outer : List OpenLine)
    (hlater : later 0 = []) :
    stackListing (fun i => later (i + 1)) outer ++ Line.listing outer.length [o.line] =
      stackListing later (o :: outer) := by
  simp [stackListing, OpenLine.line, OpenLine.closed, Line.listing, Line.blockListing_append, Line.blockListing,
    hlater]

theorem listing_closeAround (line : Line) (outer : List OpenLine) :
    Line.listing 0 [closeAround line outer] =
      stackListing (fun _ => []) outer ++ Line.listing outer.length [line] := by
  induction outer generalizing line with
  | nil => simp [closeAround, stackListing]
  | cons o outer ih =>
    rw [closeAround, ih, listing_line (fun _ => []) _ _ rfl]
    simp [stackListing, OpenLine.closed, Line.listing_append]

/-- Closing all blocks at the end changes nothing in the list. -/
theorem listing_finish (p : Progress) : Line.listing 0 p.finish.lines = p.listing fun _ => [] := by
  unfold Progress.finish Progress.closed Progress.listing
  match p.stack with
  | [] => simp [stackListing]
  | o :: outer =>
    simp only [List.reverse_cons, Line.listing_append]
    rw [listing_closeAround, listing_line (fun _ => []) _ _ rfl]

/-! ## One more line of source -/

/-- The headers that commands on the stack get from lines of source on. -/
def headersFrom (texts : List String) (inner : Nat) : List (List String) :=
  laterHeaders inner texts

theorem headersFrom_nil : headersFrom [] = fun _ => [] := by
  funext inner
  rw [headersFrom, laterHeaders]

theorem length_add (p : Progress) (line : Line) : (p.add line).stack.length = p.stack.length := by
  unfold Progress.add
  split <;> simp_all

/-- A line of source puts its command last in the list.  The headers that it brings were to come before. -/
theorem Progress.listing_step (p : Progress) (number : Int) (text : String) (rest : List String) :
    (p.step number text).listing (headersFrom rest) =
        p.listing (headersFrom (text :: rest)) ++ (Statement.ofLine text).listed p.stack.length number rest ∧
      (p.step number text).stack.length = (Statement.ofLine text).openedAfter p.stack.length := by
  unfold Progress.step
  match hs : Statement.ofLine text with
  | .nothing =>
    have hlater : headersFrom (text :: rest) = headersFrom rest := by
      funext inner
      simp [headersFrom, laterHeaders, hs]
    simp [Statement.listed, Statement.openedAfter, hlater]
  | .command word args false =>
    have hlater : headersFrom (text :: rest) = headersFrom rest := by
      funext inner
      simp [headersFrom, laterHeaders, hs]
    simp [Statement.listed, Statement.openedAfter, hlater, Progress.listing_add, length_add, Line.listing,
      Line.blockListing]
  | .command word args true =>
    have hlater : headersFrom (text :: rest) = fun inner => headersFrom rest (inner + 1) := by
      funext inner
      simp [headersFrom, laterHeaders, hs]
    simp [Statement.listed, Statement.openedAfter, hlater, Progress.listing, stackListing, OpenLine.closed,
      Line.listing, Line.blockListing, headersFrom]
  | .close words =>
    match hp : p.stack with
    | [] =>
      simp [Statement.listed, Statement.openedAfter, Progress.listing, Progress.note, stackListing, hp]
    | o :: outer =>
      by_cases hopens : opensBlock words = true
      · have hne : words.isEmpty = false := by
          cases words with
          | nil => cases hopens
          | cons word words => rfl
        have hhere : headersFrom (text :: rest) 0 = Word.texts words.dropLast :: headersFrom rest 0 := by
          simp [headersFrom, laterHeaders, hs, hopens]
        have houter : (fun i => headersFrom (text :: rest) (i + 1)) = fun i => headersFrom rest (i + 1) := by
          funext inner
          simp [headersFrom, laterHeaders, hs, hopens]
        simp [Statement.listed, Statement.openedAfter, Progress.listing, stackListing, OpenLine.closed, hopens, hne,
          hp, hhere, houter, Line.blockListing_append, Line.blockListing, Line.listing]
      · have hhere : headersFrom (text :: rest) 0 = [] := by
          simp [headersFrom, laterHeaders, hs, hopens]
        have houter : (fun i => headersFrom (text :: rest) (i + 1)) = headersFrom rest := by
          funext inner
          simp [headersFrom, laterHeaders, hs, hopens]
        have closed : ({ p with stack := outer }.add o.line).listing (headersFrom rest) =
            p.listing (headersFrom (text :: rest)) := by
          rw [Progress.listing_add, Progress.listing, Progress.listing, hp, ← listing_line _ _ _ hhere, houter,
            List.append_assoc]
        have hlength := length_add { p with stack := outer } o.line
        dsimp only
        rw [if_neg hopens]
        split_ifs <;> simpa [Statement.listed, Statement.openedAfter, hopens, Progress.note] using ⟨closed, hlength⟩

/-- The commands read from lines of source come after those read before. -/
theorem Progress.listing_steps (p : Progress) (number : Int) (texts : List String) :
    (p.steps number texts).listing (fun _ => []) =
      p.listing (headersFrom texts) ++ flatListing p.stack.length number texts := by
  induction texts generalizing p number with
  | nil => rw [Progress.steps, flatListing, headersFrom_nil, List.append_nil]
  | cons text rest ih =>
    obtain ⟨hlisting, hlength⟩ := p.listing_step number text rest
    rw [Progress.steps, ih, hlisting, hlength, flatListing, List.append_assoc]

theorem listing_parse (source : String) :
    Line.listing 0 (parse source).lines = flatListing 0 1 (Text.splitAt '\n' source) := by
  rw [parse, listing_finish, Progress.listing_steps]
  simp [Progress.listing, Progress.start, stackListing, Line.listing]

/-! ## The list -/

/-- A line of source is a command exactly if it has words of one. -/
theorem ofLine_eq (text : String) :
    (commandWords text = [] ∧ ∀ opened number rest, (Statement.ofLine text).listed opened number rest = []) ∨
      ∃ word args, commandWords text = word :: args ∧
        Statement.ofLine text = .command word args (endsOpening text) := by
  unfold Statement.ofLine commandWords endsOpening
  generalize Text.trim text = line
  dsimp only
  by_cases hempty : (line.isEmpty || line.startsWith "#") = true
  · rw [if_pos hempty, if_pos (by rw [hempty, Bool.true_or])]
    exact .inl ⟨rfl, fun _ _ _ => rfl⟩
  by_cases hclose : line.startsWith "\x7d" = true
  · rw [if_neg hempty, if_pos hclose, if_pos (by rw [hclose, Bool.or_true])]
    exact .inl ⟨rfl, fun _ _ _ => rfl⟩
  rw [if_neg hempty, if_neg hclose, if_neg fun h => (Bool.or_eq_true_iff.1 h).elim hempty hclose]
  generalize lineWords (withoutDash line) = words
  match hwords : Word.texts (if opensBlock words then words.dropLast else words) with
  | [] => exact .inl ⟨rfl, fun _ _ _ => rfl⟩
  | word :: args => exact .inr ⟨word, args, rfl, rfl⟩

theorem blocksOpen_nil (opened : Nat) : blocksOpen opened [] = opened :=
  List.foldl_nil

theorem blocksOpen_cons (opened : Nat) (text : String) (texts : List String) :
    blocksOpen opened (text :: texts) = blocksOpen ((Statement.ofLine text).openedAfter opened) texts :=
  List.foldl_cons ..

theorem numbers_flatListing (opened number : Nat) (texts : List String) :
    (flatListing opened number texts).map (·.number) = (commandNumbers number texts).map Int.ofNat := by
  induction texts generalizing opened number with
  | nil => rfl
  | cons text rest ih =>
    have hrest := ih ((Statement.ofLine text).openedAfter opened) (number + 1)
    push_cast at hrest
    rw [flatListing, List.map_append, hrest]
    unfold commandNumbers
    rw [List.zipIdx_cons, List.filter_cons]
    rcases ofLine_eq text with ⟨hnone, hlisted⟩ | ⟨word, args, hwords, hline⟩
    · rw [hlisted, hnone]
      rfl
    · rw [hline, hwords]
      rfl

/-- Every command in the list stands on a line of source. -/
theorem mem_flatListing {line : ListedLine} (h : line ∈ flatListing opened number texts) :
    ∃ before text after, texts = before ++ text :: after ∧ line.number = number + before.length ∧
      commandWords text = line.command :: line.args ∧ line.depth = blocksOpen opened before ∧
        line.headers = if endsOpening text then [] :: laterHeaders 0 after else [] := by
  induction texts generalizing opened number with
  | nil => cases h
  | cons text rest ih =>
    rw [flatListing, List.mem_append] at h
    rcases h with hhere | hlater
    · rcases ofLine_eq text with ⟨-, hlisted⟩ | ⟨word, args, hwords, hline⟩
      · rw [hlisted] at hhere
        cases hhere
      · rw [hline, Statement.listed, List.mem_singleton] at hhere
        refine ⟨[], text, rest, rfl, ?_, ?_, ?_, ?_⟩
        · rw [hhere, List.length_nil, Int.natCast_zero, Int.add_zero]
        · rw [hhere, hwords]
        · rw [hhere, blocksOpen_nil]
        · rw [hhere]
    · obtain ⟨before, next, after, rfl, hnumber, hwords, hdepth, hheaders⟩ := ih hlater
      refine ⟨text :: before, next, after, rfl, ?_, hwords, ?_, hheaders⟩
      · rw [hnumber, List.length_cons, Int.natCast_succ]
        omega
      · rw [hdepth, blocksOpen_cons]

/-- The numbers of lines ascend. -/
theorem pairwise_commandNumbers (number : Nat) (texts : List String) :
    (commandNumbers number texts).Pairwise (· < ·) := by
  have hall : ((texts.zipIdx number).map (·.2)).Pairwise (· < ·) := by
    rw [List.zipIdx_map_snd]
    exact List.pairwise_lt_range'
  exact hall.sublist ((List.filter_sublist).map _)

/-- The forest read from a source, listed command by command, has exactly one command for each line that
has one, in the order of the lines.  A command stands in as many blocks as are open before its line, and
has a block for the brace on its line and one for every line with a closing and an opening brace that is
read for it, with the header of that line. -/
theorem parse_lists_commands (source : String) :
    let texts := Text.splitAt '\n' source
    let listed := Line.listing 0 (parse source).lines
    listed.map (·.number) = (commandNumbers 1 texts).map Int.ofNat ∧
      listed.Pairwise (fun line line' => line.number < line'.number) ∧
      ∀ line ∈ listed, ∃ before text after, texts = before ++ text :: after ∧
        line.number = before.length + 1 ∧ commandWords text = line.command :: line.args ∧
          line.depth = blocksOpen 0 before ∧
          line.headers = if endsOpening text then [] :: laterHeaders 0 after else [] := by
  intro texts listed
  have hflat : listed = flatListing 0 (1 : Nat) texts := listing_parse source
  have hnumbers : listed.map (·.number) = (commandNumbers 1 texts).map Int.ofNat := by
    rw [hflat, numbers_flatListing]
  refine ⟨hnumbers, ?_, fun line hline => ?_⟩
  · rw [← List.pairwise_map (f := ListedLine.number), hnumbers, List.pairwise_map]
    exact (pairwise_commandNumbers 1 texts).imp Int.ofNat_lt.2
  · rw [hflat] at hline
    obtain ⟨before, text, after, htexts, hnumber, hline⟩ := mem_flatListing hline
    exact ⟨before, text, after, htexts, by rw [hnumber, Int.add_comm]; rfl, hline⟩

end Source

end QueueScript
