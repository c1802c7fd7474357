import QueueScript.Proofs.Source.KeptWords
import QueueScript.Proofs.Source.PrintedScripts

/-!
# Braces typed against a word

A brace that is typed against the end of a word is set apart in two places.  At the end of a source line
it is, unless the word begins with a `<` (`hasLineBrace`), and in flat words it is, unless a `<` stands
right before it (`hasGluedBrace`).  So the two differ on words that have only one of these
(`isDisputed`), such as `<[n]>{`, and agree on all others.

Where they agree, a command with a block is read from source lines as it is read from flat words
(`glued_braces_agree`).  The lines of the block are read in source as they would be read outside any block:
an open block changes nothing but the place of what is read (`Progress.inside`).
-/

namespace QueueScript

namespace Line

mutual

/-- The lines, all with one number. -/
def withNumber (number : Int) : List Line → List Line
  | [] => []
  | ⟨command, args, blocks, _⟩ :: rest =>
    ⟨command, args, blocksWithNumber number blocks, number⟩ :: withNumber number rest

/-- The blocks, all lines in them with one number. -/
def blocksWithNumber (number : Int) : List (Block Line) → List (Block Line)
  | [] => []
  | ⟨header, lines⟩ :: rest => ⟨header, withNumber number lines⟩ :: blocksWithNumber number rest

end

mutual

/-- Numbers are not written. -/
theorem flattenLines_withNumber (number : Int) (lines : List Line) :
    flattenLines (withNumber number lines) = flattenLines lines := by
  match lines with
  | [] => rw [withNumber]
  | ⟨command, args, blocks, n⟩ :: rest =>
    rw [withNumber, flattenLines, flattenLines, flattenBlocks_withNumber number blocks,
      flattenLines_withNumber number rest]

theorem flattenBlocks_withNumber (number : Int) (blocks : List (Block Line)) :
    flattenBlocks (blocksWithNumber number blocks) = flattenBlocks blocks := by
  match blocks with
  | [] => rw [blocksWithNumber]
  | ⟨header, lines⟩ :: rest =>
    rw [blocksWithNumber, flattenBlocks, flattenBlocks, flattenLines_withNumber number lines,
      flattenBlocks_withNumber number rest]

end

end Line

namespace Source

open Line (flattenLines)

variable {w : String} {text : String}

/-! ## The two ways to set a brace apart -/

/-- Whether a brace stands against the end of a word that does not begin with a tag. -/
def hasLineBrace (w : String) : Bool :=
  decide (1 < w.length) && w.endsWith "\x7b" && !w.startsWith "<"

/-- Whether a brace stands against the end of a word that either begins with a tag, or has a `<` before
the brace, but not both. -/
def isDisputed (w : String) : Bool :=
  decide (1 < w.length) && w.endsWith "\x7b" && (w.startsWith "<" != w.endsWith "<\x7b")

theorem endsWith_eq (w s : String) : w.endsWith s = s.toList.reverse.isPrefixOf w.toList.reverse := by
  have suffix : w.endsWith s = true ↔ s.toList <:+ w.toList := by
    rw [← String.endsWith_toSlice, String.Slice.endsWith_string_iff, String.copy_toSlice]
  rw [Bool.eq_iff_iff, suffix, List.isPrefixOf_iff_prefix, List.reverse_prefix]

theorem hasGluedBrace_eq (w : String) :
    hasGluedBrace w = (decide (1 < w.length) && w.endsWith "\x7b" && !w.endsWith "<\x7b") := by
  have length : w.length = w.toList.reverse.length := by rw [List.length_reverse, String.length_toList]
  rw [endsWith_eq, endsWith_eq, length, hasGluedBrace]
  show _ = (_ && ['{'].isPrefixOf _ && !(['{', '<'].isPrefixOf _))
  generalize w.toList.reverse = cs
  split
  · simp [List.isPrefixOf]
  · rename_i c rest htag
    have tag : c ≠ '<' := htag
    simp [List.isPrefixOf, Ne.symm tag]
  · rename_i hbrace
    cases cs with
    | nil => rfl
    | cons c rest =>
      cases rest with
      | nil => rfl
      | cons d rest =>
        have brace : c ≠ '{' := fun h => hbrace d rest (h ▸ rfl)
        simp [List.isPrefixOf, Ne.symm brace]

theorem isDisputed_eq (w : String) : isDisputed w = (hasLineBrace w != hasGluedBrace w) := by
  rw [hasGluedBrace_eq, isDisputed, hasLineBrace]
  cases decide (1 < w.length) && w.endsWith "\x7b" with
  | false => rfl
  | true => cases w.startsWith "<" <;> cases w.endsWith "<\x7b" <;> rfl

/-- The last word of a line of source, its brace set apart. -/
def lineWord (w : String) : List String :=
  if hasLineBrace w then [String.ofList w.toList.dropLast, "\x7b"] else [w]

theorem lineWord_eq_iff : lineWord w = ungluedWord w ↔ isDisputed w = false := by
  rw [isDisputed_eq, lineWord, ungluedWord]
  cases hasLineBrace w <;> cases hasGluedBrace w <;> simp

/-- The words of a line whose last word is not quoted. -/
theorem lineWords_of_last {before : List Word} (h : splitWords text = before ++ [⟨w, false⟩]) :
    lineWords text = before ++ (lineWord w).map (⟨·, false⟩) := by
  unfold lineWords lineWord hasLineBrace
  simp only [h, List.getLast?_concat, List.dropLast_concat, Bool.not_false, Bool.true_and]
  split <;> rfl

/-- The words of a line are what the flat words would be, unless the last word is disputed. -/
theorem lineWords_eq_iff {before : List Word} (h : splitWords text = before ++ [⟨w, false⟩]) :
    lineWords text = before ++ (ungluedWord w).map (⟨·, false⟩) ↔ isDisputed w = false := by
  have apart : Function.Injective fun v : String => (⟨v, false⟩ : Word) := fun _ _ h => congrArg Word.text h
  rw [lineWords_of_last h, List.append_cancel_left_eq, apart.list_map.eq_iff, lineWord_eq_iff]

/-! ## Lines inside a block -/

/-- What was read of some lines, put into an open block of another reading. -/
def Progress.inside (q : Progress) (o : OpenLine) (p : Progress) : Progress :=
  ⟨p.lines, q.stack ++ { o with lines := q.lines ++ o.lines } :: p.stack, q.notes ++ p.notes⟩

variable {p q : Progress} {o : OpenLine} {number : Int}

theorem add_inside (line : Line) : (q.inside o p).add line = (q.add line).inside o p := by
  obtain ⟨lines, stack, notes⟩ := q
  cases stack <;> rfl

/-- A fault that was noted stays. -/
theorem notes_step (p : Progress) (number : Int) (text : String) :
    p.notes <:+ (p.step number text).notes := by
  have add (p : Progress) (line : Line) : (p.add line).notes = p.notes := by
    unfold Progress.add
    split <;> rfl
  have added (stack : List OpenLine) (line : Line) : p.notes <:+ ({ p with stack }.add line).notes :=
    ⟨[], (add { p with stack } line).symm⟩
  unfold Progress.step
  split
  · exact List.suffix_rfl
  · split
    · exact List.suffix_cons _ _
    · split
      · exact added _ _
      · split
        · exact List.suffix_rfl
        · exact (added _ _).trans (List.suffix_cons _ _)
  · split
    · exact List.suffix_rfl
    · exact added _ _

theorem notes_steps (p : Progress) (number : Int) (texts : List String) :
    p.notes <:+ (p.steps number texts).notes := by
  induction texts generalizing p number with
  | nil => exact List.suffix_rfl
  | cons text rest ih =>
    rw [steps_cons]
    exact (notes_step p number text).trans (ih _ _)

/-- A line that is read without a fault is read inside a block as it is outside. -/
theorem step_inside (h : (q.step number text).notes = []) :
    (q.inside o p).step number text = (q.step number text).inside o p := by
  obtain ⟨lines, stack, notes⟩ := q
  unfold Progress.step at h ⊢
  cases hline : Statement.ofLine text with
  | nothing => rfl
  | close rest =>
    rw [hline] at h
    dsimp only at h ⊢
    cases stack with
    | nil => cases h
    | cons top outer =>
      dsimp only [Progress.inside, List.cons_append] at h ⊢
      by_cases hrest : rest.isEmpty = true
      · rw [if_pos hrest, if_pos hrest]
        exact add_inside (q := ⟨lines, outer, notes⟩) top.line
      · rw [if_neg hrest] at h ⊢
        rw [if_neg hrest]
        by_cases hopens : opensBlock rest = true
        · rw [if_pos hopens, if_pos hopens]
          rfl
        · rw [if_neg hopens] at h
          cases h
  | command word args opens =>
    dsimp only
    split
    · rfl
    · exact add_inside _

/-- Lines that are read without a fault are read inside a block as they are outside. -/
theorem steps_inside {texts : List String} (more : List String)
    (h : (q.steps number texts).notes = []) :
    (q.inside o p).steps number (texts ++ more) =
      ((q.steps number texts).inside o p).steps (number + texts.length) more := by
  induction texts generalizing q number with
  | nil => simp [Progress.steps]
  | cons text rest ih =>
    rw [steps_cons] at h
    have first : (q.step number text).notes = [] := by
      have kept := notes_steps (q.step number text) (number + 1) rest
      rw [h] at kept
      exact List.suffix_nil.1 kept
    have last : number + 1 + (rest.length : Int) = number + ((rest.length + 1 : Nat) : Int) := by omega
    rw [List.cons_append, steps_cons, step_inside first, ih h, steps_cons, List.length_cons, last]

/-- A command whose block holds lines that are read without a fault. -/
theorem parse_block {command line : String} {words texts : List String} {body : List Line}
    (hline : Statement.ofLine line = .command command words true)
    (hnewline : ∀ text ∈ line :: texts, '\n' ∉ text.toList)
    (hbody : Progress.start.steps 2 texts = ⟨body.reverse, [], []⟩) :
    parse (String.intercalate "\n" (line :: (texts ++ ["\x7d"]))) =
      ⟨[⟨command, words, [⟨[], body⟩], 1⟩], []⟩ := by
  let o : OpenLine := ⟨command, words, 1, [], [], []⟩
  have opened : Progress.start.step 1 line = Progress.start.inside o .start := by
    unfold Progress.step
    rw [hline]
    rfl
  have newline : ∀ text ∈ line :: (texts ++ ["\x7d"]), '\n' ∉ text.toList := by
    intro text htext
    rw [← List.cons_append, List.mem_append, List.mem_singleton] at htext
    rcases htext with htext | rfl
    · exact hnewline text htext
    · decide
  have read : Progress.start.steps 1 (line :: (texts ++ ["\x7d"])) =
      ((⟨body.reverse, [], []⟩ : Progress).inside o .start).step (2 + texts.length) "\x7d" := by
    rw [steps_cons, opened]
    rw [show (1 : Int) + 1 = 2 from rfl, steps_inside _ (by rw [hbody]), hbody]
    rfl
  have closed (n : Int) : ((⟨body.reverse, [], []⟩ : Progress).inside o .start).step n "\x7d" =
      ⟨[⟨command, words, [⟨[], body⟩], 1⟩], [], []⟩ := by
    unfold Progress.step
    rw [ofLine_close]
    simp [Progress.inside, Progress.start, Progress.add, OpenLine.line, OpenLine.closed, o]
  rw [parse, splitAt_intercalate (List.cons_ne_nil _ _) newline, read, closed]
  rfl

/-! ## Flat words with a block -/

/-- Words outside blocks are words of the command, unless they are opening braces. -/
theorem foldFrom_args (d : Draft) {ws : List String} (h : "\x7b" ∉ ws) (more : List String) :
    foldFrom number [] d (ws ++ more) = foldFrom number [] (d.pushAll ws) more := by
  induction ws generalizing d with
  | nil => rfl
  | cons w ws ih =>
    rw [List.mem_cons, not_or] at h
    rw [List.cons_append, foldFrom_outside d (Ne.symm h.1), ih _ h.2]
    rfl

/-- Words and one block. -/
theorem fold_block {words : List String} {body : List Line} (hwords : "\x7b" ∉ words)
    (hbody : Line.linesFoldable number body = true) :
    fold (words ++ "\x7b" :: (flattenLines body ++ ["\x7d"])) number = ⟨words, [⟨[], body⟩], false⟩ := by
  have pushed : Draft.empty.pushAll words = ⟨words.reverse, [], []⟩ := by
    unfold Draft.empty
    rw [Draft.pushAll_words, List.append_nil]
  rw [fold, foldFrom_args _ hwords, foldFrom_open, foldFrom_flattenLines _ _ _ _ _ hbody, pushed]
  simp [foldFrom, finishFold, Draft.close, Open.linesWith, Draft.line?, Draft.empty]

/-! ## A command with a block, in source and flat -/

/-- Whether a line of source is a command with arguments and a last word that is not quoted. -/
def EndsIn (line command : String) (args : List String) (w : String) : Prop :=
  (Text.trim line).startsWith "#" = false ∧ (Text.trim line).startsWith "\x7d" = false ∧
    ∃ quoted before, splitWords (withoutDash (Text.trim line)) = ⟨command, quoted⟩ :: before ++ [⟨w, false⟩] ∧
      Word.texts before = args

/-- A line whose last word has a brace that is set apart opens a block. -/
theorem ofLine_of_endsIn {command line : String} {args last : List String} (h : EndsIn line command args w)
    (hopens : lineWord w = last ++ ["\x7b"]) :
    Statement.ofLine line = .command command (args ++ last) true := by
  obtain ⟨hcomment, hclose, quoted, before, hwords, rfl⟩ := h
  have hempty : (Text.trim line).isEmpty = false := by
    rw [String.isEmpty_eq_false_iff]
    intro h
    rw [h] at hwords
    cases hwords
  have words : lineWords (withoutDash (Text.trim line)) =
      (⟨command, quoted⟩ :: before ++ last.map (⟨·, false⟩)) ++ [⟨"\x7b", false⟩] := by
    rw [lineWords_of_last hwords, hopens, List.map_append, List.append_assoc]
    rfl
  have opens : opensBlock (lineWords (withoutDash (Text.trim line))) = true := by
    rw [words, opensBlock, List.getLast?_concat, beq_self_eq_true]
  have texts : Word.texts (⟨command, quoted⟩ :: before ++ last.map (⟨·, false⟩)) =
      command :: (Word.texts before ++ last) := by
    simp [Word.texts, Function.comp_def]
  unfold Statement.ofLine
  simp only [hempty, hcomment, hclose, opens, Bool.or_false, Bool.false_eq_true, if_false, if_true]
  rw [words, List.dropLast_concat, texts]

/-- The words of a command whose last word opens a block, and the block written flat after it. -/
theorem flatMap_block {args last : List String} {body : List Line}
    (hargs : ∀ v ∈ args, hasGluedBrace v = false) (hw : ungluedWord w = last ++ ["\x7b"])
    (hbody : Line.linesFoldable number (Line.withNumber number body) = true) :
    (args ++ w :: (flattenLines body ++ ["\x7d"])).flatMap ungluedWord =
      (args ++ last) ++ "\x7b" :: (flattenLines (Line.withNumber number body) ++ ["\x7d"]) := by
  have lines : ∀ v ∈ flattenLines body ++ ["\x7d"], hasGluedBrace v = false := by
    intro v hv
    rw [List.mem_append, List.mem_singleton] at hv
    rcases hv with hv | rfl
    · rw [← Line.flattenLines_withNumber number] at hv
      exact not_glued_flattenLines hbody v hv
    · rfl
  rw [List.flatMap_append, List.flatMap_cons, flatMap_ungluedWord_of_not_glued hargs,
    flatMap_ungluedWord_of_not_glued lines, hw, Line.flattenLines_withNumber]
  simp

end Source

/-- A command that is given flat, with the brace of its one block against its last word, is compiled as it
is with the block apart.  Only what it shows as its words is as given. -/
theorem buildFlat_eq_of_fold {catalogue : Catalogue} {script : Option ScriptRef} {command : String}
    {given args : List String} {blocks : List (Block Line)} {number : Int}
    (h : Source.fold (given.flatMap Source.ungluedWord) number = ⟨args, blocks, false⟩) :
    (buildFlat catalogue script command given number).1 =
      { (buildLine catalogue script ⟨command, args, blocks, number⟩).1 with words := given } := by
  have handler : (assemble catalogue script command given args blocks number).command.handler =
      (assemble catalogue script command (args ++ Line.flattenBlocks blocks) args blocks number).command.handler :=
    rfl
  unfold buildFlat
  rw [h, buildLine]
  dsimp only
  rw [handler]
  split <;> rfl

/-- Source lines and flat words set the same braces apart, except those of disputed words.  So a command
whose last word `w` opens a block, given as source with the lines of the block and a closing brace, has the
words and the blocks that it has when it is given as flat words, and is compiled to the same command: the
one shows `w` with its brace apart, the other one as given.  The word must not be disputed, no word before it
may be a brace or have one against its end, and the lines of the block are read without a fault and may be
written flat. -/
theorem glued_braces_agree (w : String) :
    (∀ text before, splitWords text = before ++ [⟨w, false⟩] →
      (Source.lineWords text = before ++ (Source.ungluedWord w).map (⟨·, false⟩) ↔
        Source.isDisputed w = false)) ∧
    ∀ (line command : String) (args last texts : List String) (body : List Line) (number : Int),
      Source.EndsIn line command args w → Source.isDisputed w = false →
      Source.ungluedWord w = last ++ ["\x7b"] → "\x7b" ∉ args ++ last →
      (∀ v ∈ args, Source.hasGluedBrace v = false) →
      (∀ text ∈ line :: texts, '\n' ∉ text.toList) →
      Source.Progress.start.steps 2 texts = ⟨body.reverse, [], []⟩ →
      Line.linesFoldable number (Line.withNumber number body) = true →
      let given := args ++ w :: (Line.flattenLines body ++ ["\x7d"])
      let blocks : List (Block Line) := [⟨[], Line.withNumber number body⟩]
      Source.parse (String.intercalate "\n" (line :: (texts ++ ["\x7d"]))) =
        ⟨[⟨command, args ++ last, [⟨[], body⟩], 1⟩], []⟩ ∧
      Source.fold (given.flatMap Source.ungluedWord) number = ⟨args ++ last, blocks, false⟩ ∧
      ∀ catalogue script, (buildFlat catalogue script command given number).1 =
        { (buildLine catalogue script ⟨command, args ++ last, blocks, number⟩).1 with words := given } := by
  refine ⟨fun _ _ => Source.lineWords_eq_iff, ?_⟩
  intro line command args last texts body number hline hdisputed unglued hwords hargs hnewline hbody
    hfoldable given blocks
  have hopens : Source.lineWord w = last ++ ["\x7b"] := by
    rw [Source.lineWord_eq_iff.2 hdisputed, unglued]
  have folded : Source.fold (given.flatMap Source.ungluedWord) number = ⟨args ++ last, blocks, false⟩ := by
    rw [Source.flatMap_block hargs unglued hfoldable]
    exact Source.fold_block hwords hfoldable
  exact ⟨Source.parse_block (Source.ofLine_of_endsIn hline hopens) hnewline hbody, folded,
    fun catalogue script => buildFlat_eq_of_fold folded⟩

/-- A loop that is waited for, with a condition of two blocks in its block. -/
theorem glued_braces_agree_loop :
    let line := "  - ~repeat \"a b\" as:<[x]>\x7b"
    let body : List Line :=
      [⟨"if", ["<[x]>", "or", "<[a b]>"], [⟨[], [⟨"debug", ["log", "it's"], [], 3⟩]⟩, ⟨["else"], []⟩], 2⟩]
    let texts := Line.printLines body
    let given := ["a b", "as:<[x]>\x7b"] ++ Line.flattenLines body ++ ["\x7d"]
    let blocks : List (Block Line) := [⟨[], Line.withNumber 7 body⟩]
    (Source.EndsIn line "~repeat" ["a b"] "as:<[x]>\x7b" ∧ Source.isDisputed "as:<[x]>\x7b" = false ∧
      Source.ungluedWord "as:<[x]>\x7b" = ["as:<[x]>", "\x7b"] ∧
      Source.Progress.start.steps 2 texts = ⟨body.reverse, [], []⟩ ∧
      Line.linesFoldable 7 (Line.withNumber 7 body) = true) ∧
    Source.parse (String.intercalate "\n" (line :: (texts ++ ["\x7d"]))) =
      ⟨[⟨"~repeat", ["a b", "as:<[x]>"], [⟨[], body⟩], 1⟩], []⟩ ∧
    Source.fold (given.flatMap Source.ungluedWord) 7 = ⟨["a b", "as:<[x]>"], blocks, false⟩ ∧
    ∀ catalogue script, (buildFlat catalogue script "~repeat" given 7).1 =
      { (buildLine catalogue script ⟨"~repeat", ["a b", "as:<[x]>"], blocks, 7⟩).1 with words := given } := by
  intro line body texts given blocks
  have ends : Source.EndsIn line "~repeat" ["a b"] "as:<[x]>\x7b" :=
    ⟨by decide +kernel, by decide +kernel, false, [⟨"a b", true⟩], by decide +kernel, rfl⟩
  have undisputed : Source.isDisputed "as:<[x]>\x7b" = false := by decide +kernel
  have opens : Source.ungluedWord "as:<[x]>\x7b" = ["as:<[x]>"] ++ ["\x7b"] := by decide +kernel
  have newline : ∀ text ∈ line :: texts, '\n' ∉ text.toList := by decide +kernel
  have foldable : Line.linesFoldable 7 (Line.withNumber 7 body) = true := by decide +kernel
  have numbered : Line.numberLines 2 body = body := by
    simp [body, Line.numberLines, Line.numberBlocks, Line.printLines]
  have read : Source.Progress.start.steps 2 texts = ⟨body.reverse, [], []⟩ := by
    have printable : Line.linesPrintable body = true := by decide +kernel
    have h := Source.steps_printLines Source.Progress.start 2 [] printable
    rw [List.append_nil, Source.Progress.addAll_outside rfl] at h
    simpa [Source.Progress.steps, Source.Progress.start, numbered] using h
  exact ⟨⟨ends, undisputed, opens, read, foldable⟩,
    (glued_braces_agree "as:<[x]>\x7b").2 line "~repeat" ["a b"] ["as:<[x]>"] texts body 7 ends undisputed opens
      (by decide) (by decide +kernel) newline read foldable⟩

/-- Words that begin with a tag, or end in a `<` before the brace: only one of the two readers sets the
brace apart.  So the first command has no block in source, and has one if it is given flat. -/
theorem glued_braces_disputed :
    (Source.lineWords "repeat <[n]>\x7b" = [⟨"repeat", false⟩, ⟨"<[n]>\x7b", false⟩] ∧
      Source.ungluedWord "<[n]>\x7b" = ["<[n]>", "\x7b"]) ∧
    (Source.lineWords "repeat a<\x7b" = [⟨"repeat", false⟩, ⟨"a<", false⟩, ⟨"\x7b", false⟩] ∧
      Source.ungluedWord "a<\x7b" = ["a<\x7b"]) ∧
    (Source.parse "repeat <[n]>\x7b\n- debug log a\n\x7d").lines.map (·.args) = [["<[n]>\x7b"], ["log", "a"]] ∧
    (Source.parse "repeat <[n]>\x7b\n- debug log a\n\x7d").notes = [⟨.strayClose, 3⟩] ∧
    (Source.fold (["<[n]>\x7b", "-", "debug", "log", "a", "\x7d"].flatMap Source.ungluedWord) 1).args =
      ["<[n]>"] := by
  exact ⟨by decide +kernel, by decide +kernel, by decide +kernel, by decide +kernel, by decide +kernel⟩

end QueueScript
