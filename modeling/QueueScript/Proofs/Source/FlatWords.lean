import QueueScript.Engine.Host

/-!
# Blocks written flat are read back

A command may be given with its blocks apart, or as one list of words in which braces and dashes stand
for the blocks.  `Line.flattenBlocks` goes from blocks to words and `Source.fold` goes back.  Here the
two are shown to be inverse on all trees of blocks whose words cannot be taken for braces and dashes
(`Line.foldable`), so both ways of giving a command compile to the same command with the same notes.

The reader of flat words keeps a stack of open blocks, so the statements that are proved by recursion
over the tree are about any stack, any draft of the command being read and any words that follow.
-/

namespace QueueScript

namespace Source

/-- Whether a word is no brace and no dash, and has no brace against its end. -/
def isFlatWord (w : String) : Bool :=
  w != "\x7b" && w != "\x7d" && w != "-" && !hasGluedBrace w

theorem isFlatWord_iff {w : String} : isFlatWord w = true ↔
    w ≠ "\x7b" ∧ w ≠ "\x7d" ∧ w ≠ "-" ∧ hasGluedBrace w = false := by
  simp [isFlatWord, and_assoc]

end Source

namespace Line

mutual

/-- Whether the blocks hold only flat words and lines of one number, and the first block of every
command in them has no header. -/
def blocksFoldable (number : Int) : List (Block Line) → Bool
  | [] => true
  | ⟨header, lines⟩ :: rest =>
    header.all Source.isFlatWord && linesFoldable number lines && blocksFoldable number rest

/-- Whether the lines hold only flat words, all have one number, and the first block of every command
in them has no header. -/
def linesFoldable (number : Int) : List Line → Bool
  | [] => true
  | ⟨command, args, blocks, n⟩ :: rest =>
    decide (n = number) && (command :: args).all Source.isFlatWord &&
      blocks.head?.all (·.header.isEmpty) && blocksFoldable number blocks &&
      linesFoldable number rest

end

/-- Whether the words and blocks of a command can be told apart when they are written flat. -/
def foldable (number : Int) (args : List String) (blocks : List (Block Line)) : Bool :=
  args.all Source.isFlatWord && blocks.head?.all (·.header.isEmpty) && blocksFoldable number blocks

end Line

namespace Source

open Line (flattenBlocks flattenLines blocksFoldable linesFoldable foldable)

variable {number : Int} {ws more : List String}

/-! ## Drafts -/

/-- The draft with more words. -/
def Draft.pushAll (d : Draft) (ws : List String) : Draft :=
  ws.foldl Draft.push d

/-- The draft with more blocks, each introduced by its own header. -/
def Draft.closeAll (d : Draft) (blocks : List (Block Line)) : Draft :=
  { d with blocks := blocks.reverse ++ d.blocks, header := [] }

/-- Words before the first block are words of the command. -/
theorem Draft.pushAll_words (words : List String) (header ws : List String) :
    Draft.pushAll ⟨words, [], header⟩ ws = ⟨ws.reverse ++ words, [], header⟩ := by
  induction ws generalizing words with
  | nil => rfl
  | cons w ws ih =>
    have step : Draft.push ⟨words, [], header⟩ w = ⟨w :: words, [], header⟩ := rfl
    show Draft.pushAll (Draft.push ⟨words, [], header⟩ w) ws = _
    rw [step, ih, List.reverse_cons, List.append_assoc]
    rfl

/-- Words after a block introduce the next one. -/
theorem Draft.pushAll_header {d : Draft} (hd : d.blocks ≠ []) (ws : List String) :
    d.pushAll ws = { d with header := ws.reverse ++ d.header } := by
  induction ws generalizing d with
  | nil => rfl
  | cons w ws ih =>
    have step : d.push w = { d with header := w :: d.header } := by
      unfold Draft.push
      rw [if_neg (by simpa using hd)]
    show (d.push w).pushAll ws = _
    rw [ih (by rw [step]; exact hd), step, List.reverse_cons, List.append_assoc]
    rfl

/-- A block whose header was pushed is closed with that header. -/
theorem Draft.close_pushAll {d : Draft} {header : List String} (hd : d.header = [])
    (h : d.blocks ≠ [] ∨ header = []) (lines : List Line) :
    (d.pushAll header).close lines = d.closeAll [⟨header, lines⟩] := by
  have hheader : (d.pushAll header).header.reverse = header ∧
      (d.pushAll header).words = d.words ∧ (d.pushAll header).blocks = d.blocks := by
    rcases h with h | rfl
    · rw [Draft.pushAll_header h]
      simp [hd]
    · exact ⟨by simp [Draft.pushAll, hd], rfl, rfl⟩
  obtain ⟨h₁, h₂, h₃⟩ := hheader
  unfold Draft.close Draft.closeAll
  rw [h₁, h₂, h₃]
  rfl

theorem Draft.closeAll_cons (d : Draft) (b : Block Line) (blocks : List (Block Line)) :
    (d.closeAll [b]).closeAll blocks = d.closeAll (b :: blocks) := by
  simp [Draft.closeAll]

/-! ## Reading what was written -/

theorem foldFrom_open (stack : List Open) (d : Draft) (ws : List String) :
    foldFrom number stack d ("\x7b" :: ws) = foldFrom number (⟨d, []⟩ :: stack) .empty ws := by
  rw [foldFrom.eq_def]
  exact if_pos rfl

theorem foldFrom_close (o : Open) (stack : List Open) (d : Draft) (ws : List String) :
    foldFrom number (o :: stack) d ("\x7d" :: ws) =
      foldFrom number stack (o.owner.close (o.linesWith d number).reverse) ws := by
  rw [foldFrom.eq_def]
  exact (if_neg (by decide)).trans (if_pos rfl)

theorem foldFrom_dash (o : Open) (stack : List Open) (d : Draft) (ws : List String) :
    foldFrom number (o :: stack) d ("-" :: ws) =
      foldFrom number (⟨o.owner, o.linesWith d number⟩ :: stack) .empty ws := by
  rw [foldFrom.eq_def]
  exact (if_neg (by decide)).trans ((if_neg (by decide)).trans (if_pos rfl))

theorem foldFrom_word (stack : List Open) (d : Draft) {w : String} (h : isFlatWord w = true)
    (ws : List String) : foldFrom number stack d (w :: ws) = foldFrom number stack (d.push w) ws := by
  obtain ⟨hopen, hclose, hdash, -⟩ := isFlatWord_iff.1 h
  rw [foldFrom.eq_def]
  refine (if_neg hopen).trans ?_
  cases stack with
  | nil => rfl
  | cons o rest => exact (if_neg hclose).trans (if_neg hdash)

/-- Flat words are words of the command being read, whatever blocks are open. -/
theorem foldFrom_words (stack : List Open) (d : Draft) (h : ws.all isFlatWord = true) :
    foldFrom number stack d (ws ++ more) = foldFrom number stack (d.pushAll ws) more := by
  induction ws generalizing d with
  | nil => rfl
  | cons w ws ih =>
    rw [List.all_cons, Bool.and_eq_true] at h
    exact (foldFrom_word stack d h.1 _).trans (ih (d.push w) h.2)

/-- A line of words and blocks is read off its draft. -/
theorem Draft.line?_closeAll (command : String) (args : List String) (blocks : List (Block Line)) :
    ((Draft.empty.pushAll (command :: args)).closeAll blocks).line? number =
      some ⟨command, args, blocks, number⟩ := by
  have hwords : Draft.empty.pushAll (command :: args) = ⟨(command :: args).reverse, [], []⟩ := by
    unfold Draft.empty
    rw [Draft.pushAll_words, List.append_nil]
  rw [hwords]
  simp [Draft.closeAll, Draft.line?]

mutual

/-- Blocks written flat are read as blocks of the command being read. -/
theorem foldFrom_flattenBlocks (stack : List Open) {d : Draft} {blocks : List (Block Line)}
    (more : List String) (hd : d.header = [])
    (hfirst : d.blocks ≠ [] ∨ blocks.head?.all (·.header.isEmpty) = true)
    (h : blocksFoldable number blocks = true) :
    foldFrom number stack d (flattenBlocks blocks ++ more) =
      foldFrom number stack (d.closeAll blocks) more := by
  match blocks with
  | [] =>
    have unchanged : d.closeAll [] = d := by simp [Draft.closeAll, ← hd]
    rw [unchanged, flattenBlocks, List.nil_append]
  | ⟨header, lines⟩ :: rest =>
    rw [blocksFoldable, Bool.and_eq_true, Bool.and_eq_true] at h
    obtain ⟨⟨hheader, hlines⟩, hrest⟩ := h
    have hfirst : d.blocks ≠ [] ∨ header = [] := by simpa using hfirst
    have words : flattenBlocks (⟨header, lines⟩ :: rest) ++ more =
        header ++ ("\x7b" :: (flattenLines lines ++ "\x7d" :: (flattenBlocks rest ++ more))) := by
      simp [flattenBlocks]
    rw [words, foldFrom_words stack d hheader, foldFrom_open]
    -- The lines of the block are read above a stack on which the block is open.
    rw [foldFrom_flattenLines stack (d.pushAll header) [] .empty (flattenBlocks rest ++ more) hlines]
    have closed : (d.pushAll header).close (((Open.linesWith ⟨d.pushAll header, []⟩ .empty
        number).reverse ++ lines)) = d.closeAll [⟨header, lines⟩] :=
      Draft.close_pushAll hd hfirst lines
    rw [closed, foldFrom_flattenBlocks stack more rfl (.inl (by simp [Draft.closeAll])) hrest]
    rw [Draft.closeAll_cons]
termination_by sizeOf blocks

/-- Lines written flat are read as lines of the innermost open block, up to its closing brace. -/
theorem foldFrom_flattenLines (stack : List Open) (owner : Draft) (done : List Line) (d : Draft)
    {lines : List Line} (more : List String) (h : linesFoldable number lines = true) :
    foldFrom number (⟨owner, done⟩ :: stack) d (flattenLines lines ++ "\x7d" :: more) =
      foldFrom number stack
        (owner.close ((Open.linesWith ⟨owner, done⟩ d number).reverse ++ lines)) more := by
  match lines with
  | [] =>
    rw [flattenLines, List.nil_append, List.append_nil, foldFrom_close]
  | ⟨command, args, blocks, n⟩ :: rest =>
    rw [linesFoldable] at h
    simp only [Bool.and_eq_true, decide_eq_true_eq] at h
    obtain ⟨⟨⟨⟨hn, hwords⟩, hfirst⟩, hblocks⟩, hrest⟩ := h
    have words : flattenLines (⟨command, args, blocks, n⟩ :: rest) ++ "\x7d" :: more =
        "-" :: ((command :: args) ++ (flattenBlocks blocks ++
          (flattenLines rest ++ "\x7d" :: more))) := by
      simp [flattenLines]
    rw [words, foldFrom_dash, foldFrom_words _ _ hwords]
    have hheader : (Draft.empty.pushAll (command :: args)).header = [] := by
      unfold Draft.empty
      rw [Draft.pushAll_words]
    rw [foldFrom_flattenBlocks _ _ hheader (.inr hfirst) hblocks]
    rw [foldFrom_flattenLines stack owner _ _ more hrest]
    -- The dash before the next line, or the brace at the end, puts the line into the block.
    have line : Open.linesWith ⟨owner, Open.linesWith ⟨owner, done⟩ d number⟩
        ((Draft.empty.pushAll (command :: args)).closeAll blocks) number =
        ⟨command, args, blocks, n⟩ :: Open.linesWith ⟨owner, done⟩ d number := by
      rw [Open.linesWith, Draft.line?_closeAll, hn]
    rw [line, List.reverse_cons, List.append_assoc]
    rfl
termination_by sizeOf lines

end

/-- Folding undoes flattening, and finds all blocks closed. -/
theorem fold_flattenBlocks {args : List String} {blocks : List (Block Line)}
    (h : foldable number args blocks = true) :
    fold (args ++ flattenBlocks blocks) number = ⟨args, blocks, false⟩ := by
  rw [foldable, Bool.and_eq_true, Bool.and_eq_true] at h
  obtain ⟨⟨hargs, hfirst⟩, hblocks⟩ := h
  have hwords : Draft.empty.pushAll args = ⟨args.reverse, [], []⟩ := by
    unfold Draft.empty
    rw [Draft.pushAll_words, List.append_nil]
  have read : fold (args ++ flattenBlocks blocks) number =
      foldFrom number [] ((Draft.mk args.reverse [] []).closeAll blocks) [] := by
    unfold fold
    rw [foldFrom_words [] .empty hargs, hwords, ← List.append_nil (flattenBlocks blocks)]
    exact foldFrom_flattenBlocks [] [] rfl (.inr hfirst) hblocks
  rw [read]
  simp [foldFrom, finishFold, Draft.closeAll]

/-! ## No brace is taken for a typing error -/

mutual

theorem not_glued_flattenBlocks {blocks : List (Block Line)}
    (h : blocksFoldable number blocks = true) : ∀ w ∈ flattenBlocks blocks, hasGluedBrace w = false := by
  match blocks with
  | [] =>
    rw [flattenBlocks]
    exact fun w hw => absurd hw List.not_mem_nil
  | ⟨header, lines⟩ :: rest =>
    rw [blocksFoldable, Bool.and_eq_true, Bool.and_eq_true] at h
    obtain ⟨⟨hheader, hlines⟩, hrest⟩ := h
    intro w hw
    simp only [flattenBlocks, List.mem_append, List.mem_cons] at hw
    rcases hw with (hw | rfl | hw) | rfl | hw
    · exact (isFlatWord_iff.1 (List.all_eq_true.1 hheader w hw)).2.2.2
    · rfl
    · exact not_glued_flattenLines hlines w hw
    · rfl
    · exact not_glued_flattenBlocks hrest w hw

theorem not_glued_flattenLines {lines : List Line} (h : linesFoldable number lines = true) :
    ∀ w ∈ flattenLines lines, hasGluedBrace w = false := by
  match lines with
  | [] =>
    rw [flattenLines]
    exact fun w hw => absurd hw List.not_mem_nil
  | ⟨command, args, blocks, n⟩ :: rest =>
    rw [linesFoldable] at h
    simp only [Bool.and_eq_true, decide_eq_true_eq] at h
    obtain ⟨⟨⟨⟨-, hwords⟩, -⟩, hblocks⟩, hrest⟩ := h
    intro w hw
    simp only [flattenLines, List.mem_append, List.mem_cons] at hw
    rcases hw with ((rfl | hw) | hw) | hw
    · rfl
    · exact (isFlatWord_iff.1 (List.all_eq_true.1 hwords w (List.mem_cons.2 hw))).2.2.2
    · exact not_glued_flattenBlocks hblocks w hw
    · exact not_glued_flattenLines hrest w hw

end

/-- Flat words without glued braces are left as they are. -/
theorem flatMap_ungluedWord_of_not_glued {ws : List String} (h : ∀ w ∈ ws, hasGluedBrace w = false) :
    ws.flatMap ungluedWord = ws := by
  induction ws with
  | nil => rfl
  | cons w ws ih =>
    have first : ungluedWord w = [w] := by
      unfold ungluedWord
      rw [h w List.mem_cons_self]
      rfl
    rw [List.flatMap_cons, first, ih fun v hv => h v (List.mem_cons_of_mem _ hv)]
    rfl

/-- The words of a command that can be told apart are left as they are. -/
theorem flatMap_ungluedWord {args : List String} {blocks : List (Block Line)}
    (h : foldable number args blocks = true) :
    (args ++ flattenBlocks blocks).flatMap ungluedWord = args ++ flattenBlocks blocks ∧
      (args ++ flattenBlocks blocks).filter hasGluedBrace = [] := by
  rw [foldable, Bool.and_eq_true, Bool.and_eq_true] at h
  obtain ⟨⟨hargs, -⟩, hblocks⟩ := h
  have unglued : ∀ w ∈ args ++ flattenBlocks blocks, hasGluedBrace w = false := by
    intro w hw
    rcases List.mem_append.1 hw with hw | hw
    · exact (isFlatWord_iff.1 (List.all_eq_true.1 hargs w hw)).2.2.2
    · exact not_glued_flattenBlocks hblocks w hw
  exact ⟨flatMap_ungluedWord_of_not_glued unglued,
    List.filter_eq_nil_iff.2 fun w hw => by simp [unglued w hw]⟩

end Source

/-! ## Compiling -/

/-- A command given as flat words compiles as it does with its blocks apart, to the same command and
with the same notes. -/
theorem buildFlat_flattenBlocks {number : Int} {args : List String} {blocks : List (Block Line)}
    (h : Line.foldable number args blocks = true) (catalogue : Catalogue)
    (script : Option ScriptRef) (command : String) :
    buildFlat catalogue script command (args ++ Line.flattenBlocks blocks) number =
      buildLine catalogue script ⟨command, args, blocks, number⟩ := by
  obtain ⟨hwords, hglued⟩ := Source.flatMap_ungluedWord h
  unfold buildFlat
  rw [hwords, Source.fold_flattenBlocks h, buildLine]
  simp [gluedFaults, hglued]

/-- Giving a command flat or with its blocks apart is the same: folding gives back the words and the
blocks and finds none unclosed, and the engine compiles the same command and shows the same
diagnostics.  The words must not be mistaken for braces and dashes, the first block of every command
has no header, and all lines have the number of the command. -/
theorem flat_words_preprocess_identically {number : Int} {args : List String}
    {blocks : List (Block Line)} (h : Line.foldable number args blocks = true)
    (script : Option ScriptRef) (command : String) :
    Source.fold (args ++ Line.flattenBlocks blocks) number = ⟨args, blocks, false⟩ ∧
    (∀ catalogue, buildFlat catalogue script command (args ++ Line.flattenBlocks blocks) number =
      buildLine catalogue script ⟨command, args, blocks, number⟩) ∧
    Host.compileCommand command (args ++ Line.flattenBlocks blocks) script number none =
      Host.compileCommand command args script number (some blocks) := by
  refine ⟨Source.fold_flattenBlocks h, fun catalogue => buildFlat_flattenBlocks h catalogue script
    command, ?_⟩
  unfold Host.compileCommand
  simp only [buildFlat_flattenBlocks h]

/-- A condition with two blocks inside a loop, in an engine that knows both commands. -/
theorem flat_words_preprocess_identically_nested :
    let blocks : List (Block Line) :=
      [⟨[], [⟨"if", ["<[x]>"], [⟨[], [⟨"debug", ["a b"], [], 7⟩]⟩, ⟨["else"], []⟩], 7⟩,
        ⟨"^define", ["x", "a<\x7b"], [], 7⟩]⟩]
    Line.foldable 7 ["3", "as:x"] blocks = true ∧
    Source.fold (["3", "as:x"] ++ Line.flattenBlocks blocks) 7 = ⟨["3", "as:x"], blocks, false⟩ ∧
    (∀ catalogue, buildFlat catalogue none "~repeat" (["3", "as:x"] ++ Line.flattenBlocks blocks) 7 =
      buildLine catalogue none ⟨"~repeat", ["3", "as:x"], blocks, 7⟩) ∧
    Host.compileCommand "~repeat" (["3", "as:x"] ++ Line.flattenBlocks blocks) none 7 none =
      Host.compileCommand "~repeat" ["3", "as:x"] none 7 (some blocks) := by
  intro blocks
  have h : Line.foldable 7 ["3", "as:x"] blocks = true := by decide +kernel
  exact ⟨h, flat_words_preprocess_identically h none "~repeat"⟩

end QueueScript
