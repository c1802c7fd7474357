import QueueScript.Proofs.Source.ShownWords
import QueueScript.Source.Script

/-!
# Printed scripts are read back

A forest of command lines is printed as a script: one command a line after a dash, its words shown as
in diagnostics, with a brace at the end of the line if it has blocks, the lines of each block, a line
with the header between two blocks and a closing brace at the end.  Reading such a script gives back
the forest, with the numbers of the printed lines, and finds no fault.

A line is read in two steps.  `Statement.ofLine` tells what it means by itself, which is a matter of
words, and `Progress.step` puts it in its place below the blocks that are open.  The second step is
followed by recursion over the forest, for any blocks that are open and any lines that come after.
-/

namespace QueueScript

/-- Whether a word can be printed in a script: bare, and not taken for one that opens a block, or in
quotes, and on one line. -/
def isPrintable (w : String) : Bool :=
  (isBare w && w.toList.getLast? != some '{') || (isQuotable w && !w.toList.contains '\n')

namespace Line

/-! ## Printing -/

/-- The brace that opens a block, if there is one. -/
def openingBrace (opens : Bool) : List String :=
  if opens then ["\x7b"] else []

/-- The source line of a command. -/
def commandText (command : String) (args : List String) (opens : Bool) : String :=
  showWords ("-" :: (command :: args ++ openingBrace opens).map showWord)

/-- The source line between two blocks. -/
def headerText (header : List String) : String :=
  showWords ("\x7d" :: (header ++ openingBrace true).map showWord)

mutual

/-- The source lines of command lines. -/
def printLines : List Line → List String
  | [] => []
  | ⟨command, args, blocks, _⟩ :: rest =>
    commandText command args (!blocks.isEmpty) :: printBlocks true blocks ++ printLines rest

/-- The source lines of blocks, up to the brace that closes the last one.  The first block is opened by
the command itself. -/
def printBlocks (first : Bool) : List (Block Line) → List String
  | [] => if first then [] else ["\x7d"]
  | ⟨header, lines⟩ :: rest =>
    (if first then [] else [headerText header]) ++ printLines lines ++ printBlocks false rest

end

/-- The text of a script. -/
def print (lines : List Line) : String :=
  String.intercalate "\n" (printLines lines)

/-! ## Numbers of printed lines -/

mutual

/-- The lines with the numbers of their source lines, if the first one is printed on a given line. -/
def numberLines (number : Int) : List Line → List Line
  | [] => []
  | ⟨command, args, blocks, _⟩ :: rest =>
    ⟨command, args, numberBlocks (number + 1) blocks, number⟩ ::
      numberLines (number + 1 + (printBlocks true blocks).length) rest

/-- The blocks with the numbers of their source lines, if the lines of the first one are printed from a
given line on.  A line with a brace comes after each block. -/
def numberBlocks (number : Int) : List (Block Line) → List (Block Line)
  | [] => []
  | ⟨header, lines⟩ :: rest =>
    ⟨header, numberLines number lines⟩ ::
      numberBlocks (number + (printLines lines).length + 1) rest

end

mutual

/-- Whether all words of the lines can be printed, and no first block has a header. -/
def linesPrintable : List Line → Bool
  | [] => true
  | ⟨command, args, blocks, _⟩ :: rest =>
    (command :: args).all isPrintable && blocks.head?.all (·.header.isEmpty) &&
      blocksPrintable blocks && linesPrintable rest

/-- Whether all words of the blocks can be printed. -/
def blocksPrintable : List (Block Line) → Bool
  | [] => true
  | ⟨header, lines⟩ :: rest =>
    header.all isPrintable && linesPrintable lines && blocksPrintable rest

end

end Line

open Line (openingBrace commandText headerText printLines printBlocks numberLines numberBlocks
  linesPrintable blocksPrintable)

variable {w : String} {ws : List String} {opens : Bool}

/-! ## Words of a printed line -/

theorem isPrintable_shown (h : isPrintable w = true) : isBare w = true ∨ isQuotable w = true := by
  simp only [isPrintable, Bool.or_eq_true, Bool.and_eq_true] at h
  exact h.imp And.left And.left

/-- A printable word is in quotes, or does not end in a brace. -/
theorem isPrintable_last (h : isPrintable w = true) :
    needsQuotes w = true ∨ w.toList.getLast? ≠ some '{' := by
  simp only [isPrintable, Bool.or_eq_true, Bool.and_eq_true] at h
  rcases h with h | h
  · exact .inr (by simpa using h.2)
  · simp only [isQuotable, Bool.and_eq_true] at h
    exact .inl h.1.1

theorem shown_openingBrace (h : w ∈ openingBrace opens) : isBare w = true ∨ isQuotable w = true := by
  cases opens with
  | false => simp [openingBrace] at h
  | true =>
    rw [openingBrace, if_pos rfl, List.mem_singleton] at h
    subst h
    exact .inl (by decide +kernel)

/-- The word that a shown word is read as. -/
def shownWord (w : String) : Word :=
  ⟨w, needsQuotes w⟩

theorem texts_shownWords (ws : List String) : Word.texts (ws.map shownWord) = ws := by
  rw [Word.texts, List.map_map]
  exact List.map_id ws

namespace Source

/-- Printed words are split into themselves, with the brace at their end. -/
theorem lineWords_printed (h : ∀ w ∈ ws, isPrintable w = true) :
    lineWords (showWords ((ws ++ openingBrace opens).map showWord)) =
      (ws ++ openingBrace opens).map shownWord := by
  have split : splitWords (showWords ((ws ++ openingBrace opens).map showWord)) =
      (ws ++ openingBrace opens).map shownWord := by
    refine splitWords_showWords fun w hw => ?_
    rcases List.mem_append.1 hw with hw | hw
    · exact isPrintable_shown (h w hw)
    · exact shown_openingBrace hw
  unfold lineWords
  rw [split]
  dsimp only
  split
  · rename_i last hlast
    refine if_neg fun hglued => ?_
    simp only [Bool.and_eq_true, Bool.not_eq_true', decide_eq_true_eq] at hglued
    obtain ⟨⟨⟨hquoted, hlength⟩, hbrace⟩, -⟩ := hglued
    obtain ⟨w, hw, rfl⟩ : ∃ w ∈ ws ++ openingBrace opens, shownWord w = last :=
      List.mem_map.1 (List.mem_of_getLast? hlast)
    have hend : w.toList.getLast? = some '{' := by
      have hsuffix : ['{'] <:+ w.toList := by
        simpa [shownWord] using String.Slice.endsWith_string_iff.1 hbrace
      obtain ⟨before, hbefore⟩ := hsuffix
      rw [← hbefore, List.getLast?_concat]
    rcases List.mem_append.1 hw with hw | hw
    · rcases isPrintable_last (h w hw) with hneeds | hplain
      · exact absurd (hquoted.symm.trans hneeds) nofun
      · exact hplain hend
    · -- The brace that opens the block stands alone.
      have hw : w = "\x7b" := by
        cases opens with
        | false => simp [openingBrace] at hw
        | true => simpa [openingBrace] using hw
      subst hw
      exact absurd hlength (by decide)
  · rfl

/-- Printed words open a block if a brace was put at their end. -/
theorem opensBlock_printed (h : ∀ w ∈ ws, isPrintable w = true) :
    opensBlock ((ws ++ openingBrace opens).map shownWord) = opens := by
  have brace : shownWord "\x7b" = ⟨"\x7b", false⟩ := by decide
  unfold opensBlock
  cases opens with
  | true =>
    rw [openingBrace, if_pos rfl, List.map_append, List.map_singleton, brace, List.getLast?_concat]
    rfl
  | false =>
    rw [openingBrace, if_neg Bool.false_ne_true, List.append_nil]
    refine beq_eq_false_iff_ne.2 fun hlast => ?_
    obtain ⟨w, hw, hshown⟩ := List.mem_map.1 (List.mem_of_getLast? hlast)
    have htext : w = "\x7b" := congrArg Word.text hshown
    have hquoted : needsQuotes w = false := congrArg Word.quoted hshown
    rcases isPrintable_last (h w hw) with hneeds | hplain
    · exact absurd (hquoted.symm.trans hneeds) nofun
    · exact hplain (by rw [htext]; rfl)

/-- The words before the brace. -/
theorem texts_printed (ws : List String) (opens : Bool) :
    Word.texts (if opens then ((ws ++ openingBrace opens).map shownWord).dropLast
      else (ws ++ openingBrace opens).map shownWord) = ws := by
  cases opens with
  | true =>
    rw [if_pos rfl, openingBrace, if_pos rfl, List.map_append, List.map_singleton,
      List.dropLast_concat, texts_shownWords]
  | false =>
    rw [if_neg Bool.false_ne_true, openingBrace, if_neg Bool.false_ne_true, List.append_nil,
      texts_shownWords]

/-! ## The meaning of a printed line -/

/-- A text between two characters that are not white space has nothing to trim. -/
theorem trim_eq_self {s : String} {a b : Char} (ha : s.toList.head? = some a)
    (hb : s.toList.getLast? = some b) (hab : Text.isBlank a = false ∧ Text.isBlank b = false) :
    Text.trim s = s := by
  have drop {c : Char} {cs : List Char} (hc : cs.head? = some c) (hblank : Text.isBlank c = false) :
      cs.dropWhile Text.isBlank = cs := by
    cases cs with
    | nil => rfl
    | cons d cs =>
      obtain rfl : d = c := by simpa using hc
      rw [List.dropWhile_cons, hblank]
      rfl
  rw [Text.trim, Text.trimChars, drop ha hab.1, drop (List.head?_reverse.trans hb) hab.2,
    List.reverse_reverse, String.ofList_toList]

/-- A shown word does not end in white space. -/
theorem showWord_last (w : String) :
    ∃ b, (showWord w).toList.getLast? = some b ∧ Text.isBlank b = false := by
  unfold showWord
  split
  · split
    · exact ⟨'\'', by rw [String.toList_append]; exact List.getLast?_concat, by decide⟩
    · exact ⟨'"', by rw [String.toList_append]; exact List.getLast?_concat, by decide⟩
  · rename_i hneeds
    rw [Bool.or_eq_true, not_or, Text.hasBlank, List.any_eq_true, not_exists] at hneeds
    have hne : w.toList ≠ [] := fun hempty => hneeds.1 (by simpa using hempty)
    refine ⟨w.toList.getLast hne, List.getLast?_eq_some_getLast hne, ?_⟩
    exact Bool.eq_false_iff.2 fun hblank => hneeds.2 _ ⟨List.getLast_mem hne, hblank⟩

/-- A line of shown words does not end in white space. -/
theorem showWords_last (hne : ws ≠ []) :
    ∃ b, (showWords (ws.map showWord)).toList.getLast? = some b ∧ Text.isBlank b = false := by
  induction ws with
  | nil => exact absurd rfl hne
  | cons w ws ih =>
    cases ws with
    | nil => simpa [showWords] using showWord_last w
    | cons v vs =>
      obtain ⟨b, hb, hblank⟩ := ih (by simp)
      refine ⟨b, ?_, hblank⟩
      have joined : showWords ((w :: v :: vs).map showWord) =
          showWord w ++ " " ++ showWords ((v :: vs).map showWord) :=
        String.intercalate_cons_cons
      rw [joined, String.toList_append, List.getLast?_append, hb]
      rfl

/-- A line that begins with a mark, before shown words. -/
theorem toList_marked {mark : String} {c : Char} (hmark : mark.toList = [c]) (hne : ws ≠ []) :
    (showWords (mark :: ws.map showWord)).toList =
      c :: ' ' :: (showWords (ws.map showWord)).toList := by
  cases ws with
  | nil => exact absurd rfl hne
  | cons v vs =>
    have joined : showWords (mark :: (v :: vs).map showWord) =
        mark ++ " " ++ showWords ((v :: vs).map showWord) :=
      String.intercalate_cons_cons
    rw [joined, String.toList_append, String.toList_append, hmark]
    rfl

/-- A marked line has nothing to trim. -/
theorem trim_marked {mark : String} {c : Char} (hmark : mark.toList = [c])
    (hblank : Text.isBlank c = false) (hne : ws ≠ []) :
    Text.trim (showWords (mark :: ws.map showWord)) = showWords (mark :: ws.map showWord) := by
  obtain ⟨b, hb, hend⟩ := showWords_last hne
  have htext := toList_marked hmark hne
  refine trim_eq_self (a := c) (b := b) ?_ ?_ ⟨hblank, hend⟩
  · rw [htext]
    rfl
  · rw [htext, List.getLast?_cons_cons, List.getLast?_cons, hb]
    rfl

/-- A printed command is read as this command. -/
theorem ofLine_commandText {command : String} {args : List String}
    (h : ∀ w ∈ command :: args, isPrintable w = true) :
    Statement.ofLine (commandText command args opens) = .command command args opens := by
  let ws := command :: args ++ openingBrace opens
  have hne : ws ≠ [] := by simp [ws]
  have htrim : Text.trim (commandText command args opens) = commandText command args opens :=
    trim_marked rfl (by decide) hne
  have htext : (commandText command args opens).toList =
      '-' :: ' ' :: (showWords (ws.map showWord)).toList := toList_marked rfl hne
  have starts (mark : Char) (hmark : mark ≠ '-') :
      (commandText command args opens).startsWith (String.singleton mark) = false := by
    refine Bool.eq_false_iff.2 fun hstart => hmark ?_
    rw [String.startsWith_string_iff, htext] at hstart
    simpa using hstart
  have hempty : (commandText command args opens).isEmpty = false := by
    refine Bool.eq_false_iff.2 fun h => ?_
    rw [String.isEmpty_iff.1 h] at htext
    exact absurd htext (by simp)
  have hdash : withoutDash (commandText command args opens) = showWords (ws.map showWord) := by
    have hlong : commandText command args opens ≠ "-" := by
      intro h
      rw [h] at htext
      exact absurd (congrArg List.length htext) (by simp)
    have hstart : (commandText command args opens).startsWith "- " = true := by
      rw [String.startsWith_string_iff, htext]
      exact ⟨_, rfl⟩
    rw [withoutDash, if_neg hlong, if_pos hstart, htext]
    exact String.ofList_toList
  have hhash : (commandText command args opens).startsWith "#" = false := starts '#' (by decide)
  have hclose : (commandText command args opens).startsWith "\x7d" = false :=
    starts '}' (by decide)
  unfold Statement.ofLine
  dsimp only
  rw [htrim, hempty, hhash, hclose, hdash, lineWords_printed h, opensBlock_printed h, texts_printed]
  rfl

/-- A line that begins with a closing brace closes a block. -/
theorem ofLine_of_brace {text : String} {rest : List Char} (htext : text.toList = '}' :: rest)
    (htrim : Text.trim text = text) :
    Statement.ofLine text = .close (lineWords (String.ofList rest)) := by
  have hempty : text.isEmpty = false := by
    refine Bool.eq_false_iff.2 fun h => ?_
    rw [String.isEmpty_iff.1 h] at htext
    exact absurd htext (by simp)
  have hhash : text.startsWith "#" = false := by
    refine Bool.eq_false_iff.2 fun hstart => ?_
    rw [String.startsWith_string_iff, htext] at hstart
    simp at hstart
  have hclose : text.startsWith "\x7d" = true := by
    rw [String.startsWith_string_iff, htext]
    exact ⟨_, rfl⟩
  unfold Statement.ofLine
  dsimp only
  rw [htrim, hempty, hhash, hclose, htext]
  rfl

/-- A printed header is read as the end of a block and the words of the next one. -/
theorem ofLine_headerText {header : List String} (h : ∀ w ∈ header, isPrintable w = true) :
    Statement.ofLine (headerText header) = .close ((header ++ openingBrace true).map shownWord) := by
  let ws := header ++ openingBrace true
  have hne : ws ≠ [] := by simp [ws, openingBrace]
  -- The space after the brace separates nothing from the first word.
  have split : splitWords (String.ofList (' ' :: (showWords (ws.map showWord)).toList)) =
      splitWords (showWords (ws.map showWord)) := by
    rw [splitWords, String.toList_ofList, wordsFrom_end rfl rfl (endsWord_space _)]
    rfl
  have hspace : lineWords (String.ofList (' ' :: (showWords (ws.map showWord)).toList)) =
      lineWords (showWords (ws.map showWord)) := by
    unfold lineWords
    rw [split]
  have htext : (headerText header).toList = '}' :: ' ' :: (showWords (ws.map showWord)).toList :=
    toList_marked rfl hne
  rw [ofLine_of_brace htext (trim_marked rfl (by decide) hne), hspace, lineWords_printed h]

theorem ofLine_close : Statement.ofLine "\x7d" = .close [] :=
  have brace : "\x7d".toList = '}' :: [] := rfl
  ofLine_of_brace brace (trim_eq_self rfl rfl ⟨by decide, by decide⟩)

theorem ofLine_empty : Statement.ofLine "" = .nothing := by
  have htrim : Text.trim "" = "" := rfl
  unfold Statement.ofLine
  dsimp only
  rw [htrim]
  rfl

/-! ## The place of a printed line -/

/-- More complete lines, in the innermost open block if there is one. -/
def Progress.addAll (p : Progress) (lines : List Line) : Progress :=
  lines.foldl Progress.add p

/-- Lines are put into the innermost open block. -/
theorem Progress.addAll_open {p : Progress} {o : OpenLine} {outer : List OpenLine}
    (hp : p.stack = o :: outer) (lines : List Line) :
    p.addAll lines = { p with stack := { o with lines := lines.reverse ++ o.lines } :: outer } := by
  induction lines generalizing p o with
  | nil =>
    obtain ⟨_, stack, _⟩ := p
    obtain rfl : stack = o :: outer := hp
    rfl
  | cons line lines ih =>
    have step : p.add line = { p with stack := { o with lines := line :: o.lines } :: outer } := by
      unfold Progress.add
      rw [hp]
    show (p.add line).addAll lines = _
    rw [step, ih rfl, List.reverse_cons, List.append_assoc]
    rfl

/-- Lines outside any block. -/
theorem Progress.addAll_outside {p : Progress} (hp : p.stack = []) (lines : List Line) :
    p.addAll lines = { p with lines := lines.reverse ++ p.lines } := by
  induction lines generalizing p with
  | nil => rfl
  | cons line lines ih =>
    have step : p.add line = { p with lines := line :: p.lines } := by
      unfold Progress.add
      rw [hp]
    show (p.add line).addAll lines = _
    rw [step, ih (p := { p with lines := line :: p.lines }) hp, List.reverse_cons,
      List.append_assoc]
    rfl

theorem steps_cons (p : Progress) (number : Int) (text : String) (rest : List String) :
    p.steps number (text :: rest) = (p.step number text).steps (number + 1) rest := by
  rw [Progress.steps]

mutual

/-- The lines of a printed forest are put, with their numbers, where a line would be put. -/
theorem steps_printLines (p : Progress) (number : Int) {lines : List Line} (more : List String)
    (h : linesPrintable lines = true) :
    p.steps number (printLines lines ++ more) =
      (p.addAll (numberLines number lines)).steps (number + (printLines lines).length) more := by
  match lines with
  | [] => simp [printLines, numberLines, Progress.addAll]
  | ⟨command, args, [], n⟩ :: rest =>
    rw [linesPrintable, Bool.and_eq_true, Bool.and_eq_true, Bool.and_eq_true] at h
    obtain ⟨⟨⟨hwords, -⟩, -⟩, hrest⟩ := h
    have words : Statement.ofLine (commandText command args false) = .command command args false :=
      ofLine_commandText (List.all_eq_true.1 hwords)
    have text : printLines (⟨command, args, [], n⟩ :: rest) ++ more =
        commandText command args false :: (printLines rest ++ more) := by
      simp [printLines, printBlocks]
    have step : p.step number (commandText command args false) = p.add ⟨command, args, [], number⟩ := by
      unfold Progress.step
      rw [words]
      rfl
    have numbers : numberLines number (⟨command, args, [], n⟩ :: rest) =
        ⟨command, args, [], number⟩ :: numberLines (number + 1) rest := by
      simp [numberLines, numberBlocks, printBlocks]
    have length : number + (printLines (⟨command, args, [], n⟩ :: rest)).length =
        number + 1 + (printLines rest).length := by
      simp [printLines, printBlocks]
      omega
    rw [text, steps_cons, step, steps_printLines _ _ more hrest, numbers, length]
    rfl
  | ⟨command, args, ⟨header, body⟩ :: later, n⟩ :: rest =>
    rw [linesPrintable, blocksPrintable] at h
    simp only [Bool.and_eq_true] at h
    obtain ⟨⟨⟨hwords, hheader⟩, ⟨-, hbody⟩, hlater⟩, hrest⟩ := h
    obtain rfl : header = [] := by simpa using hheader
    have words : Statement.ofLine (commandText command args true) = .command command args true :=
      ofLine_commandText (List.all_eq_true.1 hwords)
    have text : printLines (⟨command, args, ⟨[], body⟩ :: later, n⟩ :: rest) ++ more =
        commandText command args true :: (printLines body ++ (printBlocks false later ++
          (printLines rest ++ more))) := by
      simp [printLines, printBlocks]
    have step : p.step number (commandText command args true) =
        { p with stack := ⟨command, args, number, [], [], []⟩ :: p.stack } := by
      unfold Progress.step
      rw [words]
      rfl
    have numbers : numberLines number (⟨command, args, ⟨[], body⟩ :: later, n⟩ :: rest) =
        ⟨command, args, ⟨[], numberLines (number + 1) body⟩ ::
          numberBlocks (number + 1 + (printLines body).length + 1) later, number⟩ ::
        numberLines (number + 1 + (printLines body).length + (printBlocks false later).length)
          rest := by
      simp [numberLines, numberBlocks, printBlocks, Int.add_assoc]
    have length : number + (printLines (⟨command, args, ⟨[], body⟩ :: later, n⟩ :: rest)).length =
        number + 1 + (printLines body).length + (printBlocks false later).length +
          (printLines rest).length := by
      simp [printLines, printBlocks]
      omega
    rw [text, steps_cons, step, steps_printLines _ _ _ hbody, Progress.addAll_open rfl,
      steps_printBlocks _ _ rfl hlater, steps_printLines _ _ more hrest, numbers, length]
    simp [Progress.addAll, OpenLine.line, OpenLine.closed]
termination_by sizeOf lines

/-- The lines of later blocks, up to the brace that closes the last one, complete the command whose
block is open. -/
theorem steps_printBlocks {p : Progress} {o : OpenLine} {outer : List OpenLine} (number : Int)
    {blocks : List (Block Line)} (more : List String) (hp : p.stack = o :: outer)
    (h : blocksPrintable blocks = true) :
    p.steps number (printBlocks false blocks ++ more) =
      ({ p with stack := outer }.add
        { o.line with blocks := o.line.blocks ++ numberBlocks (number + 1) blocks }).steps
          (number + (printBlocks false blocks).length) more := by
  match blocks with
  | [] =>
    have text : printBlocks false [] = ["\x7d"] := by simp [printBlocks]
    have step : p.step number "\x7d" = { p with stack := outer }.add o.line := by
      unfold Progress.step
      rw [ofLine_close, hp]
      rfl
    rw [text, List.singleton_append, steps_cons, step, numberBlocks, List.append_nil]
    rfl
  | ⟨header, lines⟩ :: rest =>
    rw [blocksPrintable, Bool.and_eq_true, Bool.and_eq_true] at h
    obtain ⟨⟨hheader, hlines⟩, hrest⟩ := h
    have hwords := List.all_eq_true.1 hheader
    have text : printBlocks false (⟨header, lines⟩ :: rest) ++ more =
        headerText header :: (printLines lines ++ (printBlocks false rest ++ more)) := by
      simp [printBlocks]
    have step : p.step number (headerText header) =
        { p with stack := { o with done := o.closed, header := header, lines := [] } :: outer } := by
      have hopens : opensBlock ((header ++ openingBrace true).map shownWord) = true :=
        opensBlock_printed hwords
      have htexts := texts_printed header true
      unfold Progress.step
      rw [ofLine_headerText hwords, hp]
      dsimp only
      rw [if_neg (by simp [openingBrace]), if_pos hopens]
      rw [if_pos rfl] at htexts
      rw [htexts]
    have length : number + (printBlocks false (⟨header, lines⟩ :: rest)).length =
        number + 1 + (printLines lines).length + (printBlocks false rest).length := by
      simp [printBlocks]
      omega
    rw [text, steps_cons, step, steps_printLines _ _ _ hlines, Progress.addAll_open rfl,
      steps_printBlocks _ more rfl hrest, length]
    simp [numberBlocks, OpenLine.line, OpenLine.closed]
termination_by sizeOf blocks

end

/-! ## Scripts -/

/-- Splitting a text is splitting the list of its characters. -/
theorem splitChars_eq_splitOnP (p : Char → Bool) (cs : List Char) :
    Text.splitChars p cs = cs.splitOnP p := by
  induction cs with
  | nil => rfl
  | cons c cs ih =>
    have hne := Text.splitChars_ne_nil p cs
    rw [Text.splitChars, List.splitOnP_cons_eq_if_modifyHead, ← ih]
    split
    · rfl
    · cases hs : Text.splitChars p cs with
      | nil => exact absurd hs hne
      | cons piece pieces => rfl

/-- Texts on lines of their own are split into the lines. -/
theorem splitAt_intercalate {texts : List String} (hne : texts ≠ [])
    (h : ∀ text ∈ texts, '\n' ∉ text.toList) :
    Text.splitAt '\n' (String.intercalate "\n" texts) = texts := by
  have split : Text.splitChars (· == '\n') (['\n'].intercalate (texts.map String.toList)) =
      texts.map String.toList := by
    rw [splitChars_eq_splitOnP]
    refine List.splitOn_intercalate '\n' (fun cs hcs => ?_) (by simpa using hne)
    obtain ⟨text, htext, rfl⟩ := List.mem_map.1 hcs
    exact h text htext
  rw [Text.splitAt, String.toList_intercalate]
  refine (congrArg (List.map String.ofList) split).trans ?_
  rw [List.map_map]
  exact (List.map_congr_left fun text _ => String.ofList_toList).trans (List.map_id texts)

theorem newline_not_mem_showWord (h : isPrintable w = true) : '\n' ∉ (showWord w).toList := by
  simp only [isPrintable, isBare, Bool.or_eq_true, Bool.and_eq_true, Bool.not_eq_true'] at h
  rcases h with h | h
  · have hneeds : (w.isEmpty || Text.hasBlank w) = false := h.1.1.1
    have hshow : showWord w = w := if_neg (by rw [hneeds]; exact Bool.false_ne_true)
    rw [Bool.or_eq_false_iff, Text.hasBlank, List.any_eq_false] at hneeds
    rw [hshow]
    exact fun hmem => hneeds.2 _ hmem (by decide)
  · have hnone : '\n' ∉ w.toList := by simpa using h.2
    unfold showWord
    split
    · split
      · simpa using hnone
      · simpa using hnone
    · exact hnone

theorem newline_not_mem_showWords (h : ∀ w ∈ ws, '\n' ∉ w.toList) :
    '\n' ∉ (showWords ws).toList := by
  unfold showWords
  rw [String.toList_intercalate]
  induction ws with
  | nil => exact List.not_mem_nil
  | cons w ws ih =>
    have hw := h w List.mem_cons_self
    have ih := ih fun v hv => h v (List.mem_cons_of_mem _ hv)
    cases ws with
    | nil => simpa using hw
    | cons v vs =>
      rw [List.map_cons, List.map_cons, List.intercalate_cons_cons]
      simp only [List.mem_append, not_or]
      exact ⟨⟨hw, by decide⟩, ih⟩

/-- A marked line of printable words has no line feed. -/
theorem newline_not_mem_marked {mark : String} (hmark : '\n' ∉ mark.toList)
    (h : ∀ w ∈ ws, isPrintable w = true) :
    '\n' ∉ (showWords (mark :: (ws ++ openingBrace opens).map showWord)).toList := by
  refine newline_not_mem_showWords fun text htext => ?_
  rcases List.mem_cons.1 htext with rfl | htext
  · exact hmark
  · obtain ⟨w, hw, rfl⟩ := List.mem_map.1 htext
    rcases List.mem_append.1 hw with hw | hw
    · exact newline_not_mem_showWord (h w hw)
    · cases opens with
      | false => simp [openingBrace] at hw
      | true =>
        rw [openingBrace, if_pos rfl, List.mem_singleton] at hw
        subst hw
        decide +kernel

mutual

theorem newline_not_mem_printLines {lines : List Line} (h : linesPrintable lines = true) :
    ∀ text ∈ printLines lines, '\n' ∉ text.toList := by
  match lines with
  | [] => simp [printLines]
  | ⟨command, args, blocks, n⟩ :: rest =>
    rw [linesPrintable, Bool.and_eq_true, Bool.and_eq_true, Bool.and_eq_true] at h
    obtain ⟨⟨⟨hwords, -⟩, hblocks⟩, hrest⟩ := h
    intro text htext
    rw [printLines, List.mem_append, List.mem_cons] at htext
    rcases htext with (rfl | htext) | htext
    · exact newline_not_mem_marked (by decide) (List.all_eq_true.1 hwords)
    · exact newline_not_mem_printBlocks hblocks text htext
    · exact newline_not_mem_printLines hrest text htext

theorem newline_not_mem_printBlocks {first : Bool} {blocks : List (Block Line)}
    (h : blocksPrintable blocks = true) : ∀ text ∈ printBlocks first blocks, '\n' ∉ text.toList := by
  match blocks with
  | [] =>
    intro text htext
    cases first with
    | true => simp [printBlocks] at htext
    | false =>
      rw [printBlocks, if_neg Bool.false_ne_true, List.mem_singleton] at htext
      subst htext
      decide
  | ⟨header, lines⟩ :: rest =>
    rw [blocksPrintable, Bool.and_eq_true, Bool.and_eq_true] at h
    obtain ⟨⟨hheader, hlines⟩, hrest⟩ := h
    intro text htext
    rw [printBlocks, List.mem_append, List.mem_append] at htext
    rcases htext with (htext | htext) | htext
    · cases first with
      | true => simp at htext
      | false =>
        rw [if_neg Bool.false_ne_true, List.mem_singleton] at htext
        subst htext
        exact newline_not_mem_marked (by decide) (List.all_eq_true.1 hheader)
    · exact newline_not_mem_printLines hlines text htext
    · exact newline_not_mem_printBlocks hrest text htext

end

/-- A script is read as its source lines are. -/
theorem parse_print_eq {lines : List Line} (h : linesPrintable lines = true) :
    parse (Line.print lines) = (Progress.start.steps 1 (printLines lines)).finish := by
  unfold parse Line.print
  by_cases hne : printLines lines = []
  · -- Nothing is printed, and the empty text has one line that is blank.
    rw [hne]
    show (Progress.start.step 1 "").finish = _
    unfold Progress.step
    rw [ofLine_empty]
    rfl
  · rw [splitAt_intercalate hne (newline_not_mem_printLines h)]

/-- Reading a printed forest gives back the forest, every command with the number of its printed line,
and finds no fault. -/
theorem loader_reads_back {lines : List Line} (h : linesPrintable lines = true) :
    parse (Line.print lines) = ⟨numberLines 1 lines, []⟩ := by
  have read := steps_printLines Progress.start 1 [] h
  rw [List.append_nil, Progress.addAll_outside rfl] at read
  rw [parse_print_eq h, read]
  simp [Progress.steps, Progress.start, Progress.finish, Progress.closed]

example : Line.print
    [⟨"if", ["a b"], [⟨[], [⟨"stop", [], [], 0⟩]⟩, ⟨["else"], []⟩], 0⟩] =
      "- if \"a b\" \x7b\n- stop\n\x7d else \x7b\n\x7d" := by
  decide +kernel

/-- A loop around a condition with two blocks, with words that need quotes and words with tags. -/
theorem loader_reads_back_nested :
    let lines : List Line :=
      [⟨"repeat", ["3", "as:x"],
        [⟨[], [⟨"if", ["<[x]>", "==", "a 'b\" c"],
          [⟨[], [⟨"debug", ["", "<entry[a b].c>"], [], 0⟩]⟩, ⟨["else", "d e"], []⟩], 0⟩]⟩], 0⟩,
        ⟨"#", ["\x7d"], [], 0⟩]
    linesPrintable lines = true ∧ parse (Line.print lines) = ⟨numberLines 1 lines, []⟩ := by
  intro lines
  have h : linesPrintable lines = true := by decide +kernel
  exact ⟨h, loader_reads_back h⟩

end Source

end QueueScript
