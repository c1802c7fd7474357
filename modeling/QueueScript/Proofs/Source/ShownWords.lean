import QueueScript.Words

/-!
# Words that are shown are read back

A word is shown in quotes if it is empty or has white space, and as it is otherwise.  Splitting a line
of shown words gives back the words, for words of two kinds: those that stand for themselves (`isBare`)
and those that may stand in quotes (`isQuotable`).  A word that leaves a tag open, has a quote where a
section would begin, or would end its own quotes early is of neither kind.

The splitter looks ahead, at the character after a `<` and for a closing quote in all the rest of the
line.  So each statement about a part of a line is about any continuation that begins with white space
or is empty.
-/

namespace QueueScript

/-! ## The two kinds of words -/

/-- The number of open tags after a text, from a number of open tags on. -/
def tagDepth (depth : Nat) : List Char → Nat
  | [] => depth
  | c :: rest => tagDepth (depthAfter depth (c :: rest)) rest

/-- Whether no quote stands where it may open a section: outside tags, at the start or right after a
colon.  `before` is the character before the text. -/
def quotesNowhere (depth : Nat) (before : Option Char) : List Char → Bool
  | [] => true
  | c :: rest =>
    !((c == '"' || c == '\'') && depth == 0 && (before.isNone || before == some ':')) &&
      quotesNowhere (depthAfter depth (c :: rest)) (some c) rest

/-- Whether a quote inside a text would close a section: it stands right before white space. -/
def closesInside (quote : Char) : List Char → Bool
  | c :: next :: rest => (c == quote && Text.isBlank next) || closesInside quote (next :: rest)
  | _ => false

/-- Whether a word is shown in quotes. -/
def needsQuotes (w : String) : Bool :=
  w.isEmpty || Text.hasBlank w

/-- Whether a word stands for itself: it needs no quotes, closes its tags and opens no section. -/
def isBare (w : String) : Bool :=
  !needsQuotes w && tagDepth 0 w.toList == 0 && quotesNowhere 0 none w.toList

/-- Whether a word may stand in quotes: one of the two quotes does not end it early. -/
def isQuotable (w : String) : Bool :=
  needsQuotes w && !(w.toList.contains '"' && closesInside '\'' w.toList)

/-! ## What may follow a word -/

/-- The text is empty or begins with white space, so that a word before it ends there. -/
def EndsWord (rest : List Char) : Prop :=
  rest.head?.all Text.isBlank = true

theorem endsWord_nil : EndsWord [] :=
  rfl

theorem endsWord_space (rest : List Char) : EndsWord (' ' :: rest) := by
  simp only [EndsWord, List.head?_cons, Option.all_some]
  decide

/-- The words after the one that has just ended. -/
def wordsAfter : List Char → List Word
  | [] => []
  | _ :: rest => wordsFrom .start rest

variable {r : Reading} {c quote : Char} {cs rest : List Char} {w : String}

/-- White space is neither a quote nor a bracket of a tag. -/
theorem isBlank_ne (h : Text.isBlank c = true) : c ≠ '"' ∧ c ≠ '\'' ∧ c ≠ '<' ∧ c ≠ '>' := by
  refine ⟨?_, ?_, ?_, ?_⟩
  all_goals
    rintro rfl
    revert h
    decide

/-- A text that begins with white space is no part of a tag that opens before it. -/
theorem opensTag_append (c : Char) (cs : List Char) (h : EndsWord rest) :
    opensTag (c :: (cs ++ rest)) = opensTag (c :: cs) := by
  by_cases hc : c = '<'
  · subst hc
    cases cs with
    | nil =>
      cases rest with
      | nil => rfl
      | cons b more =>
        have hb : Text.isBlank b = true := h
        simp [opensTag, hb]
    | cons d cs => rfl
  · have none (cs : List Char) : opensTag (c :: cs) = false := by
      cases cs with
      | nil => simp [opensTag]
      | cons d cs => simp [opensTag, hc]
    rw [none, none]

theorem depthAfter_append (depth : Nat) (c : Char) (cs : List Char) (h : EndsWord rest) :
    depthAfter depth (c :: (cs ++ rest)) = depthAfter depth (c :: cs) := by
  simp only [depthAfter, opensTag_append c cs h]

/-- A word ends at white space outside tags and sections. -/
theorem wordsFrom_end (ha : r.awaited = none) (hd : r.depth = 0) (h : EndsWord rest) :
    wordsFrom r rest = r.word ++ wordsAfter rest := by
  cases rest with
  | nil => simp [wordsFrom, wordsAfter]
  | cons b more =>
    have hb : Text.isBlank b = true := h
    obtain ⟨h₁, h₂, h₃, h₄⟩ := isBlank_ne hb
    have hopens : opensTag (b :: more) = false := by
      cases more with
      | nil => simp [opensTag]
      | cons d more => simp [opensTag, h₃]
    have hdepth : depthAfter r.depth (b :: more) = 0 := by
      simp [depthAfter, hopens, h₄, hd]
    rw [wordsFrom]
    simp only [ha]
    rw [if_neg (by simp [h₁, h₂]), hdepth, if_pos ⟨rfl, hb⟩]
    rfl

/-! ## Words that stand for themselves -/

/-- Characters that open no section and are no white space are read into the word. -/
theorem wordsFrom_bare (ha : r.awaited = none) (hb : ∀ c ∈ cs, Text.isBlank c = false)
    (hq : quotesNowhere r.depth r.chars.head? cs = true) (h : EndsWord rest) :
    wordsFrom r (cs ++ rest) =
      wordsFrom { r with chars := cs.reverse ++ r.chars, started := r.started || !cs.isEmpty,
                         depth := tagDepth r.depth cs } rest := by
  induction cs generalizing r with
  | nil => simp [tagDepth]
  | cons c cs ih =>
    rw [quotesNowhere, Bool.and_eq_true] at hq
    have hquote : ¬((c = '"' ∨ c = '\'') ∧ r.mayQuote = true ∧
        closesLater c (cs ++ rest) = true) := by
      rintro ⟨hc, hm, -⟩
      have hopens : ((c == '"' || c == '\'') && r.depth == 0 &&
          (r.chars.head?.isNone || r.chars.head? == some ':')) = true := by
        have hempty : r.chars.head?.isNone = r.chars.isEmpty := by
          cases r.chars <;> rfl
        rw [hempty, Bool.and_assoc, Bool.and_eq_true]
        exact ⟨by simpa using hc, hm⟩
      rw [hopens] at hq
      exact Bool.noConfusion hq.1
    have hc : Text.isBlank c = false := hb c List.mem_cons_self
    have step : wordsFrom r (c :: (cs ++ rest)) =
        wordsFrom { r.push c with depth := depthAfter r.depth (c :: cs) } (cs ++ rest) := by
      rw [wordsFrom]
      simp only [ha]
      rw [if_neg hquote, depthAfter_append r.depth c cs h, if_neg (by simp [hc])]
    rw [List.cons_append, step, ih (by simpa [Reading.push] using ha)
      (fun x hx => hb x (List.mem_cons_of_mem _ hx)) hq.2]
    simp [Reading.push, tagDepth]

/-! ## Words in quotes -/

/-- A quote before the end of a word closes a section. -/
theorem closesHere_end (quote : Char) (h : EndsWord rest) : closesHere quote (quote :: rest) = true := by
  cases rest with
  | nil => simp [closesHere]
  | cons b more =>
    have hb : Text.isBlank b = true := h
    simp [closesHere, hb]

theorem closesLater_append (quote : Char) (cs : List Char) (h : EndsWord rest) :
    closesLater quote (cs ++ quote :: rest) = true := by
  induction cs with
  | nil =>
    rw [List.nil_append, closesLater, closesHere_end quote h]
    rfl
  | cons c cs ih =>
    rw [List.cons_append, closesLater, ih, Bool.or_true]

/-- A section is read up to the quote at its end, if no quote inside closes it. -/
theorem wordsFrom_section (hs : r.started = true) (ha : r.awaited = some quote)
    (hquote : Text.isBlank quote = false) (hin : closesInside quote cs = false) (h : EndsWord rest) :
    wordsFrom r (cs ++ quote :: rest) =
      wordsFrom { r with chars := cs.reverse ++ r.chars, awaited := none } rest := by
  induction cs generalizing r with
  | nil =>
    rw [List.nil_append, wordsFrom]
    simp only [ha, closesHere_end quote h, if_true]
    rfl
  | cons c cs ih =>
    have hopen : closesHere quote (c :: (cs ++ quote :: rest)) = false ∧
        closesInside quote cs = false := by
      cases cs with
      | nil => exact ⟨by simp [closesHere, hquote], rfl⟩
      | cons d cs =>
        rw [closesInside, Bool.or_eq_false_iff] at hin
        exact ⟨hin.1, hin.2⟩
    have step : wordsFrom r (c :: (cs ++ quote :: rest)) =
        wordsFrom (r.push c) (cs ++ quote :: rest) := by
      rw [wordsFrom]
      simp only [ha, hopen.1]
      rfl
    rw [List.cons_append, step, ih (r := r.push c) rfl ha hopen.2]
    simp [Reading.push, hs]

/-- A text that lacks the quote does not close a section of it. -/
theorem closesInside_of_not_mem (h : quote ∉ cs) : closesInside quote cs = false := by
  induction cs with
  | nil => rfl
  | cons c cs ih =>
    rw [List.mem_cons, not_or] at h
    cases cs with
    | nil => rfl
    | cons d cs =>
      rw [closesInside, ih h.2]
      simp [Ne.symm h.1]

/-! ## Shown words -/

/-- A word in quotes is the text between them. -/
theorem wordsFrom_quoted (hquote : quote = '"' ∨ quote = '\'') (hin : closesInside quote cs = false)
    (h : EndsWord rest) :
    wordsFrom .start (quote :: (cs ++ quote :: rest)) =
      ⟨String.ofList cs, true⟩ :: wordsAfter rest := by
  have hblank : Text.isBlank quote = false := by
    rcases hquote with rfl | rfl
    · decide
    · decide
  have opens : wordsFrom .start (quote :: (cs ++ quote :: rest)) =
      wordsFrom ⟨[], true, true, some quote, 0⟩ (cs ++ quote :: rest) := by
    rw [wordsFrom]
    exact if_pos ⟨hquote, rfl, closesLater_append quote cs h⟩
  rw [opens, wordsFrom_section rfl rfl hblank hin h, wordsFrom_end rfl rfl h]
  simp [Reading.word]

/-- A shown word at the start of a text is the first word of the text. -/
theorem wordsFrom_showWord (hw : isBare w = true ∨ isQuotable w = true) (h : EndsWord rest) :
    wordsFrom .start ((showWord w).toList ++ rest) = ⟨w, needsQuotes w⟩ :: wordsAfter rest := by
  rcases hw with hw | hw
  · simp only [isBare, Bool.and_eq_true, Bool.not_eq_true', beq_iff_eq] at hw
    obtain ⟨⟨hneeds, hdepth⟩, hquotes⟩ := hw
    have hshow : showWord w = w := if_neg (by rw [← needsQuotes, hneeds]; exact Bool.false_ne_true)
    have hparts := hneeds
    rw [needsQuotes, Bool.or_eq_false_iff, Text.hasBlank, List.any_eq_false] at hparts
    have hne : w.toList.isEmpty = false := by simpa using hparts.1
    rw [hshow, wordsFrom_bare rfl (fun c hc => by simpa using hparts.2 c hc) hquotes h]
    simp only [Reading.start, hdepth, hne]
    rw [wordsFrom_end rfl rfl h, hneeds]
    simp [Reading.word]
  · simp only [isQuotable, Bool.and_eq_true, Bool.not_eq_true'] at hw
    obtain ⟨hneeds, hin⟩ := hw
    rw [hneeds]
    have hshow : showWord w = if w.toList.contains '"' then "'" ++ w ++ "'" else "\"" ++ w ++ "\"" :=
      if_pos hneeds
    rw [hshow]
    split
    · rename_i hdouble
      have hin' : closesInside '\'' w.toList = false := by rwa [hdouble, Bool.true_and] at hin
      simpa using wordsFrom_quoted (.inr rfl) hin' h
    · rename_i hdouble
      have hin' : closesInside '"' w.toList = false :=
        closesInside_of_not_mem (by simpa using hdouble)
      simpa using wordsFrom_quoted (.inl rfl) hin' h

/-- Splitting a line of shown words gives back the words, the ones in quotes marked as quoted. -/
theorem splitWords_showWords {ws : List String}
    (h : ∀ w ∈ ws, isBare w = true ∨ isQuotable w = true) :
    splitWords (showWords (ws.map showWord)) = ws.map fun w => ⟨w, needsQuotes w⟩ := by
  unfold splitWords showWords
  rw [String.toList_intercalate]
  induction ws with
  | nil => simp [wordsFrom, Reading.start, Reading.word]
  | cons w ws ih =>
    have hw := h w List.mem_cons_self
    have ih := ih fun v hv => h v (List.mem_cons_of_mem _ hv)
    cases ws with
    | nil => simpa [wordsAfter] using wordsFrom_showWord hw endsWord_nil
    | cons v vs =>
      rw [List.map_cons, List.map_cons, List.map_cons, List.map_cons, List.intercalate_cons_cons,
        List.append_assoc]
      refine (wordsFrom_showWord hw (endsWord_space _)).trans ?_
      rw [List.map_cons]
      exact congrArg (_ :: ·) ih

end QueueScript
