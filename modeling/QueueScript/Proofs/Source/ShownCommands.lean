import QueueScript.Engine.Host
import QueueScript.Proofs.Source.ShownWords

/-!
# Shown commands are split again

A command is shown as it was given: its mark, its word in lower case, and its arguments, blocks written
flat, each in quotes if it needs them.  Splitting what is shown gives the marked word and the arguments
back (`shown_command_resplits`).

The arguments are a matter of `splitWords_showWords`.  The word of the command is not put in quotes, so it
has to stand for itself after its letters were changed to lower case.  That no letter becomes white space,
a quote or a `<` is read off the table of case mappings.
-/

namespace QueueScript

namespace Text

/-! ## Characters of command words -/

/-- The code points of white space, of the two quotes and of `<`. -/
def separatingRanges : List (Nat × Nat) :=
  (0x22, 0x22) :: (0x27, 0x27) :: (0x3C, 0x3C) :: blankRanges

/-- Whether a character may stand in a command word that is to be read back: it is neither white space nor
a quote, and opens no tag. -/
def isCommandChar (c : Char) : Bool :=
  !inRanges separatingRanges c.toNat

theorem isCommandChar_iff {c : Char} :
    isCommandChar c = true ↔ isBlank c = false ∧ c ≠ '"' ∧ c ≠ '\'' ∧ c ≠ '<' := by
  have code {d : Char} {n : Nat} (hd : d.toNat = n) :
      (decide (n ≤ c.toNat) && decide (c.toNat ≤ n)) = decide (c = d) := by
    rw [Bool.eq_iff_iff, Bool.and_eq_true, decide_eq_true_iff, decide_eq_true_iff, decide_eq_true_iff,
      ← Char.toNat_inj, hd]
    omega
  have ranges : inRanges separatingRanges c.toNat =
      (decide (c = '"') || (decide (c = '\'') || (decide (c = '<') || isBlank c))) := by
    rw [← code (d := '"') rfl, ← code (d := '\'') rfl, ← code (d := '<') rfl]
    rfl
  rw [isCommandChar, ranges]
  simp only [Bool.not_or, Bool.and_eq_true, Bool.not_eq_true', decide_eq_false_iff_not]
  constructor
  · rintro ⟨h₁, h₂, h₃, h₄⟩
    exact ⟨h₄, h₁, h₂, h₃⟩
  · rintro ⟨h₄, h₁, h₂, h₃⟩
    exact ⟨h₁, h₂, h₃, h₄⟩

/-- No run of the table of lower case leads to a separating character. -/
theorem lowerRuns_apart : (lowerRuns.all fun r => separatingRanges.all fun s =>
    decide ((r.last + r.shift).toNat < s.1) || decide (s.2 < (r.first + r.shift).toNat)) = true := by
  decide +kernel

/-- A code point that separates nothing is not shifted to one that does. -/
theorem inRanges_shiftBy {n : Nat} (h : inRanges separatingRanges n = false) :
    inRanges separatingRanges (shiftBy lowerRuns n) = false := by
  unfold shiftBy
  split
  · rename_i r hr
    have hcontains := List.find?_some hr
    simp only [CaseRun.contains, Bool.and_eq_true, decide_eq_true_eq] at hcontains
    have apart := List.all_eq_true.1 (List.all_eq_true.1 lowerRuns_apart r (List.mem_of_find?_eq_some hr))
    refine List.any_eq_false.2 fun s hs => ?_
    have hs := apart s hs
    simp only [Bool.or_eq_true, decide_eq_true_eq] at hs
    simp only [Bool.and_eq_true, decide_eq_true_eq]
    omega
  · exact h

/-- The lower case of a character of a command word consists of such characters. -/
theorem isCommandChar_lowerChar {c d : Char} (hc : isCommandChar c = true) (hd : d ∈ lowerChar c) :
    isCommandChar d = true := by
  unfold lowerChar at hd
  split at hd
  · rename_i hascii
    rw [List.mem_singleton.1 hd]
    have letters : ∀ n < 128, isCommandChar (Char.ofNat n) = true →
        isCommandChar (Char.ofNat n).toLower = true := by decide +kernel
    have := letters c.toNat hascii
    rw [Char.ofNat_toNat] at this
    exact this hc
  · split at hd
    · have dotted : ∀ d ∈ ['i', Char.ofNat 0x307], isCommandChar d = true := List.all_eq_true.1 (by decide)
      exact dotted d hd
    · rw [List.mem_singleton.1 hd]
      have apart := inRanges_shiftBy (by simpa only [isCommandChar, Bool.not_eq_true'] using hc)
      unfold isCommandChar Char.ofNat
      by_cases hvalid : (shiftBy lowerRuns c.toNat).isValidChar
      · rw [dif_pos hvalid]
        exact congrArg Bool.not apart
      · rw [dif_neg hvalid]
        decide

theorem isCommandChar_lowerAfter {cs : List Char} (h : ∀ c ∈ cs, isCommandChar c = true)
    (before : List Char) : ∀ d ∈ lowerAfter before cs, isCommandChar d = true := by
  induction cs generalizing before with
  | nil => exact fun d hd => absurd hd List.not_mem_nil
  | cons c cs ih =>
    intro d hd
    rw [lowerAfter, List.mem_append] at hd
    rcases hd with hd | hd
    · split at hd
      · rw [List.mem_singleton.1 hd]
        rfl
      · exact isCommandChar_lowerChar (h c List.mem_cons_self) hd
    · exact ih (fun c hc => h c (List.mem_cons_of_mem _ hc)) _ d hd

/-- The lower case of a character is not nothing. -/
theorem lowerChar_ne_nil (c : Char) : lowerChar c ≠ [] := by
  unfold lowerChar
  split
  · exact List.cons_ne_nil _ _
  · split <;> exact List.cons_ne_nil _ _

theorem lower_ne_empty {s : String} (h : s ≠ "") : lower s ≠ "" := by
  intro hlower
  have chars : lowerAfter [] s.toList = [] := by
    rw [← String.toList_ofList (l := lowerAfter [] s.toList), ← lower, hlower, String.toList_empty]
  cases hs : s.toList with
  | nil => exact h (String.toList_eq_nil_iff.1 hs)
  | cons c cs =>
    rw [hs, lowerAfter, List.append_eq_nil_iff] at chars
    have hc := chars.1
    split at hc
    · cases hc
    · exact lowerChar_ne_nil c hc

end Text

open Text (isCommandChar)

/-! ## Words without separating characters -/

theorem tagDepth_of_command {cs : List Char} (h : ∀ c ∈ cs, isCommandChar c = true) :
    tagDepth 0 cs = 0 := by
  induction cs with
  | nil => rfl
  | cons c cs ih =>
    obtain ⟨-, -, -, hc⟩ := Text.isCommandChar_iff.1 (h c List.mem_cons_self)
    have opens : opensTag (c :: cs) = false := by
      cases cs with
      | nil => simp [opensTag]
      | cons d cs => simp [opensTag, hc]
    have depth : depthAfter 0 (c :: cs) = 0 := by
      simp [depthAfter, opens]
    rw [tagDepth, depth]
    exact ih fun c hc => h c (List.mem_cons_of_mem _ hc)

theorem quotesNowhere_of_command {cs : List Char} (h : ∀ c ∈ cs, isCommandChar c = true) (depth : Nat)
    (before : Option Char) : quotesNowhere depth before cs = true := by
  induction cs generalizing depth before with
  | nil => rfl
  | cons c cs ih =>
    obtain ⟨-, hdouble, hsingle, -⟩ := Text.isCommandChar_iff.1 (h c List.mem_cons_self)
    rw [quotesNowhere, ih (fun c hc => h c (List.mem_cons_of_mem _ hc))]
    simp [hdouble, hsingle]

/-- A word of such characters stands for itself. -/
theorem isBare_of_command {w : String} (hne : w ≠ "") (h : ∀ c ∈ w.toList, isCommandChar c = true) :
    isBare w = true := by
  have blank : Text.hasBlank w = false :=
    List.any_eq_false.2 fun c hc => by simp [(Text.isCommandChar_iff.1 (h c hc)).1]
  have empty : w.isEmpty = false := by simpa using hne
  rw [isBare, needsQuotes, blank, empty, tagDepth_of_command h, quotesNowhere_of_command h]
  rfl

/-- Of the words that are read back, those in quotes are the ones that may stand in them. -/
theorem needsQuotes_eq_isQuotable {w : String} (h : isBare w = true ∨ isQuotable w = true) :
    needsQuotes w = isQuotable w := by
  rcases h with bare | quotable
  · have unquoted : needsQuotes w = false := by
      simp only [isBare, Bool.and_eq_true, Bool.not_eq_true'] at bare
      exact bare.1.1
    rw [isQuotable, unquoted, Bool.false_and]
  · rw [quotable]
    exact (Bool.and_eq_true_iff.1 quotable).1

/-! ## Commands -/

/-- The mark that a command is shown with. -/
def Compiled.shownMark (c : Compiled) : String :=
  if c.instant then "^" else if c.waits && !c.handler.isAlwaysHeld then "~" else ""

namespace Compiled

variable {c : Compiled}

theorem render_eq (c : Compiled) : c.render = showWords ((c.shownMark ++ c.keyword) :: c.words.map showWord) :=
  rfl

theorem shownMark_mem (c : Compiled) : c.shownMark ∈ ["^", "~", ""] := by
  unfold shownMark
  split
  · decide
  · split <;> decide

theorem shownMark_caret (c : Compiled) : c.shownMark = "^" ↔ c.instant = true := by
  unfold shownMark
  split
  · simp_all
  · split <;> simp_all

/-- A shown command is split into its marked word and its words as given, those in quotes marked as
quoted. -/
theorem splitWords_render (hne : c.keyword ≠ "")
    (hword : ∀ d ∈ c.keyword.toList, isCommandChar d = true)
    (hargs : ∀ w ∈ c.words, isBare w = true ∨ isQuotable w = true) :
    splitWords c.render = ⟨c.shownMark ++ c.keyword, false⟩ :: c.words.map fun w => ⟨w, needsQuotes w⟩ := by
  have bare : isBare (c.shownMark ++ c.keyword) = true := by
    refine isBare_of_command (fun h => hne (String.append_eq_empty_iff.1 h).2) fun d hd => ?_
    rw [String.toList_append, List.mem_append] at hd
    rcases hd with hd | hd
    · have marks : ∀ m ∈ ["^", "~", ""], m.toList.all isCommandChar = true := by decide
      exact List.all_eq_true.1 (marks c.shownMark c.shownMark_mem) d hd
    · exact hword d hd
  have quotes : needsQuotes (c.shownMark ++ c.keyword) = false := by
    simp only [isBare, Bool.and_eq_true, Bool.not_eq_true'] at bare
    exact bare.1.1
  have shown : showWord (c.shownMark ++ c.keyword) = c.shownMark ++ c.keyword :=
    if_neg (by rw [← needsQuotes, quotes]; exact Bool.false_ne_true)
  have split := @splitWords_showWords ((c.shownMark ++ c.keyword) :: c.words) fun w hw =>
    (List.mem_cons.1 hw).elim (fun h => .inl (h ▸ bare)) (hargs w)
  rw [List.map_cons, List.map_cons, shown, quotes] at split
  rw [render_eq, split]

end Compiled

/-- The word of a command is the lower case of the command without its mark. -/
theorem Keyword.ofCommand_word {command : String} (hne : command ∉ ["", "^", "~"])
    (h : ∀ c ∈ command.toList, isCommandChar c = true) :
    (Keyword.ofCommand command).word ≠ "" ∧
      ∀ d ∈ (Keyword.ofCommand command).word.toList, isCommandChar d = true := by
  have lower {s : String} (hs : s ≠ "") (h : ∀ c ∈ s.toList, isCommandChar c = true) :
      Text.lower s ≠ "" ∧ ∀ d ∈ (Text.lower s).toList, isCommandChar d = true := by
    refine ⟨Text.lower_ne_empty hs, ?_⟩
    rw [Text.lower, String.toList_ofList]
    exact Text.isCommandChar_lowerAfter h []
  have marked {m : Char} {rest : List Char} (hm : m = '^' ∨ m = '~') (hc : command.toList = m :: rest) :
      Text.lower (String.ofList rest) ≠ "" ∧
        ∀ d ∈ (Text.lower (String.ofList rest)).toList, isCommandChar d = true := by
    refine lower (fun hrest => hne ?_) fun c hmem => h c ?_
    · have whole : command = String.singleton m := by
        rw [← String.ofList_toList (s := command), hc, ← String.toList_ofList (l := rest), hrest]
        rfl
      rw [whole]
      rcases hm with rfl | rfl <;> decide
    · rw [hc]
      rw [String.toList_ofList] at hmem
      exact List.mem_cons_of_mem _ hmem
  unfold Keyword.ofCommand
  split
  · exact marked (.inl rfl) ‹_›
  · exact marked (.inr rfl) ‹_›
  · exact lower (fun hs => hne (by simp [hs])) h

theorem Keyword.ofCommand_instant (command : String) :
    (Keyword.ofCommand command).instant = true ↔ command.toList.head? = some '^' := by
  unfold Keyword.ofCommand
  split
  · simp_all
  · simp_all
  · rename_i hcaret _
    refine ⟨fun h => absurd h Bool.false_ne_true, fun h => ?_⟩
    obtain ⟨rest, hrest⟩ := List.head?_eq_some_iff.1 h
    exact absurd hrest (hcaret rest)

/-! ## Compiling -/

/-- A command tells what it was compiled from: the command with its mark apart, and the words. -/
structure Compiled.Tells (c : Compiled) (command : String) (words : List String) : Prop where
  keyword : c.keyword = (Keyword.ofCommand command).word
  instant : c.instant = (Keyword.ofCommand command).instant
  words : c.words = words

section Compiling

variable (catalogue : Catalogue) (script : Option ScriptRef) (command : String) (given : List String)
  (number : Int)

theorem tells_buildLine (blocks : List (Block Line)) :
    (buildLine catalogue script ⟨command, given, blocks, number⟩).1.Tells command
      (given ++ Line.flattenBlocks blocks) := by
  rw [buildLine]
  split <;> exact ⟨rfl, rfl, rfl⟩

theorem tells_buildFlat : (buildFlat catalogue script command given number).1.Tells command given := by
  rw [buildFlat]
  split <;> exact ⟨rfl, rfl, rfl⟩

theorem Host.compileCommand_tells (blocks : Option (List (Block Line))) (e : Engine) :
    ∃ c e', compileCommand command given script number blocks e = (.ok c, e') ∧
      c.Tells command (given ++ Line.flattenBlocks (blocks.getD [])) := by
  cases blocks with
  | some blocks => exact ⟨_, _, rfl, tells_buildLine e.catalogue script command given number blocks⟩
  | none =>
    refine ⟨_, _, rfl, ?_⟩
    rw [Option.getD_none, Line.flattenBlocks, List.append_nil]
    exact tells_buildFlat e.catalogue script command given number

end Compiling

/-- A command that is made of words, or of words and blocks, is shown so that splitting it gives its
marked word and its arguments, blocks written flat, in order.  The word of the command has to be there and
must not have white space, quotes or a `<`.  Each argument stands for itself, or stands in quotes and is
told to have done so. -/
theorem shown_command_resplits {command : String} {given : List String}
    {blocks : Option (List (Block Line))} (hne : command ∉ ["", "^", "~"])
    (hword : ∀ c ∈ command.toList, Text.isBlank c = false ∧ c ≠ '"' ∧ c ≠ '\'' ∧ c ≠ '<')
    (hargs : ∀ w ∈ given ++ Line.flattenBlocks (blocks.getD []), isBare w = true ∨ isQuotable w = true)
    (script : Option ScriptRef) (number : Int) (e : Engine) :
    ∃ c e', Host.compileCommand command given script number blocks e = (.ok c, e') ∧
      c.shownMark ∈ ["^", "~", ""] ∧ (c.shownMark = "^" ↔ command.toList.head? = some '^') ∧
      c.keyword = (Keyword.ofCommand command).word ∧
      splitWords c.render = ⟨c.shownMark ++ c.keyword, false⟩ ::
        (given ++ Line.flattenBlocks (blocks.getD [])).map fun w => ⟨w, isQuotable w⟩ := by
  obtain ⟨c, e', compiled, tells⟩ := Host.compileCommand_tells script command given number blocks e
  obtain ⟨there, apart⟩ := Keyword.ofCommand_word hne fun c hc => Text.isCommandChar_iff.2 (hword c hc)
  rw [← tells.keyword] at there apart
  have split := c.splitWords_render there apart (tells.words.symm ▸ hargs)
  refine ⟨c, e', compiled, c.shownMark_mem, ?_, tells.keyword, ?_⟩
  · rw [← Keyword.ofCommand_instant, ← tells.instant, c.shownMark_caret]
  · rw [split, tells.words]
    exact congrArg _ (List.map_congr_left fun w hw => by rw [needsQuotes_eq_isQuotable (hargs w hw)])

/-- A loop that is waited for, with a condition of several words, a word whose colon is inside its tag, and
a block. -/
theorem shown_command_resplits_loop :
    let given := ["if:<[a b].is[<].than[3]>", "it is \"late\"", "", "def:<[x].map[a:b]>"]
    let blocks : List (Block Line) := [⟨[], [⟨"debug", ["log", "don't go"], [], 3⟩]⟩]
    ("~rePeat" ∉ ["", "^", "~"] ∧
      (∀ c ∈ "~rePeat".toList, Text.isBlank c = false ∧ c ≠ '"' ∧ c ≠ '\'' ∧ c ≠ '<') ∧
      ∀ w ∈ given ++ Line.flattenBlocks ((some blocks).getD []), isBare w = true ∨ isQuotable w = true) ∧
    ∃ c e', Host.compileCommand "~rePeat" given none 2 (some blocks) (Host.create {} []) = (.ok c, e') ∧
      c.shownMark ∈ ["^", "~", ""] ∧ (c.shownMark = "^" ↔ "~rePeat".toList.head? = some '^') ∧
      c.keyword = (Keyword.ofCommand "~rePeat").word ∧
      splitWords c.render = ⟨c.shownMark ++ c.keyword, false⟩ ::
        (given ++ Line.flattenBlocks ((some blocks).getD [])).map fun w => ⟨w, isQuotable w⟩ := by
  intro given blocks
  have hne : "~rePeat" ∉ ["", "^", "~"] := by decide
  have hword : ∀ c ∈ "~rePeat".toList, Text.isBlank c = false ∧ c ≠ '"' ∧ c ≠ '\'' ∧ c ≠ '<' :=
    fun c hc => Text.isCommandChar_iff.1 (List.all_eq_true.1 (by decide +kernel) c hc)
  have hargs : ∀ w ∈ given ++ Line.flattenBlocks ((some blocks).getD []),
      isBare w = true ∨ isQuotable w = true := by decide +kernel
  exact ⟨⟨hne, hword, hargs⟩, shown_command_resplits hne hword hargs none 2 (Host.create {} [])⟩

end QueueScript
