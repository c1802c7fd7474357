import QueueScript.Proofs.Nesting.Unmarked
import QueueScript.Proofs.Source.FlatWords
import Mathlib.Data.List.Basic

/-!
# Which flat words are kept

Flat words fold into the words of a command and its blocks.  Written flat again, what comes out is part of
what went in, in the same order (dashes aside, of which the reader needs fewer than it is given).  It is all
of it unless the words put something where no command has a place for it: words after the last block of a
command, or a block of a command inside a block that has no word of its own.  Both are passed over without a
fault.

Whether words do so is told by `keepsWords`, a scan that remembers of every command being read only whether
it has words, blocks, and words after its last block.  The statement about the reader is by induction on the
words that are left: what has been kept so far is the draft and the open blocks written flat.
-/

namespace QueueScript

namespace Source

open Line (flattenBlocks flattenLines)

/-- The words that are no dashes. -/
def withoutDashes (ws : List String) : List String :=
  ws.filter (· != "-")

@[simp] theorem withoutDashes_nil : withoutDashes [] = [] := rfl

/-- Dashes are left out on both sides. -/
@[simp] theorem withoutDashes_append (xs ys : List String) :
    withoutDashes (xs ++ ys) = withoutDashes xs ++ withoutDashes ys := by
  simp [withoutDashes]

/-- A dash is left out. -/
@[simp] theorem withoutDashes_dash (ws : List String) : withoutDashes ("-" :: ws) = withoutDashes ws := by
  simp [withoutDashes]

/-- Any other word is kept. -/
theorem withoutDashes_cons {w : String} (h : w ≠ "-") (ws : List String) :
    withoutDashes (w :: ws) = w :: withoutDashes ws := by
  simp [withoutDashes, h]

/-! ## Where words have no place -/

/-- How far a command has come that is being read. -/
structure Stage where
  /-- It has a word before its first block. -/
  worded : Bool
  /-- It has a block. -/
  blocked : Bool
  /-- Words follow its last block. -/
  trailing : Bool
  deriving DecidableEq, Repr

/-- Nothing of the command has been read. -/
def Stage.start : Stage := ⟨false, false, false⟩

/-- The stage after one more word. -/
def Stage.push (s : Stage) (w : String) : Stage :=
  if s.blocked then { s with trailing := s.trailing || w != "-" } else { s with worded := true }

/-- The stage after one more block. -/
def Stage.close (s : Stage) : Stage :=
  { s with blocked := true, trailing := false }

/-- Whether all of a command inside a block is kept when it ends at this stage. -/
def Stage.keeps (s : Stage) : Bool :=
  !s.trailing && (s.worded || !s.blocked)

/-- Whether nothing is passed over from a stage on, when the commands of the open blocks are at the stages
of the stack.  A command outside all blocks needs no word of its own. -/
def keepsFrom : List Stage → Stage → List String → Bool
  | stack, s, [] => !stack.isEmpty || !s.trailing
  | stack, s, w :: ws =>
    if w = "\x7b" then keepsFrom (s :: stack) .start ws
    else
      match stack with
      | [] => keepsFrom [] (s.push w) ws
      | o :: rest =>
        if w = "\x7d" then s.keeps && keepsFrom rest o.close ws
        else if w = "-" then s.keeps && keepsFrom (o :: rest) .start ws
        else keepsFrom (o :: rest) (s.push w) ws

section Steps

variable (stack : List Stage) (o s : Stage) (ws : List String) {w : String}

/-- An opening brace begins the first command of a block. -/
theorem keepsFrom_open : keepsFrom stack s ("\x7b" :: ws) = keepsFrom (s :: stack) .start ws := by
  rw [keepsFrom.eq_def]
  exact if_pos rfl

/-- A word outside of all blocks belongs to the command there. -/
theorem keepsFrom_outside (h : w ≠ "\x7b") : keepsFrom [] s (w :: ws) = keepsFrom [] (s.push w) ws := by
  rw [keepsFrom.eq_def]
  exact if_neg h

/-- A closing brace ends a command and its block. -/
theorem keepsFrom_close :
    keepsFrom (o :: stack) s ("\x7d" :: ws) = (s.keeps && keepsFrom stack o.close ws) := by
  rw [keepsFrom.eq_def]
  simp

/-- A dash ends a command and begins another one. -/
theorem keepsFrom_dash :
    keepsFrom (o :: stack) s ("-" :: ws) = (s.keeps && keepsFrom (o :: stack) .start ws) := by
  rw [keepsFrom.eq_def]
  simp

/-- Any other word in a block belongs to the command that is read. -/
theorem keepsFrom_inside (ho : w ≠ "\x7b") (hc : w ≠ "\x7d") (hd : w ≠ "-") :
    keepsFrom (o :: stack) s (w :: ws) = keepsFrom (o :: stack) (s.push w) ws := by
  rw [keepsFrom.eq_def]
  simp [ho, hc, hd]

end Steps

/-- Whether flat words have a place for every word: none follows the last block of a command, and every
command with a block that stands in a block itself begins with a word. -/
def keepsWords (words : List String) : Bool :=
  keepsFrom [] .start words

/-! ## What has been kept so far -/

/-- Blocks are flattened one after another. -/
theorem flattenBlocks_append (xs ys : List (Block Line)) :
    flattenBlocks (xs ++ ys) = flattenBlocks xs ++ flattenBlocks ys := by
  induction xs with
  | nil => simp [flattenBlocks]
  | cons block xs ih =>
    cases block
    simp [flattenBlocks, ih]

/-- Lines are flattened one after another. -/
theorem flattenLines_append (xs ys : List Line) :
    flattenLines (xs ++ ys) = flattenLines xs ++ flattenLines ys := by
  induction xs with
  | nil => simp [flattenLines]
  | cons line xs ih =>
    cases line
    simp [flattenLines, ih]

/-- A draft written flat. -/
def Draft.flat (d : Draft) : List String :=
  d.words.reverse ++ flattenBlocks d.blocks.reverse ++ d.header.reverse

/-- Open blocks written flat, with the commands that they belong to. -/
def openFlat : List Open → List String
  | [] => []
  | o :: rest => openFlat rest ++ o.owner.flat ++ "\x7b" :: flattenLines o.lines.reverse

/-- The stage of a draft. -/
def Draft.stage (d : Draft) : Stage :=
  ⟨!d.words.isEmpty, !d.blocks.isEmpty, !(withoutDashes d.header).isEmpty⟩

/-- Words wait to introduce a block only after another one. -/
def Draft.Fair (d : Draft) : Prop :=
  d.blocks = [] → d.header = []

/-- An empty draft is fair. -/
theorem Draft.fair_empty : Draft.empty.Fair := by
  intro _
  rfl

/-- A draft stays fair when a block is closed. -/
theorem Draft.fair_close (d : Draft) (lines : List Line) : (d.close lines).Fair := by
  intro h
  rfl

/-- A draft stays fair when a word is put into it. -/
theorem Draft.fair_push {d : Draft} (h : d.Fair) (w : String) : (d.push w).Fair := by
  unfold Draft.push Draft.Fair
  split
  · exact h
  · rename_i hb
    intro h'
    exact absurd (List.isEmpty_iff.2 h') hb

/-- A word that is put into a draft stands behind its others. -/
theorem Draft.flat_push {d : Draft} (h : d.Fair) (w : String) : (d.push w).flat = d.flat ++ [w] := by
  unfold Draft.push Draft.flat
  split
  · rename_i hb
    have blocks : d.blocks = [] := List.isEmpty_iff.1 hb
    simp [blocks, h blocks, flattenBlocks]
  · simp

/-- A closed block stands behind the words of a draft, in braces. -/
theorem Draft.flat_close (d : Draft) (lines : List Line) :
    (d.close lines).flat = d.flat ++ "\x7b" :: flattenLines lines ++ ["\x7d"] := by
  simp [Draft.close, Draft.flat, flattenBlocks_append, flattenBlocks]

/-- The stage of a draft after one word more. -/
theorem Draft.stage_push (d : Draft) (w : String) : (d.push w).stage = d.stage.push w := by
  unfold Draft.push Draft.stage Stage.push
  by_cases hb : d.blocks.isEmpty
  · simp [hb]
  · by_cases hw : w = "-"
    · simp [hb, hw]
    · simp [hb, hw, withoutDashes_cons hw]

/-- The stage of a draft after one block more. -/
theorem Draft.stage_close (d : Draft) (lines : List Line) : (d.close lines).stage = d.stage.close := by
  simp [Draft.stage, Draft.close, Stage.close]

/-- The part of a command inside a block that is put into the block when the command ends. -/
def Draft.kept (d : Draft) : List String :=
  if d.words = [] then [] else d.words.reverse ++ flattenBlocks d.blocks.reverse

/-- The lines of an open block end with the words of its draft that are kept. -/
theorem flattenLines_linesWith (o : Open) (d : Draft) (number : Int) :
    withoutDashes (flattenLines (o.linesWith d number).reverse) =
      withoutDashes (flattenLines o.lines.reverse) ++ withoutDashes d.kept := by
  unfold Open.linesWith Draft.line? Draft.kept
  cases hw : d.words.reverse with
  | nil => simp [List.reverse_eq_nil_iff.1 hw]
  | cons command args =>
    have hne : d.words ≠ [] := by
      intro h
      simp [h] at hw
    simp only [List.reverse_cons, flattenLines_append, flattenLines, withoutDashes_append, hne, if_false]
    simp

/-- What is kept of a draft is part of it. -/
theorem Draft.kept_sublist (d : Draft) : d.kept.Sublist d.flat := by
  unfold Draft.kept Draft.flat
  split
  · exact List.nil_sublist _
  · exact List.sublist_append_left _ _

/-- Blocks leave words behind, namely their braces. -/
theorem flattenBlocks_ne_nil {blocks : List (Block Line)} (h : blocks ≠ []) :
    withoutDashes (flattenBlocks blocks) ≠ [] := by
  cases blocks with
  | nil => exact absurd rfl h
  | cons block rest =>
    cases block
    simp [flattenBlocks, withoutDashes]

/-- The stage of a command tells whether all of it is put into its block. -/
theorem Draft.kept_eq_iff {d : Draft} (h : d.Fair) :
    withoutDashes d.kept = withoutDashes d.flat ↔ d.stage.keeps = true := by
  by_cases hw : d.words = []
  · by_cases hb : d.blocks = []
    · simp [Draft.kept, Draft.flat, Draft.stage, Stage.keeps, hw, hb, h hb, flattenBlocks]
    · have lost : withoutDashes (flattenBlocks d.blocks.reverse) ≠ [] :=
        flattenBlocks_ne_nil (by simpa using hb)
      simp [Draft.kept, Draft.flat, Draft.stage, Stage.keeps, hw, hb, lost, Ne.symm]
  · simp [Draft.kept, Draft.flat, Draft.stage, Stage.keeps, hw, withoutDashes]

/-! ## What is kept in the end -/

/-- What was read is part of what was given, in order, and `all` says whether it is all of it. -/
structure Keeps (read given : List String) (all : Bool) : Prop where
  part : read.Sublist given
  whole : read = given ↔ all = true

namespace Keeps

variable {read middle given : List String} {all now : Bool}

/-- The same words around both. -/
theorem frame (h : Keeps read given all) (before after : List String) :
    Keeps (before ++ read ++ after) (before ++ given ++ after) all := by
  constructor
  · exact ((List.Sublist.refl before).append h.part).append (List.Sublist.refl after)
  · rw [List.append_cancel_right_eq, List.append_cancel_left_eq]
    exact h.whole

/-- All is kept when all is kept by either of two steps. -/
theorem trans (h : Keeps middle given now) (h' : Keeps read middle all) :
    Keeps read given (now && all) := by
  constructor
  · exact h'.part.trans h.part
  · rw [Bool.and_eq_true, ← h.whole, ← h'.whole]
    constructor
    · intro heq
      -- The middle lies between two lists that are equal.
      have same : middle = given := h.part.eq_of_length_le (heq ▸ h'.part.length_le)
      exact ⟨same, heq.trans same.symm⟩
    · rintro ⟨rfl, rfl⟩
      rfl

/-- What was given may be written in another way. -/
theorem of_eq {given' : List String} (h : Keeps read given all) (hg : given = given') :
    Keeps read given' all :=
  hg ▸ h

end Keeps

/-- What is kept of a draft, and whether that is all, is said by its stage. -/
theorem Draft.keeps_kept {d : Draft} (h : d.Fair) :
    Keeps (withoutDashes d.kept) (withoutDashes d.flat) d.stage.keeps :=
  ⟨d.kept_sublist.filter _, Draft.kept_eq_iff h⟩

/-- Folded words written flat again. -/
def Folded.flat (f : Folded) : List String :=
  f.args ++ flattenBlocks f.blocks

variable {number : Int}

/-- A word outside of all blocks goes into the draft. -/
theorem foldFrom_outside (d : Draft) {w : String} (h : w ≠ "\x7b") (ws : List String) :
    foldFrom number [] d (w :: ws) = foldFrom number [] (d.push w) ws := by
  rw [foldFrom.eq_def]
  exact if_neg h

/-- A plain word inside a block goes into the draft of its line. -/
theorem foldFrom_inside (o : Open) (stack : List Open) (d : Draft) {w : String} (ho : w ≠ "\x7b")
    (hc : w ≠ "\x7d") (hd : w ≠ "-") (ws : List String) :
    foldFrom number (o :: stack) d (w :: ws) = foldFrom number (o :: stack) (d.push w) ws := by
  rw [foldFrom.eq_def]
  exact (if_neg ho).trans ((if_neg hc).trans (if_neg hd))

/-- The command being read ends: it is put into its block, and what has no place there is dropped. -/
theorem keeps_endLine (number : Int) (o : Open) {d : Draft} (hd : d.Fair) (before after : List String) :
    Keeps (withoutDashes (before ++ flattenLines (o.linesWith d number).reverse ++ after))
      (withoutDashes (before ++ (flattenLines o.lines.reverse ++ d.flat) ++ after)) d.stage.keeps := by
  have line := (Draft.keeps_kept hd).frame
    (withoutDashes before ++ withoutDashes (flattenLines o.lines.reverse)) (withoutDashes after)
  simpa [flattenLines_linesWith] using line

/-- The reader keeps a part of what it is given, and the scan tells whether it is all of it. -/
theorem keeps_foldFrom (stack : List Open) (d : Draft) (ws : List String)
    (hs : ∀ o ∈ stack, o.owner.Fair) (hd : d.Fair)
    (closed : (foldFrom number stack d ws).unclosed = false) :
    Keeps (withoutDashes (foldFrom number stack d ws).flat)
      (withoutDashes (openFlat stack ++ d.flat ++ ws))
      (keepsFrom (stack.map (·.owner.stage)) d.stage ws) := by
  induction ws generalizing stack d with
  | nil =>
    cases stack with
    | cons o rest => simp [foldFrom] at closed
    | nil =>
      constructor
      · simp [foldFrom, finishFold, Folded.flat, openFlat, Draft.flat]
      · simp [foldFrom, finishFold, Folded.flat, openFlat, Draft.flat, keepsFrom, Draft.stage,
          withoutDashes]
  | cons w ws ih =>
    by_cases ho : w = "\x7b"
    · subst ho
      rw [foldFrom_open] at closed ⊢
      have opened := ih (⟨d, []⟩ :: stack) .empty
        (by simpa using ⟨hd, hs⟩) Draft.fair_empty closed
      rw [keepsFrom_open]
      refine opened.of_eq ?_
      simp [openFlat, Draft.flat, Draft.empty, flattenLines, flattenBlocks]
    · cases stack with
      | nil =>
        rw [foldFrom_outside d ho] at closed ⊢
        have pushed := ih [] (d.push w) hs (Draft.fair_push hd w) closed
        rw [List.map_nil, keepsFrom_outside _ _ ho, ← Draft.stage_push]
        refine pushed.of_eq ?_
        rw [Draft.flat_push hd]
        simp
      | cons o rest =>
        have howner : o.owner.Fair := hs o (by simp)
        have hrest : ∀ p ∈ rest, p.owner.Fair := fun p hp => hs p (by simp [hp])
        by_cases hc : w = "\x7d"
        · subst hc
          rw [foldFrom_close] at closed ⊢
          have left := ih rest _ hrest (Draft.fair_close o.owner _) closed
          rw [List.map_cons, keepsFrom_close, ← Draft.stage_close]
          have ended := keeps_endLine number o hd (openFlat rest ++ o.owner.flat ++ ["\x7b"])
            ("\x7d" :: ws)
          refine (ended.trans (left.of_eq ?_)).of_eq ?_
          · rw [Draft.flat_close]
            simp
          · simp [openFlat]
        · by_cases hdash : w = "-"
          · subst hdash
            rw [foldFrom_dash] at closed ⊢
            have left := ih (⟨o.owner, o.linesWith d number⟩ :: rest) .empty
              (by simpa using ⟨howner, hrest⟩) Draft.fair_empty closed
            rw [List.map_cons, keepsFrom_dash]
            have ended := keeps_endLine number o hd (openFlat rest ++ o.owner.flat ++ ["\x7b"])
              ("-" :: ws)
            refine (ended.trans (left.of_eq ?_)).of_eq ?_
            · have brace := withoutDashes_cons (show "\x7b" ≠ "-" by decide)
              simp [openFlat, Draft.flat, Draft.empty, flattenBlocks, brace]
            · simp [openFlat]
          · rw [foldFrom_inside o rest d ho hc hdash] at closed ⊢
            have pushed := ih (o :: rest) (d.push w) hs (Draft.fair_push hd w) closed
            rw [List.map_cons, keepsFrom_inside _ _ _ _ ho hc hdash, ← Draft.stage_push]
            refine pushed.of_eq ?_
            rw [Draft.flat_push hd]
            simp

/-- What words fold into, written flat again, is a part of the words, and `keepsWords` tells whether it is
all of them. -/
theorem keeps_fold {words : List String} (closed : (fold words number).unclosed = false) :
    Keeps (withoutDashes (fold words number).flat) (withoutDashes words) (keepsWords words) := by
  have kept := keeps_foldFrom [] .empty words (by simp) Draft.fair_empty closed
  have nothing : openFlat [] ++ Draft.empty.flat ++ words = words := by
    simp [openFlat, Draft.flat, Draft.empty, flattenBlocks]
  rw [nothing] at kept
  exact kept

end Source

/-! ## Compiling -/

open Source

/-- The words of a compiled command: those resolved first, and the others with its blocks written flat. -/
def Compiled.given (c : Compiled) : List String :=
  c.metaArgs.map (·.raw) ++ c.counted

variable {number : Int} {words : List String}

/-- A command is assembled from all words before its blocks and all its blocks. -/
theorem given_assemble (catalogue : Catalogue) (script : Option ScriptRef) (command : String)
    (words before : List String) (blocks : List (Block Line)) (number : Int) :
    (assemble catalogue script command words before blocks number).command.given.Perm
      (before ++ Line.flattenBlocks blocks) := by
  have raws (anySymbol : Bool) (ws : List String) :
      (ws.map (CompiledArgument.ofWord anySymbol)).map (·.raw) = ws := by
    rw [List.map_map]
    exact List.map_id'' (CompiledArgument.raw_ofWord anySymbol) ws
  unfold assemble Compiled.given
  dsimp only
  rw [raws, ← List.append_assoc]
  exact (List.filter_append_perm _ before).append_right _

/-- Compiling keeps all that flat words fold into. -/
theorem buildFlat_given (catalogue : Catalogue) (script : Option ScriptRef) (command : String)
    (words : List String) (number : Int) :
    (buildFlat catalogue script command words number).1.given.Perm
      (fold (words.flatMap ungluedWord) number).flat := by
  unfold buildFlat
  dsimp only
  split
  · exact given_assemble catalogue script command words _ _ number
  · exact given_assemble catalogue script command words _ _ number

/-- Words that compile without a fault have no glued brace and no open block. -/
theorem closed_of_buildFlat {catalogue : Catalogue} {script : Option ScriptRef} {command : String}
    (h : (buildFlat catalogue script command words number).2 = []) :
    words.flatMap ungluedWord = words ∧ (fold words number).unclosed = false := by
  have faultless : words.filter hasGluedBrace = [] ∧
      (fold (words.flatMap ungluedWord) number).unclosed = false := by
    unfold buildFlat at h
    dsimp only at h
    split at h <;> simp_all [gluedFaults]
  have unglued : words.flatMap ungluedWord = words := by
    have single : ∀ w ∈ words, ungluedWord w = [w] := by
      intro w hw
      have := List.filter_eq_nil_iff.1 faultless.1 w hw
      simp [ungluedWord, this]
    rw [List.flatMap_congr single, List.flatMap_singleton']
  exact ⟨unglued, unglued ▸ faultless.2⟩

/-- Folding flat words whose blocks are all closed keeps a part of them, in order and dashes aside, and it
keeps all of them exactly when every word has a place.  So a command of flat words that compiles without a
fault has every one of its words, if they all have a place, and only then. -/
theorem flat_words_kept (words : List String) (number : Int) :
    ((fold words number).unclosed = false →
      (withoutDashes (fold words number).flat).Sublist (withoutDashes words) ∧
      (withoutDashes (fold words number).flat = withoutDashes words ↔ keepsWords words = true)) ∧
    ∀ (catalogue : Catalogue) (script : Option ScriptRef) (command : String),
      (buildFlat catalogue script command words number).2 = [] →
      ((withoutDashes (buildFlat catalogue script command words number).1.given).Perm
        (withoutDashes words) ↔ keepsWords words = true) := by
  constructor
  · intro closed
    exact ⟨(keeps_fold closed).part, (keeps_fold closed).whole⟩
  · intro catalogue script command faultless
    obtain ⟨unglued, closed⟩ := closed_of_buildFlat faultless
    have given := (buildFlat_given catalogue script command words number).filter (· != "-")
    rw [unglued] at given
    have kept := keeps_fold closed
    constructor
    · intro all
      exact kept.whole.1 (kept.part.eq_of_length (given.symm.trans all).length_eq)
    · intro all
      exact kept.whole.2 all ▸ given

/-- A loop in the block of a condition that has a second block. -/
theorem flat_words_kept_nested :
    let words := ["<[x]>", "save:c", "\x7b", "-", "-", "repeat", "2", "\x7b", "debug", "a b", "\x7d", "\x7d",
      "else", "\x7b", "\x7d"]
    let catalogue := (Host.create {} []).catalogue
    (fold words 4).unclosed = false ∧ (buildFlat catalogue none "if" words 4).2 = [] ∧
    withoutDashes (fold words 4).flat = withoutDashes words ∧
    (withoutDashes (buildFlat catalogue none "if" words 4).1.given).Perm (withoutDashes words) := by
  intro words catalogue
  have closed : (fold words 4).unclosed = false := by decide +kernel
  have faultless : (buildFlat catalogue none "if" words 4).2 = [] :=
    List.isEmpty_iff.1 (by decide +kernel)
  have places : keepsWords words = true := by decide +kernel
  have kept := flat_words_kept words 4
  exact ⟨closed, faultless, (kept.1 closed).2.2 places,
    (kept.2 catalogue none "if" faultless).2 places⟩

/-- Words after the last block of a condition are dropped, and no fault is noted. -/
theorem flat_words_dropped :
    let words := ["true", "\x7b", "-", "debug", "log", "one", "\x7d", "debug", "log", "two"]
    let catalogue := (Host.create {} []).catalogue
    (∀ w ∈ words, hasGluedBrace w = false) ∧ (fold words 1).unclosed = false ∧
    (fold words 1).flat = ["true", "\x7b", "-", "debug", "log", "one", "\x7d"] ∧
    (buildFlat catalogue none "if" words 1).2 = [] ∧
    (buildFlat catalogue none "if" words 1).1.given =
      ["true", "\x7b", "-", "debug", "log", "one", "\x7d"] := by
  exact ⟨by decide +kernel, by decide +kernel, by decide +kernel, List.isEmpty_iff.1 (by decide +kernel),
    by decide +kernel⟩

end QueueScript
