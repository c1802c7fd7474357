import QueueScript.Proofs.FreshIds
import QueueScript.Proofs.Nesting.Unmarked
import Mathlib.Data.List.Forall2

/-!
# What is known of a compiled command

A command is compiled in several passes over its words: those that are resolved first are set apart, the
others get positions by key and are sorted out by what the handler reads itself, and if there are too few or
too many of them, the handler is replaced.  Here the tables that come out of these passes are shown to agree
with each other and with the line that was compiled (`Compiled.Regular`), for every catalogue and every line,
and for the lines in its blocks as well (`Compiled.WellFormed`).
-/

namespace QueueScript

/-! ## Lists that are mixed -/

/-- The third list has the elements of the first two, each in order. -/
inductive Interleaves {α : Type} : List α → List α → List α → Prop
  | nil : Interleaves [] [] []
  | left (x : α) {xs ys zs : List α} : Interleaves xs ys zs → Interleaves (x :: xs) ys (x :: zs)
  | right (y : α) {xs ys zs : List α} : Interleaves xs ys zs → Interleaves xs (y :: ys) (y :: zs)

theorem interleaves_filter {α : Type} (p : α → Bool) (l : List α) :
    Interleaves (l.filter p) (l.filter (!p ·)) l := by
  induction l with
  | nil => exact .nil
  | cons x l ih =>
    by_cases hx : p x = true
    · simpa [hx] using ih.left x
    · simpa [hx] using ih.right x

/-! ## What a handler reads itself -/

namespace Handler

/-- The key of an argument as the handler reads it, if it has one without a tag. -/
def keyOf (h : Handler) (a : CompiledArgument) : Option String :=
  a.literalKey?.map h.canonicalKey

/-- Whether arguments with a key are resolved before the others. -/
def ResolvesFirst (h : Handler) (key : String) : Prop :=
  Text.lower key ∈ ["if", "save"] ∨ Text.lower key ∈ h.reservedKeys

/-- Whether the handler reads an argument by its key, or as a bare word. -/
def handles (h : Handler) (a : CompiledArgument) : Bool :=
  match h.keyOf a with
  | some key => h.handledKeys.contains key
  | none => a.key.isNone && a.value.literal?.any fun word => h.handledWords.contains (Text.lower word)

/-- Whether a number of arguments is below the least or above the greatest one.  With blocks there is no
greatest one. -/
def Refuses (h : Handler) (count : Nat) (blocks : List (Block Line)) : Prop :=
  count < h.least ∨ blocks = [] ∧ ∃ most, h.most = some most ∧ most < count

variable (h : Handler)

theorem refusesCount_iff (count : Nat) (blocks : List (Block Line)) :
    h.refusesCount count (!blocks.isEmpty) = true ↔ h.Refuses count blocks := by
  unfold refusesCount Refuses
  cases h.most <;> cases blocks <;> simp

theorem parsesArgument_eq (a : CompiledArgument) : h.parsesArgument a = !h.handles a := by
  unfold parsesArgument handles keyOf
  cases hkey : a.literalKey? with
  | some key => rfl
  | none =>
    cases a.key with
    | none => cases a.value.literal? <;> rfl
    | some t => rfl

theorem isMeta_iff (w : String) :
    h.isMeta w = true ↔ ∃ t, (CompiledArgument.ofWord h.anyKeySymbol w).key = some t ∧
      h.ResolvesFirst t.source := by
  unfold isMeta CompiledArgument.ofWord ResolvesFirst
  cases splitKey? h.anyKeySymbol w with
  | none => simp
  | some p =>
    have source : (Template.parse p.1).source = p.1 := String.ofList_toList
    simp [metaKeys, source]

/-- The position that a key has is the one it had before, or that of the first argument with the key. -/
theorem get?_positionsFrom_eq (key : String) (args : List CompiledArgument) (start : Nat)
    (known : Keyed Nat) :
    (positionsFrom h start known args).get? key =
      (known.get? key).or ((args.findIdx? (h.keyOf · == some key)).map (start + ·)) := by
  induction args generalizing start known with
  | nil => simp [positionsFrom]
  | cons a rest ih =>
    have shift : ((rest.findIdx? (h.keyOf · == some key)).map (· + 1)).map (start + ·) =
        (rest.findIdx? (h.keyOf · == some key)).map (start + 1 + ·) := by
      rw [Option.map_map]
      congr 1
      funext i
      simp only [Function.comp_apply]
      omega
    unfold positionsFrom
    rw [List.findIdx?_cons]
    cases hkey : a.literalKey? with
    | none =>
      have unkeyed : h.keyOf a = none := by simp [keyOf, hkey]
      rw [ih, ← shift]
      simp [unkeyed]
    | some spelling =>
      have canonical : h.keyOf a = some (h.canonicalKey spelling) := by simp [keyOf, hkey]
      simp only [ih, canonical]
      by_cases hsame : h.canonicalKey spelling = key
      · subst hsame
        cases hknown : known.get? (h.canonicalKey spelling) with
        | none => simp [Keyed.has_eq_isSome, hknown]
        | some i => simp [Keyed.has_eq_isSome, hknown]
      · have untouched : (if known.has (h.canonicalKey spelling) then known
            else known.put (h.canonicalKey spelling) start).get? key = known.get? key := by
          split
          · rfl
          · exact Keyed.get?_put_of_ne _ _ (Ne.symm hsame)
        rw [untouched, ← shift]
        simp [hsame]

theorem keys_positionsFrom (args : List CompiledArgument) (start : Nat) {known : Keyed Nat}
    (hknown : known.keys.Nodup) : (positionsFrom h start known args).keys.Nodup := by
  induction args generalizing start known with
  | nil => exact hknown
  | cons a rest ih =>
    unfold positionsFrom
    cases a.literalKey? with
    | none => exact ih _ hknown
    | some spelling =>
      refine ih _ ?_
      split
      · exact hknown
      · rename_i hnew
        have absent : h.canonicalKey spelling ∉ known.keys := fun hmem =>
          hnew ((Keyed.has_iff_mem_keys _ _).2 hmem)
        rw [Keyed.keys_put, if_neg hnew]
        simpa using hknown.concat absent

theorem get?_positionsFrom_zero (key : String) (args : List CompiledArgument) :
    (positionsFrom h 0 [] args).get? key = args.findIdx? (h.keyOf · == some key) := by
  rw [get?_positionsFrom_eq]
  simp

/-- A key has the position of the first argument that has the key. -/
theorem get?_positionsFrom_iff (key : String) (args : List CompiledArgument) (i : Nat) :
    (positionsFrom h 0 [] args).get? key = some i ↔
      ∃ a, args[i]? = some a ∧ h.keyOf a = some key ∧
        ∀ j < i, ∀ b, args[j]? = some b → h.keyOf b ≠ some key := by
  rw [get?_positionsFrom_zero, List.findIdx?_eq_some_iff_getElem]
  constructor
  · rintro ⟨hi, hkey, hfirst⟩
    refine ⟨args[i], List.getElem?_eq_getElem hi, by simpa using hkey, ?_⟩
    intro j hj b hb
    obtain ⟨hlen, rfl⟩ := List.getElem?_eq_some_iff.1 hb
    simpa using hfirst j hj
  · rintro ⟨a, ha, hkey, hfirst⟩
    obtain ⟨hi, rfl⟩ := List.getElem?_eq_some_iff.1 ha
    refine ⟨hi, by simpa using hkey, ?_⟩
    intro j hj
    simpa using hfirst j hj _ (List.getElem?_eq_getElem (hj.trans hi))

theorem isSome_positionsFrom {key : String} {args : List CompiledArgument} {a : CompiledArgument}
    (ha : a ∈ args) (hkey : h.keyOf a = some key) :
    ((positionsFrom h 0 [] args).get? key).isSome = true := by
  rw [get?_positionsFrom_zero, List.findIdx?_isSome]
  exact List.any_eq_true.2 ⟨a, ha, by simp [hkey]⟩

end Handler

/-! ## Records of commands -/

/-- The handler that was asked for: the one that runs, unless it was replaced. -/
def Compiled.asked (c : Compiled) : Handler :=
  c.intended.getD c.handler

/-- The tables of a compiled command, as they are computed from the words before its first block and from its
blocks for the handler that is asked for. -/
structure Compiled.Computed (h : Handler) (words : List String) (blocks : List (Block Line))
    (c : Compiled) : Prop where
  metaArgs : c.metaArgs = (words.filter h.isMeta).map (.ofWord h.anyKeySymbol)
  args : c.args = (words.filter (!h.isMeta ·)).map (.ofWord h.anyKeySymbol)
  counted : c.counted = words.filter (!h.isMeta ·) ++ Line.flattenBlocks blocks
  parsed : c.parsed = c.args.filter h.parsesArgument
  literals : c.literals = (c.args.filter (!·.isDynamic)).map (Text.lower ·.raw)
  positions : c.positions = positionsFrom h 0 [] c.args
  wrongCount : c.wrongCount = (!h.isStub && h.refusesCount c.counted.length (!blocks.isEmpty))
  handler : c.handler = if c.wrongCount then Handler.stub else h
  intended : c.intended = if c.wrongCount then some h else none
  hasBlocks : c.hasBlocks = !blocks.isEmpty

/-- The tables of a compiled command agree with each other and with its line. -/
structure Compiled.Regular (catalogue : Catalogue) (line : Line) (c : Compiled) : Prop where
  /-- The keyword is the command word without its mark. -/
  keyword : c.keyword = (Keyword.ofCommand line.command).word
  /-- The keyword tells which handler is asked for. -/
  asked : c.asked = (catalogue.find? c.keyword).getD Handler.stub
  /-- Every argument is compiled from its text. -/
  arguments : ∀ a ∈ c.metaArgs ++ c.args, a = .ofWord c.asked.anyKeySymbol a.raw
  /-- The words before the first block are the texts of the arguments that are resolved first and of the
  others, both in order. -/
  interleaved : Interleaves (c.metaArgs.map (·.raw)) (c.args.map (·.raw)) line.args
  /-- The arguments that are resolved first have a key that says so. -/
  metaKeys : ∀ a ∈ c.metaArgs, ∃ t, a.key = some t ∧ c.asked.ResolvesFirst t.source
  /-- The other arguments have no such key. -/
  otherKeys : ∀ a ∈ c.args, ∀ t, a.key = some t → ¬ c.asked.ResolvesFirst t.source
  /-- The words that are counted are those of the other arguments and of the blocks. -/
  counted : c.counted = c.args.map (·.raw) ++ Line.flattenBlocks line.blocks
  /-- The arguments that are parsed are those that the handler does not read itself. -/
  parsed : c.parsed = c.args.filter (!c.asked.handles ·)
  /-- A key has the position of the first argument that has the key. -/
  positions : ∀ key i, c.positions.get? key = some i ↔
    ∃ a, c.args[i]? = some a ∧ c.asked.keyOf a = some key ∧
      ∀ j < i, ∀ b, c.args[j]? = some b → c.asked.keyOf b ≠ some key
  /-- Every key of an argument has a position. -/
  positioned : ∀ a ∈ c.args, ∀ key, c.asked.keyOf a = some key → (c.positions.get? key).isSome = true
  /-- No key has two positions. -/
  keysApart : c.positions.keys.Nodup
  /-- The number of arguments is wrong exactly if the handler was replaced. -/
  wrongCount : c.wrongCount = c.intended.isSome
  /-- A handler is replaced exactly if it was found and refuses the number of arguments. -/
  replaced : ∀ h, c.intended = some h ↔
    catalogue.find? c.keyword = some h ∧ h.isStub = false ∧ h.Refuses c.counted.length line.blocks
  /-- A handler is replaced by the one that reports it. -/
  replacement : c.intended.isSome = true → c.handler = Handler.stub
  /-- Whether there are blocks is known. -/
  hasBlocks : c.hasBlocks = true ↔ line.blocks ≠ []

/-- The tables of a compiled command and of all commands in its blocks agree with each other and with their
lines.  A command has its blocks exactly if its handler owns blocks. -/
inductive Compiled.WellFormed (catalogue : Catalogue) : Line → Compiled → Prop
  | mk {line : Line} {c : Compiled} : c.Regular catalogue line → c.branches.isSome = c.handler.isBraced →
      (∀ branches, c.branches = some branches →
        List.Forall₂ (fun (block : Block Line) (branch : Branch Compiled) =>
          List.Forall₂ (WellFormed catalogue) block.lines branch.body) line.blocks branches) →
      WellFormed catalogue line c

section Compiling

variable {anySymbol : Bool} {ws : List String} {a : CompiledArgument}

theorem raws_ofWord (anySymbol : Bool) (ws : List String) :
    (ws.map (CompiledArgument.ofWord anySymbol)).map (·.raw) = ws := by
  rw [List.map_map]
  exact (List.map_congr_left fun w _ => CompiledArgument.raw_ofWord anySymbol w).trans (List.map_id ws)

theorem ofWord_of_mem (ha : a ∈ ws.map (CompiledArgument.ofWord anySymbol)) :
    a.raw ∈ ws ∧ a = .ofWord anySymbol a.raw := by
  obtain ⟨w, hw, rfl⟩ := List.mem_map.1 ha
  rw [CompiledArgument.raw_ofWord]
  exact ⟨hw, rfl⟩

variable {h : Handler} {blocks : List (Block Line)} {c : Compiled}

/-- A handler that is asked for, and is not the one that reports unknown commands, was found. -/
theorem getD_find?_iff {catalogue : Catalogue} {word : String} (hstub : h.isStub = false) :
    (catalogue.find? word).getD Handler.stub = h ↔ catalogue.find? word = some h := by
  cases catalogue.find? word with
  | none =>
    refine ⟨fun same => ?_, fun none => nomatch none⟩
    rw [← (same : Handler.stub = h)] at hstub
    exact absurd hstub (by decide)
  | some found => simp

namespace Compiled.Computed

theorem asked (hc : c.Computed h ws blocks) : c.asked = h := by
  rw [Compiled.asked, hc.intended, hc.handler]
  cases c.wrongCount <;> rfl

theorem wrongCount_iff (hc : c.Computed h ws blocks) :
    c.wrongCount = true ↔ h.isStub = false ∧ h.Refuses c.counted.length blocks := by
  rw [← Handler.refusesCount_iff, hc.wrongCount]
  simp

/-- A handler is replaced if it refuses the number of arguments. -/
theorem intended_iff (hc : c.Computed h ws blocks) (h' : Handler) :
    c.intended = some h' ↔ h = h' ∧ h'.isStub = false ∧ h'.Refuses c.counted.length blocks := by
  rw [hc.intended]
  by_cases hw : c.wrongCount = true
  · rw [if_pos hw, Option.some_inj]
    constructor
    · rintro rfl
      exact ⟨rfl, hc.wrongCount_iff.1 hw⟩
    · exact And.left
  · rw [if_neg hw]
    refine ⟨fun none => (nomatch none), ?_⟩
    rintro ⟨rfl, hrefused⟩
    exact absurd (hc.wrongCount_iff.2 hrefused) hw

/-- Tables that are computed agree with each other. -/
theorem regular {catalogue : Catalogue} {line : Line} (hc : c.Computed h line.args line.blocks)
    (hkeyword : c.keyword = (Keyword.ofCommand line.command).word)
    (hfind : (catalogue.find? c.keyword).getD Handler.stub = h) : c.Regular catalogue line := by
  have hasked := hc.asked
  constructor
  case keyword => exact hkeyword
  case asked => rw [hasked, hfind]
  case arguments =>
    intro a ha
    rw [hc.metaArgs, hc.args, ← List.map_append] at ha
    rw [hasked]
    exact (ofWord_of_mem ha).2
  case interleaved =>
    rw [hc.metaArgs, hc.args, raws_ofWord, raws_ofWord]
    exact interleaves_filter h.isMeta line.args
  case metaKeys =>
    intro a ha
    rw [hc.metaArgs] at ha
    obtain ⟨hraw, hword⟩ := ofWord_of_mem ha
    rw [hasked, hword]
    exact (h.isMeta_iff a.raw).1 (List.mem_filter.1 hraw).2
  case otherKeys =>
    intro a ha t ht hfirst
    rw [hc.args] at ha
    obtain ⟨hraw, hword⟩ := ofWord_of_mem ha
    rw [hword] at ht
    rw [hasked] at hfirst
    have other := (List.mem_filter.1 hraw).2
    rw [(h.isMeta_iff a.raw).2 ⟨t, ht, hfirst⟩] at other
    exact absurd other (by decide)
  case counted => rw [hc.counted, hc.args, raws_ofWord]
  case parsed =>
    have same : h.parsesArgument = fun a => !h.handles a := funext h.parsesArgument_eq
    rw [hc.parsed, hasked, same]
  case positions =>
    intro key i
    rw [hasked, hc.positions]
    exact h.get?_positionsFrom_iff key c.args i
  case positioned =>
    intro a ha key hkey
    rw [hasked] at hkey
    rw [hc.positions]
    exact h.isSome_positionsFrom ha hkey
  case keysApart =>
    rw [hc.positions]
    exact h.keys_positionsFrom c.args 0 List.nodup_nil
  case wrongCount =>
    rw [hc.intended]
    cases c.wrongCount <;> rfl
  case replaced =>
    intro h'
    rw [hc.intended_iff]
    constructor
    · rintro ⟨rfl, hstub, hrefuses⟩
      exact ⟨(getD_find?_iff hstub).1 hfind, hstub, hrefuses⟩
    · rintro ⟨hfound, hstub, hrefuses⟩
      exact ⟨hfind.symm.trans ((getD_find?_iff hstub).2 hfound), hstub, hrefuses⟩
  case replacement =>
    intro hsome
    rw [hc.intended] at hsome
    rw [hc.handler]
    cases hw : c.wrongCount with
    | true => rfl
    | false =>
      rw [hw] at hsome
      cases hsome
  case hasBlocks =>
    rw [hc.hasBlocks]
    simp

end Compiled.Computed

variable (catalogue : Catalogue) (script : Option ScriptRef)

/-- The tables are computed before the blocks are compiled, and stay as they are. -/
theorem computed_assemble (command : String) (words before : List String) (blocks : List (Block Line))
    (number : Int) (branches : Option (List (Branch Compiled))) :
    ({ (assemble catalogue script command words before blocks number).command with branches } :
      Compiled).Computed ((catalogue.find? (Keyword.ofCommand command).word).getD Handler.stub)
        before blocks :=
  ⟨rfl, rfl, rfl, rfl, rfl, rfl, rfl, rfl, rfl, rfl⟩

theorem regular_assemble (command : String) (words before : List String) (blocks : List (Block Line))
    (number : Int) (branches : Option (List (Branch Compiled))) :
    ({ (assemble catalogue script command words before blocks number).command with branches } :
      Compiled).Regular catalogue ⟨command, before, blocks, number⟩ :=
  Compiled.Computed.regular (computed_assemble catalogue script command words before blocks number branches) rfl rfl

mutual

/-- What is compiled from a line agrees with the line. -/
theorem wellFormed_buildLine (line : Line) :
    (buildLine catalogue script line).1.WellFormed catalogue line := by
  match line with
  | ⟨command, args, blocks, number⟩ =>
    have regular := regular_assemble catalogue script command (args ++ Line.flattenBlocks blocks) args blocks number
    unfold buildLine
    dsimp only
    split
    · rename_i hbraced
      refine .mk (regular _) hbraced.symm ?_
      rintro branches hbranches
      obtain rfl := Option.some.inj hbranches
      exact wellFormed_buildBlocks _ blocks
    · rename_i hbraced
      refine .mk (regular none) (Bool.eq_false_iff.2 hbraced).symm ?_
      rintro branches hbranches
      cases hbranches

/-- Every block is compiled, and every line in it. -/
theorem wellFormed_buildBlocks (first : Option (String × List String)) (blocks : List (Block Line)) :
    List.Forall₂ (fun (block : Block Line) (branch : Branch Compiled) =>
      List.Forall₂ (Compiled.WellFormed catalogue) block.lines branch.body)
      blocks (buildBlocks catalogue script first blocks).1 := by
  match blocks with
  | [] =>
    unfold buildBlocks
    exact .nil
  | ⟨header, lines⟩ :: rest =>
    unfold buildBlocks
    exact .cons (wellFormed_buildLines lines) (wellFormed_buildBlocks none rest)

/-- Every line is compiled. -/
theorem wellFormed_buildLines (lines : List Line) :
    List.Forall₂ (Compiled.WellFormed catalogue) lines (buildLines catalogue script lines).1 := by
  match lines with
  | [] =>
    unfold buildLines
    exact .nil
  | line :: rest =>
    unfold buildLines
    exact .cons (wellFormed_buildLine line) (wellFormed_buildLines rest)

end

/-- What is compiled from flat words agrees with the words and blocks that they fold into. -/
theorem wellFormed_buildFlat (command : String) (given : List String) (number : Int) :
    let folded := Source.fold (given.flatMap Source.ungluedWord) number
    (buildFlat catalogue script command given number).1.WellFormed catalogue
      ⟨command, folded.args, folded.blocks, number⟩ := by
  intro folded
  have regular := regular_assemble catalogue script command given folded.args folded.blocks number
  unfold buildFlat
  dsimp only
  split
  · rename_i hbraced
    refine .mk (regular _) hbraced.symm ?_
    rintro branches hbranches
    obtain rfl := Option.some.inj hbranches
    exact wellFormed_buildBlocks catalogue script _ folded.blocks
  · rename_i hbraced
    refine .mk (regular none) (Bool.eq_false_iff.2 hbraced).symm ?_
    rintro branches hbranches
    cases hbranches

end Compiling

/-- The line that a command is given as: its blocks may be apart, or be among its words. -/
def givenLine (command : String) (given : List String) (number : Int) : Option (List (Block Line)) → Line
  | some blocks => ⟨command, given, blocks, number⟩
  | none =>
    let folded := Source.fold (given.flatMap Source.ungluedWord) number
    ⟨command, folded.args, folded.blocks, number⟩

/-- Compiling a command never fails, whatever its words and blocks are and whatever commands there are, and
its record and those of all commands in its blocks agree with their lines. -/
theorem compiled_well_formed (command : String) (given : List String) (script : Option ScriptRef)
    (number : Int) (blocks : Option (List (Block Line))) (e : Engine) :
    ∃ c e', Host.compileCommand command given script number blocks e = (.ok c, e') ∧
      c.WellFormed e.catalogue (givenLine command given number blocks) := by
  cases blocks with
  | some blocks =>
    exact ⟨_, _, rfl, wellFormed_buildLine e.catalogue script ⟨command, given, blocks, number⟩⟩
  | none => exact ⟨_, _, rfl, wellFormed_buildFlat e.catalogue script command given number⟩

end QueueScript
