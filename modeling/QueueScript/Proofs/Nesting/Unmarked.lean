import QueueScript.Proofs.Spawning
import QueueScript.Proofs.Structured.Apart

/-!
# Sources without marks

A loop knows the end of its rounds by a word that only the engine writes.  The loop command reads that
word from its arguments, case aside, so a written line that has it would be taken for a mark.  Here is
what it means that a source has no such line, and that then no command of it is ever taken for a mark.
-/

namespace QueueScript

/-! ## Kinds of commands -/

/-- Whether a command runs its block a number of times. -/
def Behaviour.isLoop : Behaviour → Bool
  | .loop => true
  | _ => false

/-- Whether a command is one of the host. -/
def Behaviour.isHost : Behaviour → Bool
  | .host _ => true
  | _ => false

/-- Whether a command marks the end of a round. -/
def Compiled.isMark (c : Compiled) : Bool :=
  c.keyword == "repeat" && c.words == [Builtin.loopMark]

/-- Whether a word of a command is taken for the mark. -/
def Compiled.readsMark (c : Compiled) : Bool :=
  (c.positions.get? Builtin.loopMark).isSome || c.literals.contains Builtin.loopMark

/-- All commands are built-in ones, and the keys of loops are letters, digits, underscores and
points. -/
structure Catalogue.Native (c : Catalogue) : Prop extends c.Sound where
  host : ∀ p ∈ c, p.2.behaviour.isHost = false
  keys : ∀ p ∈ c, p.2.behaviour.isLoop = true → p.2.anyKeySymbol = false ∧ p.2.keyAliases = []

/-! ## Lines -/

/-- Whether a command word asks for a loop. -/
def Catalogue.asksLoop (c : Catalogue) (command : String) : Bool :=
  (c.find? (Keyword.ofCommand command).word).any (·.behaviour.isLoop)

namespace Line

mutual

/-- Whether no loop among a line and the lines in its blocks has the mark as a word. -/
def isUnmarked (c : Catalogue) : Line → Bool
  | ⟨command, args, blocks, _⟩ =>
    (!c.asksLoop command || args.all (Text.lower · != Builtin.loopMark)) && areUnmarked c blocks

/-- Whether no line in the blocks is marked. -/
def areUnmarked (c : Catalogue) : List (Block Line) → Bool
  | [] => true
  | ⟨_, lines⟩ :: rest => allUnmarked c lines && areUnmarked c rest

/-- Whether none of the lines is marked. -/
def allUnmarked (c : Catalogue) : List Line → Bool
  | [] => true
  | line :: rest => line.isUnmarked c && allUnmarked c rest

end

end Line

/-- No written line is taken for a mark. -/
def Source.Unmarked (c : Catalogue) (source : String) : Prop :=
  Line.allUnmarked c (Source.parse source).lines = true

/-! ## Compiled commands -/

/-- Neither a command nor a command in its blocks is taken for a mark, or is one of the host. -/
inductive Compiled.Unmarked : Compiled → Prop where
  | mk {c : Compiled} : c.handler.behaviour.isHost = false → c.isMark = false →
      (c.handler.behaviour.isLoop = true → c.readsMark = false) →
      (∀ bs, c.branches = some bs → ∀ b ∈ bs, ∀ c' ∈ b.body, Compiled.Unmarked c') →
      Compiled.Unmarked c

namespace Compiled.Unmarked

variable {c : Compiled} (h : c.Unmarked)

include h

/-- A line without marks has no command of the host. -/
theorem isHost : c.handler.behaviour.isHost = false := by
  cases h
  assumption

/-- A line without marks is no mark. -/
theorem isMark : c.isMark = false := by
  cases h
  assumption

/-- A loop without marks reads no mark. -/
theorem readsMark (hl : c.handler.behaviour.isLoop = true) : c.readsMark = false := by
  cases h with
  | mk _ _ reads _ => exact reads hl

/-- The lines in the blocks of a line without marks have none. -/
theorem enclosed {c' : Compiled} (hc : c.Encloses c') : c'.Unmarked := by
  obtain ⟨bs, hbs, b, hb, hc⟩ := hc
  cases h with
  | mk _ _ _ branches => exact branches bs hbs b hb c' hc

end Compiled.Unmarked

/-! ## Keys -/

/-- The characters of keys are between a full stop and `z`. -/
theorem keyChar_range {c : Char} (h : isKeyChar c = true) : 46 ≤ c.toNat ∧ c.toNat ≤ 122 := by
  have between {a b : Char} (ha : a.val ≤ c.val) (hb : c.val ≤ b.val) (hlow : 46 ≤ a.toNat)
      (hhigh : b.toNat ≤ 122) : 46 ≤ c.toNat ∧ c.toNat ≤ 122 :=
    ⟨Nat.le_trans hlow (UInt32.le_iff_toNat_le.1 ha), Nat.le_trans (UInt32.le_iff_toNat_le.1 hb) hhigh⟩
  delta isKeyChar Char.isAlphanum Char.isAlpha Char.isUpper Char.isLower Char.isDigit at h
  simp only [Bool.or_eq_true, Bool.and_eq_true, decide_eq_true_eq, beq_iff_eq] at h
  rcases h with (((⟨h, h'⟩ | ⟨h, h'⟩) | ⟨h, h'⟩) | rfl) | rfl
  · exact between (a := 'A') (b := 'Z') h h' (by decide) (by decide)
  · exact between (a := 'a') (b := 'z') h h' (by decide) (by decide)
  · exact between (a := '0') (b := '9') h h' (by decide) (by decide)
  · decide
  · decide

/-- The characters of keys have a lower case that is one character. -/
theorem keyChar_lower {c : Char} (h : isKeyChar c = true) :
    Text.lowerChar c = [c.toLower] ∧ c.toLower ≠ '\x00' := by
  have range := keyChar_range h
  refine ⟨if_pos (by omega), ?_⟩
  have all : ∀ n ≤ 122, 46 ≤ n → (Char.ofNat n).toLower ≠ '\x00' := by decide
  have hc := all c.toNat range.2 range.1
  rwa [Char.ofNat_toNat] at hc

/-- A key is never the mark: it starts with a letter, a digit, an underscore or a point. -/
theorem lower_key_ne {key : String} (hne : key.toList ≠ []) (hk : key.toList.all isKeyChar = true) :
    Text.lower key ≠ Builtin.loopMark := by
  intro h
  have chars := congrArg String.toList h
  unfold Text.lower at chars
  rw [String.toList_ofList] at chars
  cases hcs : key.toList with
  | nil => exact hne hcs
  | cons c rest =>
    rw [hcs] at hk chars
    have hc : isKeyChar c = true := (Bool.and_eq_true_iff.1 hk).1
    have range := keyChar_range hc
    obtain ⟨hlower, hzero⟩ := keyChar_lower hc
    unfold Text.lowerAfter at chars
    rw [if_neg (by omega), hlower] at chars
    exact hzero (List.cons.inj chars).1

/-- The key of a word is not empty and made of such characters. -/
theorem literalKey?_ofWord {w key : String} (h : (CompiledArgument.ofWord false w).literalKey? = some key) :
    key.toList ≠ [] ∧ key.toList.all isKeyChar = true := by
  unfold CompiledArgument.ofWord at h
  split at h
  · rename_i k v hsplit
    have source : (Template.parse k).source = k := String.ofList_toList
    have hkey : k = key := by
      obtain ⟨t, ht, hl⟩ := Option.bind_eq_some_iff.1 h
      cases ht
      unfold Template.literal? at hl
      split at hl
      · cases hl
      · exact source.symm.trans (Option.some.inj hl)
    unfold splitKey? at hsplit
    dsimp only at hsplit
    split at hsplit
    · split at hsplit
      · rename_i hc
        have heq := (Prod.mk.inj (Option.some.inj hsplit)).1
        rw [← hkey, ← heq, String.toList_ofList]
        simpa using hc
      · cases hsplit
    · cases hsplit
  · cases h

/-- A key that no argument has stands in no position. -/
theorem get?_positionsFrom {h : Handler} {k : String} {args : List CompiledArgument}
    (ha : ∀ a ∈ args, ∀ key, a.literalKey? = some key → h.canonicalKey key ≠ k) (start : Nat)
    {known : Keyed Nat} (hk : known.get? k = none) :
    (positionsFrom h start known args).get? k = none := by
  induction args generalizing start known with
  | nil => exact hk
  | cons a rest ih =>
    have hrest := fun b hb => ha b (List.mem_cons_of_mem _ hb)
    unfold positionsFrom
    split
    · rename_i key hkey
      refine ih hrest _ ?_
      split
      · exact hk
      · rw [Keyed.get?_put_of_ne known start (Ne.symm (ha a List.mem_cons_self key hkey))]
        exact hk
    · exact ih hrest _ hk

/-! ## Compiling unmarked lines -/

/-- Blocks that are written out flat have braces around them. -/
theorem Line.flattenBlocks_ne (blocks : List (Block Line)) (w : String) :
    Line.flattenBlocks blocks ≠ [w] := by
  rcases blocks with _ | ⟨⟨header, lines⟩, rest⟩
  · simp [Line.flattenBlocks]
  · intro h
    have length := congrArg List.length h
    simp only [Line.flattenBlocks, List.length_append, List.length_cons, List.length_nil] at length
    omega

/-- A word is kept as it was written. -/
theorem CompiledArgument.raw_ofWord (anySymbol : Bool) (w : String) :
    (CompiledArgument.ofWord anySymbol w).raw = w := by
  unfold ofWord
  split
  · rfl
  · rfl

/-- The words of a loop that has no mark among them are not read as one. -/
theorem Handler.readsMark_ofWords {asked : Handler} {args : List String} (hany : asked.anyKeySymbol = false)
    (halias : asked.keyAliases = []) (hargs : ∀ w ∈ args, Text.lower w ≠ Builtin.loopMark) :
    ((positionsFrom asked 0 [] (args.map (.ofWord asked.anyKeySymbol))).get? Builtin.loopMark).isSome
        = false ∧
      (((args.map (CompiledArgument.ofWord asked.anyKeySymbol)).filter (!·.isDynamic)).map
        (Text.lower ·.raw)).contains Builtin.loopMark = false := by
  constructor
  · rw [get?_positionsFrom _ 0 rfl]
    · rfl
    · intro a ha key hkey
      obtain ⟨w, -, rfl⟩ := List.mem_map.1 ha
      rw [hany] at hkey
      obtain ⟨hne, hall⟩ := literalKey?_ofWord hkey
      unfold Handler.canonicalKey
      rw [halias]
      exact lower_key_ne hne hall
  · rw [← Bool.not_eq_true, List.contains_iff_mem]
    intro hmem
    obtain ⟨a, ha, hlower⟩ := List.mem_map.1 hmem
    obtain ⟨w, hw, rfl⟩ := List.mem_map.1 (List.mem_filter.1 ha).1
    rw [CompiledArgument.raw_ofWord] at hlower
    exact hargs w hw hlower

namespace Catalogue.Native

variable {catalogue : Catalogue} (h : catalogue.Native)

include h

/-- What a catalogue without commands of the host finds is none. -/
theorem find? {word : String} {found : Handler} (hf : catalogue.find? word = some found) :
    found.behaviour.isHost = false ∧
      (found.behaviour.isLoop = true → found.anyKeySymbol = false ∧ found.keyAliases = []) := by
  obtain ⟨p, hp, rfl⟩ := Option.map_eq_some_iff.1 hf
  have mem := List.mem_of_find?_eq_some hp
  exact ⟨h.host p mem, h.keys p mem⟩

/-- What is known of the command of an unmarked line before its blocks are compiled. -/
theorem assemble (script : Option ScriptRef) {command : String} {args : List String}
    (hm : (!catalogue.asksLoop command || args.all (Text.lower · != Builtin.loopMark)) = true)
    (blocks : List (Block Line)) (number : Int) {c : Compiled}
    (hc : c = (assemble catalogue script command (args ++ Line.flattenBlocks blocks) args blocks
      number).command) :
    c.handler.behaviour.isHost = false ∧ c.isMark = false ∧
      (c.handler.behaviour.isLoop = true → c.readsMark = false) := by
  let found := catalogue.find? (Keyword.ofCommand command).word
  have words (ha : found.any (·.behaviour.isLoop) = true) :
      ∀ w ∈ args, Text.lower w ≠ Builtin.loopMark := by
    have asks : catalogue.asksLoop command = true := ha
    rw [asks, Bool.not_true, Bool.false_or, List.all_eq_true] at hm
    exact fun w hw => bne_iff_ne.1 (hm w hw)
  have host : (found.getD Handler.stub).behaviour.isHost = false := by
    cases hf : found with
    | none => rfl
    | some x => exact (h.find? hf).1
  refine ⟨?_, ?_, ?_⟩
  · rw [hc]
    unfold QueueScript.assemble
    dsimp only
    split
    · rfl
    · exact host
  · refine Bool.eq_false_iff.2 fun hmark => ?_
    obtain ⟨hkey, hwords⟩ := Bool.and_eq_true_iff.1 hmark
    rw [hc] at hkey hwords
    have asked : found = some Builtin.loop.handler := by
      show catalogue.find? (Keyword.ofCommand command).word = _
      rw [eq_of_beq (show ((Keyword.ofCommand command).word == "repeat") = true from hkey)]
      exact h.loops
    have hargs := words (by rw [asked]; rfl)
    have flat : args ++ Line.flattenBlocks blocks = [Builtin.loopMark] := eq_of_beq hwords
    rcases List.append_eq_singleton_iff.1 flat with ⟨-, hb⟩ | ⟨ha, -⟩
    · exact Line.flattenBlocks_ne blocks _ hb
    · exact hargs Builtin.loopMark (by rw [ha]; exact List.mem_singleton_self _) (by decide +kernel)
  · intro hloop
    have plain : (found.getD Handler.stub).behaviour.isLoop = true := by
      rw [hc] at hloop
      unfold QueueScript.assemble at hloop
      dsimp only at hloop
      split at hloop
      · cases hloop
      · exact hloop
    obtain ⟨x, hx⟩ : ∃ x, found = some x := by
      cases hf : found with
      | none =>
        rw [hf] at plain
        cases plain
      | some x => exact ⟨x, rfl⟩
    rw [hx, Option.getD_some] at plain
    obtain ⟨hany, halias⟩ := (h.find? hx).2 plain
    have hargs := words (by rw [hx]; exact plain)
    have unmeta : ∀ w ∈ args.filter (!x.isMeta ·), Text.lower w ≠ Builtin.loopMark :=
      fun w hw => hargs w (List.mem_filter.1 hw).1
    obtain ⟨hpos, hlit⟩ := Handler.readsMark_ofWords hany halias unmeta
    have hfound : catalogue.find? (Keyword.ofCommand command).word = some x := hx
    have positions : c.positions =
        positionsFrom x 0 [] ((args.filter (!x.isMeta ·)).map (.ofWord x.anyKeySymbol)) := by
      rw [hc]
      simp only [QueueScript.assemble, hfound, Option.getD_some]
    have literals : c.literals =
        (((args.filter (!x.isMeta ·)).map (CompiledArgument.ofWord x.anyKeySymbol)).filter
          (!·.isDynamic)).map (Text.lower ·.raw) := by
      rw [hc]
      simp only [QueueScript.assemble, hfound, Option.getD_some]
    unfold Compiled.readsMark
    rw [positions, literals, hpos, hlit]
    rfl

omit h

mutual

/-- A line without marks is compiled to one without marks. -/
theorem buildLine (h : catalogue.Native) (script : Option ScriptRef) {line : Line}
    (hm : line.isUnmarked catalogue = true) : (buildLine catalogue script line).1.Unmarked := by
  match line with
  | ⟨command, args, blocks, number⟩ =>
    unfold Line.isUnmarked at hm
    obtain ⟨words, inner⟩ := Bool.and_eq_true_iff.1 hm
    obtain ⟨host, mark, reads⟩ := h.assemble script words blocks number rfl
    unfold QueueScript.buildLine
    dsimp only
    split
    · refine .mk host mark reads fun bs hbs => ?_
      cases hbs
      exact buildBlocks h script _ inner
    · refine .mk host mark reads fun bs hbs => ?_
      cases hbs

/-- Blocks without marks are compiled to such. -/
theorem buildBlocks (h : catalogue.Native) (script : Option ScriptRef)
    (first : Option (String × List String)) {blocks : List (Block Line)}
    (hm : Line.areUnmarked catalogue blocks = true) :
    ∀ b ∈ (buildBlocks catalogue script first blocks).1, ∀ c ∈ b.body, c.Unmarked := by
  match blocks with
  | [] =>
    unfold QueueScript.buildBlocks
    exact fun b hb => absurd hb List.not_mem_nil
  | ⟨header, lines⟩ :: rest =>
    unfold Line.areUnmarked at hm
    obtain ⟨hlines, hrest⟩ := Bool.and_eq_true_iff.1 hm
    unfold QueueScript.buildBlocks
    intro b hb
    rcases List.mem_cons.1 hb with rfl | hb
    · exact buildLines h script hlines
    · exact buildBlocks h script none hrest b hb

/-- Lines without marks are compiled to such. -/
theorem buildLines (h : catalogue.Native) (script : Option ScriptRef) {lines : List Line}
    (hm : Line.allUnmarked catalogue lines = true) :
    ∀ c ∈ (buildLines catalogue script lines).1, c.Unmarked := by
  match lines with
  | [] =>
    unfold QueueScript.buildLines
    exact fun c hc => absurd hc List.not_mem_nil
  | line :: rest =>
    unfold Line.allUnmarked at hm
    obtain ⟨hline, hrest⟩ := Bool.and_eq_true_iff.1 hm
    unfold QueueScript.buildLines
    intro c hc
    rcases List.mem_cons.1 hc with rfl | hc
    · exact buildLine h script hline
    · exact buildLines h script hrest c hc

end

end Catalogue.Native

/-- The built-in commands are native. -/
theorem Host.create_catalogue_native (config : Config) :
    (Host.create config []).catalogue.Native where
  toSound := Host.create_catalogue_sound config
  host := Host.mem_create_catalogue (P := fun h => h.behaviour.isHost = false) (by decide) config
  keys := Host.mem_create_catalogue (P := fun h => h.behaviour.isLoop = true →
    h.anyKeySymbol = false ∧ h.keyAliases = []) (by decide) config

end QueueScript
