import QueueScript.Proofs.CompiledRecords
import QueueScript.Proofs.Equations
import QueueScript.Proofs.PlainWords
import Mathlib.Data.List.TakeWhile

/-!
# Words that are given as flags

A handler may read a bare word by itself, and a word counts as given when it stands alone or as a key with
the value `true`.  Both ways the handler sees the word (`Entries.flag`).  They differ in what else it sees: the
bare word is not among the arguments that the handler parses, while the key with its value is, unless the
handler declares the word as a key, too (`flag_forms`).
-/

namespace QueueScript

/-! ## Words of letters, digits and underscores -/

namespace Text

/-- A character that is its own lower case is in the lower case of a text, if it is in the text. -/
theorem mem_lower {c : Char} {w : String} (hc : lowerChar c = [c]) (hsigma : c.toNat ≠ 0x3A3)
    (h : c ∈ w.toList) : c ∈ (lower w).toList := by
  have go (before cs : List Char) (h : c ∈ cs) : c ∈ lowerAfter before cs := by
    induction cs generalizing before with
    | nil => exact absurd h List.not_mem_nil
    | cons d rest ih =>
      unfold lowerAfter
      rw [List.mem_append]
      rcases List.mem_cons.1 h with rfl | h
      · rw [if_neg fun h => hsigma h.1, hc]
        exact .inl List.mem_cons_self
      · exact .inr (ih _ h)
  rw [lower, String.toList_ofList]
  exact go [] w.toList h

end Text

/-- A word that can be the name of a flag: letters in lower case, digits and underscores. -/
structure FlagName (b : String) : Prop where
  /-- It is not empty. -/
  nonempty : b.toList ≠ []
  /-- It has only such characters. -/
  chars : ∀ c ∈ b.toList, Queues.isIdChar c = true

namespace FlagName

variable {b w : String} (hb : FlagName b)

include hb

theorem lower : Text.lower b = b := by
  unfold Text.lower
  rw [Queues.lowerAfter_of_isIdChar hb.chars, String.ofList_toList]

theorem not_mem {c : Char} (hc : Queues.isIdChar c = false) : c ∉ b.toList := by
  intro h
  rw [hb.chars c h] at hc
  exact absurd hc (by decide)

/-- A spelling of the name has no colon and no tag. -/
theorem not_mem_spelling (hw : Text.lower w = b) : ':' ∉ w.toList ∧ '<' ∉ w.toList := by
  have absent {c : Char} (hc : Queues.isIdChar c = false) (hlower : Text.lowerChar c = [c])
      (hsigma : c.toNat ≠ 0x3A3) : c ∉ w.toList := by
    intro h
    have hmem := Text.mem_lower hlower hsigma h
    rw [hw] at hmem
    exact hb.not_mem hc hmem
  exact ⟨absent (by decide) (by decide) (by decide), absent (by decide) (by decide) (by decide)⟩

/-- A spelling of the name is compiled into a bare word. -/
theorem ofWord_spelling (hw : Text.lower w = b) (anySymbol : Bool) :
    CompiledArgument.ofWord anySymbol w = ⟨w, none, .parse w, hasInnerColon w⟩ ∧
      (Template.parse w).literal? = some w := by
  obtain ⟨hcolon, htag⟩ := hb.not_mem_spelling hw
  have whole : splitKey? anySymbol w = none := by
    unfold splitKey?
    dsimp only
    have rest : w.toList.dropWhile (· != ':') = [] := by
      rw [List.dropWhile_eq_nil_iff]
      intro c hc
      have : c ≠ ':' := fun h => hcolon (h ▸ hc)
      simpa using this
    rw [rest]
  constructor
  · rw [CompiledArgument.ofWord, whole]
  · rw [Template.literal?, Template.hasTag_parse_of_not_mem htag, Template.source_parse]
    rfl

/-- The name with the value `true` is compiled into a key and a value. -/
theorem ofWord_true (anySymbol : Bool) :
    CompiledArgument.ofWord anySymbol (b ++ ":true") =
        ⟨b ++ ":true", some (.parse b), .parse "true", true⟩ ∧
      (Template.parse b).literal? = some b := by
  have isKey : ∀ c ∈ b.toList, (c != ':') = true := by
    intro c hc
    have : c ≠ ':' := fun h => hb.not_mem (by decide) (h ▸ hc)
    simpa using this
  have isKeyChars : b.toList.all isKeyChar = true := by
    rw [List.all_eq_true]
    intro c hc
    have range := (Queues.isIdChar_iff c).1 (hb.chars c hc)
    have all : ∀ n ≤ 122, Queues.isIdChar (Char.ofNat n) = true → isKeyChar (Char.ofNat n) = true := by
      decide +kernel
    have key := all c.toNat (by omega)
    rw [Char.ofNat_toNat] at key
    exact key (hb.chars c hc)
  have split : splitKey? anySymbol (b ++ ":true") = some (b, "true") := by
    unfold splitKey?
    have chars : (b ++ ":true").toList = b.toList ++ ':' :: "true".toList := by
      rw [String.toList_append]
      rfl
    dsimp only
    rw [chars, List.takeWhile_append_of_pos isKey, List.dropWhile_append_of_pos isKey]
    simp [isKeyChars, hb.nonempty]
  constructor
  · rw [CompiledArgument.ofWord, split]
  · rw [Template.literal?, Template.hasTag_parse_of_not_mem (hb.not_mem (by decide)), Template.source_parse]
    rfl

/-- A spelling of the name is not resolved before the others. -/
theorem isMeta_spelling (h : Handler) (hw : Text.lower w = b) : h.isMeta w = false := by
  rw [Bool.eq_false_iff]
  intro hfirst
  obtain ⟨t, ht, -⟩ := (h.isMeta_iff w).1 hfirst
  rw [(hb.ofWord_spelling hw _).1] at ht
  cases ht

/-- The name with the value `true` is resolved before the others only if the name is such a key. -/
theorem isMeta_true {h : Handler} (hmeta : ¬ h.ResolvesFirst b) : h.isMeta (b ++ ":true") = false := by
  rw [Bool.eq_false_iff]
  intro hfirst
  obtain ⟨t, ht, hresolves⟩ := (h.isMeta_iff _).1 hfirst
  rw [(hb.ofWord_true _).1] at ht
  obtain rfl := Option.some.inj ht
  rw [Template.source_parse] at hresolves
  exact hmeta hresolves

end FlagName

/-! ## The two forms of a flag -/

/-- The arguments that a handler parses of some words. -/
def Handler.parsedWords (h : Handler) (ws : List String) : List CompiledArgument :=
  ((ws.filter (!h.isMeta ·)).map (.ofWord h.anyKeySymbol)).filter h.parsesArgument

theorem Handler.keyOf_ne_of_mem {h : Handler} {b : String} {ws : List String} {a : CompiledArgument}
    (hkeys : ∀ v ∈ ws, h.keyOf (.ofWord h.anyKeySymbol v) ≠ some b)
    (ha : a ∈ (ws.filter (!h.isMeta ·)).map (.ofWord h.anyKeySymbol)) : h.keyOf a ≠ some b := by
  obtain ⟨v, hv, rfl⟩ := List.mem_map.1 ha
  exact hkeys v (List.mem_filter.1 hv).1

namespace Compiled.Computed

variable {h : Handler} {b w : String} {before after : List String} {blocks : List (Block Line)}
  {c : Compiled} (hb : FlagName b)

/-- The arguments of a command around a word that is not resolved before the others. -/
theorem args_around (hc : c.Computed h (before ++ w :: after) blocks) (hw : h.isMeta w = false) :
    c.args = (before.filter (!h.isMeta ·)).map (.ofWord h.anyKeySymbol) ++
      .ofWord h.anyKeySymbol w :: (after.filter (!h.isMeta ·)).map (.ofWord h.anyKeySymbol) := by
  rw [hc.args]
  simp [hw]

theorem parsed_around (hc : c.Computed h (before ++ w :: after) blocks) (hw : h.isMeta w = false) :
    c.parsed = h.parsedWords before ++
      (if h.parsesArgument (.ofWord h.anyKeySymbol w) then [.ofWord h.anyKeySymbol w] else []) ++
      h.parsedWords after := by
  rw [hc.parsed, hc.args_around hw, List.filter_append, List.filter_cons, Handler.parsedWords,
    Handler.parsedWords]
  split <;> simp

include hb

/-- The bare word is no argument that is parsed, and counts as given. -/
theorem bare (hc : c.Computed h (before ++ w :: after) blocks) (hw : Text.lower w = b)
    (hmem : b ∈ h.handledWords)
    (hkeys : ∀ v ∈ before ++ after, h.keyOf (.ofWord h.anyKeySymbol v) ≠ some b) :
    c.parsed = h.parsedWords before ++ h.parsedWords after ∧
      ∀ calls n y, (y.entry n).code = c → Entries.flag calls n b y = (.ok true, y) := by
  obtain ⟨word, literal⟩ := hb.ofWord_spelling hw h.anyKeySymbol
  have unkeyed : h.keyOf (.ofWord h.anyKeySymbol w) = none := by
    rw [word]
    rfl
  have plain := hb.isMeta_spelling h hw
  have handled : h.parsesArgument (.ofWord h.anyKeySymbol w) = false := by
    rw [h.parsesArgument_eq, Handler.handles, unkeyed, word]
    simp [literal, hw, hmem]
  constructor
  · rw [hc.parsed_around plain, handled]
    simp
  · rintro calls n y hcode
    have absent : c.argument? b = none := by
      rw [Compiled.argument?, hb.lower, hc.positions, h.get?_positionsFrom_zero]
      have none : c.args.findIdx? (h.keyOf · == some b) = none := by
        rw [List.findIdx?_eq_none_iff, hc.args_around plain]
        intro a ha
        rw [List.mem_append, List.mem_cons] at ha
        rw [beq_eq_false_iff_ne]
        rcases ha with ha | rfl | ha
        · exact Handler.keyOf_ne_of_mem (fun v hv => hkeys v (List.mem_append_left _ hv)) ha
        · exact fun some => nomatch unkeyed.symm.trans some
        · exact Handler.keyOf_ne_of_mem (fun v hv => hkeys v (List.mem_append_right _ hv)) ha
      rw [none]
      rfl
    have spelled : b ∈ c.literals := by
      have untagged := Template.hasTag_parse_of_not_mem (hb.not_mem_spelling hw).2
      rw [hc.literals, hc.args_around plain]
      refine List.mem_map.2 ⟨.ofWord h.anyKeySymbol w, List.mem_filter.2 ⟨by simp, ?_⟩, ?_⟩
      · rw [word]
        simp [CompiledArgument.isDynamic, untagged]
      · rw [word]
        exact hw
    rw [Entries.flag_of_unkeyed calls (by rw [hcode]; exact absent), hcode, hb.lower]
    simp [spelled]

/-- The word with the value `true` is parsed unless it is read by key as well, and counts as given. -/
theorem keyed (hc : c.Computed h (before ++ (b ++ ":true") :: after) blocks)
    (hmeta : ¬ h.ResolvesFirst b) (halias : h.keyAliases.get? b = none)
    (hkeys : ∀ v ∈ before ++ after, h.keyOf (.ofWord h.anyKeySymbol v) ≠ some b) :
    c.parsed = h.parsedWords before ++
        (if b ∈ h.handledKeys then [] else [.ofWord h.anyKeySymbol (b ++ ":true")]) ++ h.parsedWords after ∧
      ∀ calls n y, (y.entry n).code = c → Entries.flag calls n b y = (.ok true, y) := by
  obtain ⟨word, literal⟩ := hb.ofWord_true h.anyKeySymbol
  have key : h.keyOf (.ofWord h.anyKeySymbol (b ++ ":true")) = some b := by
    rw [word]
    show (Template.parse b).literal?.map h.canonicalKey = some b
    simp [literal, Handler.canonicalKey, hb.lower, halias]
  have plain := hb.isMeta_true hmeta
  constructor
  · have handled : h.parsesArgument (.ofWord h.anyKeySymbol (b ++ ":true")) = !decide (b ∈ h.handledKeys) := by
      rw [h.parsesArgument_eq, Handler.handles, key]
      simp
    rw [hc.parsed_around plain, handled]
    by_cases hmem : b ∈ h.handledKeys <;> simp [hmem]
  · rintro calls n y hcode
    let argument : Argument := .of (some b) (.str "true") false
    have resolved : CompiledArgument.literal? (.ofWord h.anyKeySymbol (b ++ ":true")) = some argument := by
      have untagged : (Template.parse b).hasTag = false :=
        Template.hasTag_parse_of_not_mem (hb.not_mem (by decide))
      have value : (Template.parse "true").hasTag = false := Template.hasTag_parse_of_not_mem (by decide)
      rw [word]
      simp [CompiledArgument.literal?, CompiledArgument.isDynamic, untagged, value, Template.source_parse,
        argument]
    have found : (y.entry n).code.argument? b = some (.ofWord h.anyKeySymbol (b ++ ":true")) := by
      let i := ((before.filter (!h.isMeta ·)).map (CompiledArgument.ofWord h.anyKeySymbol)).length
      have here : c.args[i]? = some (.ofWord h.anyKeySymbol (b ++ ":true")) := by
        rw [hc.args_around plain]
        simp [i]
      have first : c.positions.get? b = some i := by
        rw [hc.positions]
        refine (h.get?_positionsFrom_iff b c.args i).2 ⟨_, here, key, fun j hj a ha => ?_⟩
        rw [hc.args_around plain, List.getElem?_append_left hj] at ha
        exact Handler.keyOf_ne_of_mem (fun v hv => hkeys v (List.mem_append_left _ hv))
          (List.mem_of_getElem? ha)
      rw [hcode, Compiled.argument?, hb.lower, first]
      exact here
    have read : Entries.argument? calls n b y = (.ok (some argument), y) := by
      rw [Entries.argument?_of_some found, Entries.resolveArgument_of_literal resolved]
      rfl
    have truth : argument.object.asBoolean = some true :=
      (by decide +kernel : (Value.str "true").asBoolean = some true)
    have isTrue : argument.asBoolean = .ok true := by
      unfold Argument.asBoolean
      rw [truth]
    refine (Action.bind_ok read).trans ?_
    show Action.ofExcept .arguments argument.asBoolean y = _
    rw [isTrue]
    rfl

end Compiled.Computed

/-- The tables of a command are computed from the line that it is given as. -/
theorem Host.compileCommand_computed (command : String) (given : List String) (script : Option ScriptRef)
    (number : Int) (blocks : Option (List (Block Line))) (e : Engine) :
    ∃ c e', compileCommand command given script number blocks e = (.ok c, e') ∧
      c.Computed ((e.catalogue.find? (Keyword.ofCommand command).word).getD Handler.stub)
        (givenLine command given number blocks).args (givenLine command given number blocks).blocks := by
  have computed (words : List String) (line : Line) (branches : Option (List (Branch Compiled))) :=
    computed_assemble e.catalogue script command words line.args line.blocks number branches
  let line := givenLine command given number blocks
  cases blocks with
  | some blocks =>
    refine ⟨(buildLine e.catalogue script ⟨command, given, blocks, number⟩).1, _, rfl, ?_⟩
    unfold buildLine
    dsimp only
    split
    · exact computed _ line _
    · exact computed _ line none
  | none =>
    refine ⟨(buildFlat e.catalogue script command given number).1, _, rfl, ?_⟩
    unfold buildFlat
    dsimp only
    split
    · exact computed _ line _
    · exact computed _ line none

/-- A word that a handler reads by itself counts as given both as a bare word and as a key with the value
`true`, and the handler stays the same.  The handler parses the same arguments in both cases exactly if it
declares the word as a key as well; if not, the key with the value is one argument more that it parses. -/
theorem flag_forms {command b w : String} {given given' before after : List String}
    {blocks blocks' : Option (List (Block Line))} {branches : List (Block Line)} {number : Int}
    {script : Option ScriptRef} {e : Engine} {h : Handler}
    (hfound : e.catalogue.find? (Keyword.ofCommand command).word = some h)
    (hb : FlagName b) (hmem : b ∈ h.handledWords) (hmeta : ¬ h.ResolvesFirst b)
    (halias : h.keyAliases.get? b = none)
    (hkeys : ∀ v ∈ before ++ after, h.keyOf (.ofWord h.anyKeySymbol v) ≠ some b)
    (hw : Text.lower w = b)
    (hgiven : givenLine command given number blocks = ⟨command, before ++ w :: after, branches, number⟩)
    (hgiven' : givenLine command given' number blocks' =
      ⟨command, before ++ (b ++ ":true") :: after, branches, number⟩) :
    ∃ c c' x x', Host.compileCommand command given script number blocks e = (.ok c, x) ∧
      Host.compileCommand command given' script number blocks' e = (.ok c', x') ∧
      c'.handler = c.handler ∧
      (∀ calls n y, (y.entry n).code = c → Entries.flag calls n b y = (.ok true, y)) ∧
      (∀ calls n y, (y.entry n).code = c' → Entries.flag calls n b y = (.ok true, y)) ∧
      c.parsed = h.parsedWords before ++ h.parsedWords after ∧
      c'.parsed = h.parsedWords before ++
        (if b ∈ h.handledKeys then [] else [.ofWord h.anyKeySymbol (b ++ ":true")]) ++ h.parsedWords after ∧
      (c'.parsed = c.parsed ↔ b ∈ h.handledKeys) := by
  obtain ⟨c, x, compiled, computed⟩ := Host.compileCommand_computed command given script number blocks e
  obtain ⟨c', x', compiled', computed'⟩ := Host.compileCommand_computed command given' script number blocks' e
  rw [hfound, Option.getD_some, hgiven] at computed
  rw [hfound, Option.getD_some, hgiven'] at computed'
  obtain ⟨parsed, given⟩ := computed.bare hb hw hmem hkeys
  obtain ⟨parsed', given'⟩ := computed'.keyed hb hmeta halias hkeys
  refine ⟨c, c', x, x', compiled, compiled', ?_, given, given', parsed, parsed', ?_⟩
  · have counts : c'.counted.length = c.counted.length := by
      rw [computed.counted, computed'.counted]
      simp [hb.isMeta_spelling h hw, hb.isMeta_true hmeta]
    rw [computed.handler, computed'.handler, computed.wrongCount, computed'.wrongCount, counts]
  · rw [parsed, parsed']
    by_cases hkey : b ∈ h.handledKeys
    · simp [hkey]
    · simp [hkey]

/-- The flag of a command that copies a file, between its two keys. -/
theorem flag_forms_copy :
    let e := Host.create {} []
    let h := Builtin.fileCopy.handler
    let given := ["origin:a", "OverWrite", "destination:b"]
    let given' := ["origin:a", "overwrite:true", "destination:b"]
    (e.catalogue.find? (Keyword.ofCommand "~filecopy").word = some h ∧ FlagName "overwrite" ∧
      "overwrite" ∈ h.handledWords ∧ ¬ h.ResolvesFirst "overwrite" ∧ h.keyAliases.get? "overwrite" = none) ∧
    ∃ c c' x x', Host.compileCommand "~filecopy" given none 1 (some []) e = (.ok c, x) ∧
      Host.compileCommand "~filecopy" given' none 1 (some []) e = (.ok c', x') ∧
      c'.handler = c.handler ∧
      (∀ calls n y, (y.entry n).code = c → Entries.flag calls n "overwrite" y = (.ok true, y)) ∧
      (∀ calls n y, (y.entry n).code = c' → Entries.flag calls n "overwrite" y = (.ok true, y)) ∧
      c.parsed = h.parsedWords ["origin:a"] ++ h.parsedWords ["destination:b"] ∧
      c'.parsed = h.parsedWords ["origin:a"] ++ [.ofWord false "overwrite:true"] ++
        h.parsedWords ["destination:b"] ∧
      (c'.parsed = c.parsed ↔ "overwrite" ∈ h.handledKeys) := by
  intro e h given given'
  have found : e.catalogue.find? (Keyword.ofCommand "~filecopy").word = some h := by rfl
  have name : FlagName "overwrite" := ⟨by decide, List.all_eq_true.1 (by decide)⟩
  have mem : "overwrite" ∈ h.handledWords := by decide
  have later : ¬ h.ResolvesFirst "overwrite" := by
    unfold Handler.ResolvesFirst
    decide +kernel
  have keys : ∀ v ∈ ["origin:a"] ++ ["destination:b"], h.keyOf (.ofWord h.anyKeySymbol v) ≠ some "overwrite" := by
    decide +kernel
  have spelling : Text.lower "OverWrite" = "overwrite" := by decide +kernel
  exact ⟨⟨found, name, mem, later, rfl⟩, flag_forms found name mem later rfl keys spelling rfl rfl⟩

/-- The command that copies a file does not parse the bare word, and parses the key with the value. -/
theorem flag_form_parsed :
    let parsed (w : String) : Option (List String) :=
      match (Host.compileCommand "filecopy" ["origin:a", "destination:b", w] none (-1) none (Host.create {} [])).1 with
      | .ok c => some (c.parsed.map (·.raw))
      | .error _ => none
    "overwrite" ∈ Builtin.fileCopy.handler.handledWords ∧
    parsed "overwrite" = some [] ∧ parsed "overwrite:true" = some ["overwrite:true"] := by
  exact ⟨by decide, by decide +kernel, by decide +kernel⟩

end QueueScript
