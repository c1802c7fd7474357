import QueueScript.Proofs.Source.ShownWords
import QueueScript.Proofs.Templates.Printing

/-!
# Words and the tags in them

White space inside a tag does not end a word.  The splitter of a line counts the tags that are open as it
reads; a template looks for the end of each tag.  Both see the same tags in a word, so white space in a
word that is not in quotes lies inside a tag of its template, except after a tag that opens and is never
closed: there the splitter takes all the rest of the line for one word, and the template has the `<` for
itself (`blanks_in_tags`, `unclosed_tag_joins_words`).
-/

namespace QueueScript

/-! ## The last word may have an open tag, no other -/

/-- All white space of a text stands where a tag is open. -/
def BlanksInTags (depth : Nat) : List Char → Prop
  | [] => True
  | c :: rest =>
    (Text.isBlank c = true → depthAfter depth (c :: rest) ≠ 0) ∧
      BlanksInTags (depthAfter depth (c :: rest)) rest

variable {r : Reading} {c : Char} {cs rest before after content buffer : List Char} {ws more : List Word}
  {word : Word} {d fuel : Nat}

theorem depthAfter_blank (hc : Text.isBlank c = true) : depthAfter d (c :: rest) = d := by
  obtain ⟨-, -, hopen, hclose⟩ := isBlank_ne hc
  rw [depthAfter, if_neg fun h => hopen (opensTag_head h), if_neg hclose]

/-- White space of a word stands where a tag is open, and every tag that opens in the word is closed in
it, unless no more words come. -/
def Word.TagsClose (word : Word) (more : List Word) : Prop :=
  BlanksInTags 0 word.text.toList ∧ (tagDepth 0 word.text.toList = 0 ∨ more = [])

/-- The word being read goes on for some of the characters, in which all white space stands where a tag is
open. -/
def Reading.GoesOn (r : Reading) (cs : List Char) (word : Word) (more : List Word) : Prop :=
  ∃ inner rest, cs = inner ++ rest ∧ EndsWord rest ∧ word.text.toList = r.chars.reverse ++ inner ∧
    BlanksInTags r.depth inner ∧ (tagDepth r.depth inner = 0 ∨ more = [])

theorem Reading.GoesOn.tagsClose (h : Reading.start.GoesOn cs word more) : word.TagsClose more := by
  obtain ⟨inner, -, -, -, htext, hinner⟩ := h
  rw [Word.TagsClose, htext]
  exact hinner

/-- One more character of the word being read. -/
theorem Reading.GoesOn.push (hend : ¬(depthAfter r.depth (c :: cs) = 0 ∧ Text.isBlank c = true))
    (h : ({ r.push c with depth := depthAfter r.depth (c :: cs) } : Reading).GoesOn cs word more) :
    r.GoesOn (c :: cs) word more := by
  obtain ⟨inner, rest, rfl, hrest, htext, hin, hlast⟩ := h
  dsimp only [Reading.push] at htext hin hlast
  rw [depthAfter_append r.depth c inner hrest] at hend hin hlast
  exact ⟨c :: inner, rest, rfl, hrest, by simpa using htext,
    ⟨fun hblank hzero => hend ⟨hzero, hblank⟩, hin⟩, hlast⟩

/-- A word that is not in quotes is the one being read, or a later one, which is read from its start on. -/
theorem word_of_wordsFrom (hr : r.awaited ≠ none → r.quoted = true)
    (h : wordsFrom r cs = ws ++ word :: more) (hw : word.quoted = false) :
    (r.quoted = false ∧ r.GoesOn cs word more) ∨ word.TagsClose more := by
  induction cs generalizing r ws with
  | nil =>
    rw [wordsFrom, Reading.word] at h
    split_ifs at h
    · cases ws with
      | nil =>
        cases h
        exact .inl ⟨hw, [], [], rfl, endsWord_nil, by simp, trivial, .inr rfl⟩
      | cons w ws => simp at h
    · simp at h
  | cons c cs ih =>
    have later {ws : List Word} (h : wordsFrom .start cs = ws ++ word :: more) : word.TagsClose more :=
      (ih (r := .start) (fun hn => absurd rfl hn) h).elim (fun hfirst => hfirst.2.tagsClose) id
    have unquoted {r : Reading} {ws : List Word} (hquoted : r.quoted = true)
        (h : wordsFrom r cs = ws ++ word :: more) : word.TagsClose more :=
      (ih (fun _ => hquoted) h).resolve_left fun hfirst => by simp [hquoted] at hfirst
    rw [wordsFrom] at h
    split at h
    · next quote hquote =>
      have hquoted := hr (by simp [hquote])
      split at h
      · exact .inr (unquoted (r := { r with awaited := none }) hquoted h)
      · exact .inr (unquoted (r := r.push c) hquoted h)
    · next hnone =>
      dsimp only at h
      split at h
      · exact .inr (unquoted rfl h)
      · split at h
        · next hend =>
          obtain ⟨hdepth, hblank⟩ := hend
          rw [depthAfter_blank hblank] at hdepth
          rw [Reading.word] at h
          split_ifs at h
          · cases ws with
            | nil =>
              cases h
              exact .inl ⟨hw, [], c :: cs, rfl, hblank, by simp, trivial, .inl hdepth⟩
            | cons w ws => exact .inr (later (List.cons.inj h).2)
          · exact .inr (later h)
        · next hend =>
          exact (ih (r := { r.push c with depth := depthAfter r.depth (c :: cs) })
            (fun hn => absurd hnone hn) h).imp_left fun hfirst => ⟨hfirst.1, hfirst.2.push hend⟩

theorem word_of_splitWords {line : String} (h : splitWords line = ws ++ word :: more)
    (hw : word.quoted = false) : word.TagsClose more :=
  (word_of_wordsFrom (fun hn => absurd rfl hn) h hw).elim (fun hfirst => hfirst.2.tagsClose) id

/-! ## Tags that are closed -/

/-- Behind a tag, no tag is open. -/
theorem BlanksInTags.behind (h : BlanksInTags d cs) (hd : 0 < d) (htag : tagBody d [] cs = some (content, after)) :
    BlanksInTags 0 after := by
  induction cs generalizing d content with
  | nil => cases htag
  | cons c cs ih =>
    rcases tagBody_step hd htag with ⟨hzero, -, rfl⟩ | ⟨hpos, inner, -, hinner⟩
    · rw [← hzero]
      exact h.2
    · exact ih h.2 hpos hinner

/-- A tag that has no end is still open at the end of the text, below those that were open before. -/
theorem lt_tagDepth {k : Nat} (hk : 0 < k) (h : tagBody k [] cs = none) (m : Nat) :
    m < tagDepth (m + k) cs := by
  induction cs generalizing k with
  | nil => exact Nat.lt_add_of_pos_right hk
  | cons c cs ih =>
    rw [tagBody_cons hk] at h
    split_ifs at h with hzero
    rw [tagBody_body, Option.map_eq_none_iff] at h
    have hdepth : depthAfter (m + k) (c :: cs) = m + depthAfter k (c :: cs) := by
      simp only [depthAfter] at hzero ⊢
      split_ifs at hzero ⊢ <;> omega
    rw [tagDepth, hdepth]
    exact ih (Nat.pos_of_ne_zero hzero) h

/-- A text that has closed all its tags has no tag without an end. -/
theorem tagDepth_ne_zero (hopens : opensTag cs = true) (hnone : tagAtStart cs = none) (before : List Char) :
    tagDepth d (before ++ cs) ≠ 0 := by
  induction before generalizing d with
  | nil =>
    rw [tagAtStart, if_pos hopens] at hnone
    cases cs with
    | nil => cases hopens
    | cons c cs =>
      rw [List.nil_append, tagDepth, depthAfter, if_pos hopens]
      exact Nat.ne_of_gt (Nat.lt_of_le_of_lt (Nat.zero_le d) (lt_tagDepth Nat.one_pos hnone d))
  | cons c before ih => exact ih

/-! ## White space in a template -/

/-- A character of a text, between the characters before and after it, lies inside a tag of a template:
between the brackets of one of its parts. -/
def Template.HasInTag (t : Template) (before : List Char) (c : Char) (after : List Char) : Prop :=
  ∃ ps content segments qs u v, t.parts = ps ++ .tag content segments :: qs ∧
    content.toList = u ++ c :: v ∧ before = (printParts ps).toList ++ '<' :: u ∧
      after = v ++ '>' :: (printParts qs).toList

/-- Some tag opens among the characters before a place and is never closed. -/
def UnclosedBefore (before rest : List Char) : Prop :=
  ∃ passed opened, before = passed ++ opened ∧ opened ≠ [] ∧ opensTag (opened ++ rest) = true ∧
    tagAtStart (opened ++ rest) = none

theorem UnclosedBefore.behind (h : UnclosedBefore before rest) (passed : List Char) :
    UnclosedBefore (passed ++ before) rest := by
  obtain ⟨between, opened, rfl, hopened⟩ := h
  exact ⟨passed ++ between, opened, (List.append_assoc passed between opened).symm, hopened⟩

/-- White space stands in a tag among the parts of a text, or after a tag that has no end. -/
theorem blank_in_rawPartsFrom (buffer : List Char) (hl : cs.length ≤ fuel) (h : BlanksInTags 0 cs)
    (hcs : cs = before ++ c :: after)
    (hc : Text.isBlank c = true) :
    (∃ ps content qs u v, rawPartsFrom fuel buffer cs = ps ++ .tag content :: qs ∧ content = u ++ c :: v ∧
        buffer.reverse ++ before = ps.flatMap RawPart.chars ++ '<' :: u ∧
          after = v ++ '>' :: qs.flatMap RawPart.chars) ∨
      UnclosedBefore before (c :: after) := by
  obtain ⟨-, -, hopen, hclose⟩ := isBlank_ne hc
  induction fuel generalizing buffer cs before with
  | zero => simp [hcs] at hl
  | succ fuel ih =>
    cases cs with
    | nil => simp at hcs
    | cons first rest =>
      have hrest : rest.length ≤ fuel := Nat.le_of_succ_le_succ hl
      rw [rawPartsFrom_cons]
      split
      · next content aft htag =>
        have haft := length_after_le htag hl
        have htext := tagAtStart_eq_append htag
        have behind : BlanksInTags 0 aft := by
          rw [tagAtStart] at htag
          split_ifs at htag with hopens
          have hdepth : depthAfter 0 (first :: rest) = 1 := by rw [depthAfter, if_pos hopens]
          have hin := h.2
          rw [hdepth] at hin
          exact hin.behind Nat.one_pos htag
        rw [htext] at hcs
        cases before with
        | nil => exact absurd (List.cons.inj hcs).1.symm hopen
        | cons b before =>
          obtain ⟨rfl, htail⟩ : '<' = b ∧ content ++ '>' :: aft = before ++ c :: after := List.cons.inj hcs
          rcases List.append_eq_append_iff.1 htail with ⟨u, rfl, hlater⟩ | ⟨v, rfl, hinside⟩
          · -- The place is behind the tag.
            cases u with
            | nil => exact absurd (List.cons.inj hlater).1.symm hclose
            | cons b u =>
              obtain ⟨rfl, hplace⟩ : '>' = b ∧ aft = u ++ c :: after := List.cons.inj hlater
              rcases ih [] haft behind hplace with hpart | hunclosed
              · obtain ⟨ps, inside, qs, u', v, hparts, hinside, hbefore, hafter⟩ := hpart
                refine .inl ⟨rawText buffer ++ .tag content :: ps, inside, qs, u', v, ?_, hinside, ?_, hafter⟩
                · simp [hparts]
                · rw [List.reverse_nil, List.nil_append] at hbefore
                  simp [flatMap_rawText, RawPart.chars, hbefore]
              · exact .inr (by simpa using hunclosed.behind ('<' :: (content ++ ['>'])))
          · -- The place is inside the tag.
            cases v with
            | nil => exact absurd (List.cons.inj hinside).1 hclose
            | cons b v =>
              obtain ⟨rfl, rfl⟩ : c = b ∧ after = v ++ '>' :: aft := List.cons.inj hinside
              refine .inl ⟨rawText buffer, _, rawPartsFrom fuel [] aft, before, v, rfl, rfl, ?_, ?_⟩
              · rw [flatMap_rawText]
              · rw [flatMap_rawPartsFrom haft, List.reverse_nil, List.nil_append]
      · next hnone =>
        by_cases hopens : opensTag (first :: rest) = true
        · refine .inr ⟨[], before, rfl, ?_, hcs ▸ hopens, hcs ▸ hnone⟩
          rintro rfl
          exact hopen ((List.cons.inj hcs).1 ▸ opensTag_head hopens)
        · have hdepth : depthAfter 0 (first :: rest) = 0 := by
            rw [depthAfter, if_neg hopens]
            split_ifs <;> rfl
          obtain ⟨hfirst, hin⟩ := h
          rw [hdepth] at hfirst hin
          cases before with
          | nil => exact absurd rfl (hfirst ((List.cons.inj hcs).1 ▸ hc))
          | cons b before =>
            obtain ⟨rfl, htail⟩ : first = b ∧ rest = before ++ c :: after := List.cons.inj hcs
            rcases ih (first :: buffer) hrest hin htail with htag | hunclosed
            · obtain ⟨ps, content, qs, u, v, hparts, hcontent, hbefore, hafter⟩ := htag
              exact .inl ⟨ps, content, qs, u, v, hparts, hcontent, by simpa using hbefore, hafter⟩
            · exact .inr (hunclosed.behind [first])

/-- White space in a word that is not in quotes lies inside a tag of the word's template, as long as the
tags of the word have an end.  Only in the last word of a line a tag may lack one: the white space that
lies outside the tags comes after such a tag. -/
theorem blanks_in_tags {line : String} (h : splitWords line = ws ++ word :: more) (hw : word.quoted = false)
    (htext : word.text.toList = before ++ c :: after) (hc : Text.isBlank c = true) :
    (Template.parse word.text).HasInTag before c after ∨
      more = [] ∧ UnclosedBefore before (c :: after) := by
  obtain ⟨hblanks, hlast⟩ := word_of_splitWords h hw
  rcases blank_in_rawPartsFrom [] (Nat.le_refl _) hblanks htext hc with hpart | hunclosed
  · obtain ⟨ps, content, qs, u, v, hparts, rfl, hbefore, rfl⟩ := hpart
    refine .inl ⟨ps.map Part.read, String.ofList (u ++ c :: v),
      (rawSegments (u ++ c :: v)).map Segment.read, qs.map Part.read, u, v, ?_,
      String.toList_ofList, ?_, ?_⟩
    · rw [Template.parts_parse, rawParts, hparts, List.map_append, List.map_cons, Part.read]
    · rw [printParts_read fun part _ => Part.print_read part, String.toList_ofList, ← hbefore]
      rfl
    · rw [printParts_read fun part _ => Part.print_read part, String.toList_ofList]
  · refine .inr ⟨hlast.resolve_left ?_, hunclosed⟩
    obtain ⟨passed, opened, rfl, -, hopens, hnone⟩ := hunclosed
    rw [htext, List.append_assoc]
    exact tagDepth_ne_zero hopens hnone passed

/-- The white space of a parameter lies inside its tag. -/
theorem blanks_in_tags_element :
    let word : Word := ⟨"<element[a b].upper>", false⟩
    splitWords "log <element[a b].upper> x" = [⟨"log", false⟩] ++ word :: [⟨"x", false⟩] ∧
      (Template.parse word.text).HasInTag "<element[a".toList ' ' "b].upper>".toList := by
  intro word
  have h : splitWords "log <element[a b].upper> x" = [⟨"log", false⟩] ++ word :: [⟨"x", false⟩] := by
    decide +kernel
  exact ⟨h, (blanks_in_tags h rfl (by decide +kernel) (by decide)).resolve_right fun hlast =>
    nomatch hlast.1⟩

/-- A tag that is never closed takes the rest of its line for one word, but is no tag of the template of
that word. -/
theorem unclosed_tag_joins_words :
    splitWords "log <a b" = [⟨"log", false⟩] ++ ⟨"<a b", false⟩ :: [] ∧ Text.isBlank ' ' = true ∧
      ¬(Template.parse "<a b").HasInTag "<a".toList ' ' "b".toList := by
  refine ⟨by decide +kernel, by decide, ?_⟩
  rintro ⟨ps, content, segments, qs, -, -, hparts, -⟩
  have hraw : (Template.parse "<a b").hasTag = false := by decide +kernel
  rw [Template.hasTag, hparts, List.any_append, List.any_cons] at hraw
  simp [Part.isTag] at hraw

end QueueScript
