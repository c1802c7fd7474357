import QueueScript.Template
import Mathlib.Data.List.Chain

/-!
# Scanning texts for tags

How a text falls into literal parts and tags, and a tag into segments.  A tag is looked for wherever one
may open, and its end is found by counting the tags that are open (`tagAtStart`).  Nothing of a text is
lost in its parts, nothing of a tag is lost in its segments, and the fuel of the scan never runs out.

The scans look at the character after a `<`, so the inside of a tag could mean something else by itself
than in its text.  It does not (`isSome_tagAtStart_of_suffix`): a `<` right before the closing bracket
would have opened one more tag.
-/

namespace QueueScript

variable {c : Char} {body buffer content after cs rest suf : List Char} {d fuel : Nat}

/-! ## The end of a tag -/

/-- The tag at the start of a text, if one opens there and is closed: its inside and what follows. -/
def tagAtStart (cs : List Char) : Option (List Char × List Char) :=
  if opensTag cs then tagBody 1 [] cs.tail else none

theorem opensTag_head (h : opensTag (c :: rest) = true) : c = '<' := by
  unfold opensTag at h
  split at h
  · next heq => exact (List.cons.inj heq).1
  · cases h

/-- A tag that opens inside a text still opens when the text goes on. -/
theorem opensTag_of_longer (hc : cs ≠ []) : opensTag (c :: (cs ++ rest)) = opensTag (c :: cs) := by
  obtain ⟨next, cs, rfl⟩ := List.exists_cons_of_ne_nil hc
  by_cases h : c = '<'
  · subst h
    rfl
  · simp [opensTag, h]

/-- The last open tag is closed by a bracket. -/
theorem depthAfter_eq_zero (hd : 0 < d) (h : depthAfter d (c :: rest) = 0) : c = '>' ∧ d = 1 := by
  rw [depthAfter] at h
  split_ifs at h with _ hc
  · exact ⟨hc, by omega⟩
  · omega

/-- The inside of a tag goes on as long as a tag is open. -/
theorem tagBody_cons (hd : 0 < d) (body : List Char) (c : Char) (rest : List Char) :
    tagBody d body (c :: rest) =
      if depthAfter d (c :: rest) = 0 then some (body.reverse, rest)
      else tagBody (depthAfter d (c :: rest)) (c :: body) rest := by
  rw [tagBody, depthAfter]
  by_cases hopens : opensTag (c :: rest) = true
  · rw [if_pos hopens, if_pos hopens, if_neg (Nat.succ_ne_zero d)]
  · rw [if_neg hopens, if_neg hopens]
    by_cases hc : c = '>'
    · have hle : d ≤ 1 ↔ d - 1 = 0 := by omega
      rw [if_pos hc, if_pos hc]
      simp only [hle]
    · rw [if_neg hc, if_neg hc, if_neg (Nat.pos_iff_ne_zero.1 hd)]

/-- What has been read of the inside comes before the rest of it. -/
theorem tagBody_body (d : Nat) (body cs : List Char) :
    tagBody d body cs = (tagBody d [] cs).map fun r => (body.reverse ++ r.1, r.2) := by
  induction cs generalizing d body with
  | nil => rfl
  | cons c cs ih =>
    unfold tagBody
    split_ifs
    · rw [ih (d + 1) (c :: body), ih (d + 1) [c]]
      cases tagBody (d + 1) [] cs <;> simp
    · simp
    · rw [ih (d - 1) (c :: body), ih (d - 1) [c]]
      cases tagBody (d - 1) [] cs <;> simp
    · rw [ih d (c :: body), ih d [c]]
      cases tagBody d [] cs <;> simp

/-- One character of the inside of a tag. -/
theorem tagBody_step (hd : 0 < d) (h : tagBody d [] (c :: rest) = some (content, after)) :
    depthAfter d (c :: rest) = 0 ∧ content = [] ∧ after = rest ∨
      0 < depthAfter d (c :: rest) ∧ ∃ inner, content = c :: inner ∧
        tagBody (depthAfter d (c :: rest)) [] rest = some (inner, after) := by
  rw [tagBody_cons hd] at h
  split_ifs at h with hzero
  · cases h
    exact .inl ⟨hzero, rfl, rfl⟩
  · rw [tagBody_body, Option.map_eq_some_iff] at h
    obtain ⟨⟨inner, after'⟩, hbody, heq⟩ := h
    cases heq
    exact .inr ⟨Nat.pos_of_ne_zero hzero, inner, rfl, hbody⟩

/-- The inside of a tag and the bracket after it are the text up to what follows. -/
theorem tagBody_eq_append (hd : 0 < d) (h : tagBody d [] cs = some (content, after)) :
    cs = content ++ '>' :: after := by
  induction cs generalizing d content with
  | nil => cases h
  | cons c cs ih =>
    rcases tagBody_step hd h with ⟨hzero, rfl, rfl⟩ | ⟨hpos, inner, rfl, hinner⟩
    · rw [(depthAfter_eq_zero hd hzero).1, List.nil_append]
    · rw [ih hpos hinner, List.cons_append]

theorem tagAtStart_eq_append (h : tagAtStart cs = some (content, after)) :
    cs = '<' :: (content ++ '>' :: after) := by
  unfold tagAtStart at h
  split_ifs at h with hopens
  cases cs with
  | nil => cases hopens
  | cons c cs => rw [opensTag_head hopens, ← tagBody_eq_append Nat.one_pos h, List.tail_cons]

/-! ## Tags inside a tag -/

/-- The rest of the inside of a tag is read to the same end, with some number of tags open. -/
theorem tagBody_of_suffix (hd : 0 < d) (h : tagBody d [] cs = some (content, after))
    (hsuf : suf <:+ content) :
    ∃ depth, 0 < depth ∧ tagBody depth [] (suf ++ '>' :: after) = some (suf, after) := by
  induction cs generalizing d content with
  | nil => cases h
  | cons c cs ih =>
    rcases List.suffix_iff_eq_append.1 hsuf with hall
    by_cases hwhole : suf = content
    · subst hwhole
      exact ⟨d, hd, by rwa [← tagBody_eq_append hd h]⟩
    rcases tagBody_step hd h with ⟨_, rfl, rfl⟩ | ⟨hpos, inner, rfl, hinner⟩
    · exact absurd (List.suffix_nil.1 hsuf) hwhole
    · exact ih hpos hinner ((List.suffix_cons_iff.1 hsuf).resolve_left hwhole)

/-- Of the tags that are open, the inner ones are closed before the outer ones: the last bracket closes
none of them. -/
theorem isSome_tagBody_inside {k m : Nat} (hk : 0 < k) (hm : 0 < m)
    (h : tagBody (k + m) [] cs = some (content, after)) : (tagBody k [] content).isSome = true := by
  induction cs generalizing k content with
  | nil => cases h
  | cons c cs ih =>
    rcases tagBody_step (by omega) h with ⟨hzero, -, -⟩ | ⟨-, inner, rfl, hinner⟩
    · have := (depthAfter_eq_zero (by omega) hzero).2
      omega
    have hcs := tagBody_eq_append (by simp only [depthAfter]; split_ifs <;> omega) hinner
    -- A `<` at the end of the inside opens a tag that the bracket after it closes, so the inside goes on.
    have hopens : opensTag (c :: cs) = opensTag (c :: inner) := by
      by_cases hnil : inner = []
      · by_cases hc : c = '<'
        · subst hc hnil hcs
          have hd : depthAfter (k + m) ('<' :: '>' :: after) = k + m + 1 := rfl
          rw [List.nil_append, hd] at hinner
          rcases tagBody_step (by omega) hinner with ⟨hzero, -, -⟩ | ⟨-, _, hcontent, -⟩
          · have hd : depthAfter (k + m + 1) ('>' :: after) = k + m := rfl
            omega
          · cases hcontent
        · subst hnil
          cases cs <;> simp [opensTag, hc]
      · rw [hcs, opensTag_of_longer hnil]
    rw [tagBody_cons hk]
    split_ifs with hzero
    · rfl
    · rw [tagBody_body, Option.isSome_map]
      have hdepth : depthAfter (k + m) (c :: cs) = depthAfter k (c :: inner) + m := by
        simp only [depthAfter, hopens] at hzero ⊢
        split_ifs at hzero ⊢ <;> omega
      rw [hdepth] at hinner
      exact ih (Nat.pos_of_ne_zero hzero) hinner

/-- Every tag that opens in the inside of a tag is closed there. -/
theorem isSome_tagAtStart_of_suffix (h : tagAtStart cs = some (content, after)) (hsuf : suf <:+ content)
    (hopens : opensTag suf = true) : (tagAtStart suf).isSome = true := by
  unfold tagAtStart at h
  split_ifs at h
  obtain ⟨depth, hdepth, hbody⟩ := tagBody_of_suffix Nat.one_pos h hsuf
  rw [tagAtStart, if_pos hopens]
  cases suf with
  | nil => cases hopens
  | cons c suf =>
    have hne : suf ≠ [] := by
      rintro rfl
      simp [opensTag] at hopens
    have hafter : depthAfter depth (c :: (suf ++ '>' :: after)) = depth + 1 := by
      rw [depthAfter, if_pos (by rwa [opensTag_of_longer hne])]
    rw [List.cons_append] at hbody
    rcases tagBody_step hdepth hbody with ⟨hzero, -, -⟩ | ⟨-, inner, hinner, hrest⟩
    · omega
    · cases hinner
      rw [hafter, Nat.add_comm] at hrest
      exact isSome_tagBody_inside Nat.one_pos hdepth hrest

/-! ## Parts of a text -/

/-- The characters of a part of a text. -/
def RawPart.chars : RawPart → List Char
  | .text cs => cs
  | .tag content => '<' :: (content ++ ['>'])

/-- Whether a part of a text is a tag. -/
def RawPart.isTag : RawPart → Bool
  | .text _ => false
  | .tag _ => true

/-- The parts of a text are literal up to the next tag. -/
theorem rawPartsFrom_cons (fuel : Nat) (buffer : List Char) (c : Char) (rest : List Char) :
    rawPartsFrom (fuel + 1) buffer (c :: rest) =
      match tagAtStart (c :: rest) with
      | some (content, after) => rawText buffer ++ .tag content :: rawPartsFrom fuel [] after
      | none => rawPartsFrom fuel (c :: buffer) rest := by
  rw [rawPartsFrom, tagAtStart, List.tail_cons]
  split_ifs <;> rfl

theorem flatMap_rawText (buffer : List Char) : (rawText buffer).flatMap RawPart.chars = buffer.reverse := by
  cases buffer <;> simp [rawText, RawPart.chars]

theorem mem_rawText {p : RawPart} (h : p ∈ rawText buffer) :
    p = .text buffer.reverse ∧ buffer ≠ [] := by
  cases buffer with
  | nil => simp [rawText] at h
  | cons c buffer => simpa [rawText] using h

theorem length_after_le (h : tagAtStart cs = some (content, after)) (hl : cs.length ≤ fuel + 1) :
    after.length ≤ fuel := by
  rw [tagAtStart_eq_append h] at hl
  simp only [List.length_cons, List.length_append] at hl
  omega

/-- The parts of a text are the text. -/
theorem flatMap_rawPartsFrom (hl : cs.length ≤ fuel) :
    (rawPartsFrom fuel buffer cs).flatMap RawPart.chars = buffer.reverse ++ cs := by
  induction fuel generalizing buffer cs with
  | zero =>
    cases List.eq_nil_of_length_eq_zero (Nat.le_zero.1 hl)
    rw [rawPartsFrom, flatMap_rawText, List.append_nil]
  | succ fuel ih =>
    cases cs with
    | nil => rw [rawPartsFrom, flatMap_rawText, List.append_nil]
    | cons c rest =>
      rw [rawPartsFrom_cons]
      split
      · next content after h =>
        rw [List.flatMap_append, List.flatMap_cons, flatMap_rawText, ih (length_after_le h hl),
          tagAtStart_eq_append h]
        simp [RawPart.chars]
      · rw [ih (Nat.le_of_succ_le_succ hl)]
        simp

theorem flatMap_rawParts (cs : List Char) : (rawParts cs).flatMap RawPart.chars = cs :=
  flatMap_rawPartsFrom (Nat.le_refl _)

/-- No literal part is empty. -/
theorem ne_nil_of_mem_rawPartsFrom (h : .text suf ∈ rawPartsFrom fuel buffer cs) : suf ≠ [] := by
  have literal {buffer : List Char} (h : .text suf ∈ rawText buffer) : suf ≠ [] := by
    obtain ⟨heq, hne⟩ := mem_rawText h
    cases heq
    simpa using hne
  induction fuel generalizing buffer cs with
  | zero =>
    cases cs with
    | nil => exact literal h
    | cons c rest => exact literal h
  | succ fuel ih =>
    cases cs with
    | nil => exact literal h
    | cons c rest =>
      rw [rawPartsFrom_cons] at h
      split at h
      · rcases List.mem_append.1 h with h | h
        · exact literal h
        · exact ih ((List.mem_cons.1 h).resolve_left nofun)
      · exact ih h

/-- Two literal parts are never next to each other. -/
theorem isChain_rawPartsFrom (fuel : Nat) (buffer cs : List Char) :
    (rawPartsFrom fuel buffer cs).IsChain fun p q => p.isTag = true ∨ q.isTag = true := by
  have literal (buffer : List Char) :
      (rawText buffer).IsChain fun p q => p.isTag = true ∨ q.isTag = true := by
    cases buffer <;> simp [rawText]
  induction fuel generalizing buffer cs with
  | zero =>
    cases cs with
    | nil => exact literal buffer
    | cons c rest => exact literal buffer
  | succ fuel ih =>
    cases cs with
    | nil => exact literal buffer
    | cons c rest =>
      rw [rawPartsFrom_cons]
      split
      · next content after _ =>
        have tail : (.tag content :: rawPartsFrom fuel [] after).IsChain
            fun p q => p.isTag = true ∨ q.isTag = true :=
          List.isChain_cons.2 ⟨fun _ _ => .inl rfl, ih [] after⟩
        refine (literal buffer).append tail fun _ _ q hq => .inr ?_
        cases hq
        rfl
      · exact ih _ _

/-- A tag among the parts stands at the start of what follows it in the text. -/
theorem tagAtStart_of_suffix {parts : List RawPart} (hl : cs.length ≤ fuel)
    (h : (.tag content :: parts) <:+ rawPartsFrom fuel buffer cs) :
    tagAtStart ('<' :: (content ++ '>' :: parts.flatMap RawPart.chars)) =
      some (content, parts.flatMap RawPart.chars) := by
  have literal {buffer : List Char} (h : (.tag content :: parts) <:+ rawText buffer) : False := by
    cases (mem_rawText (h.mem List.mem_cons_self)).1
  induction fuel generalizing buffer cs with
  | zero =>
    cases cs with
    | nil => exact (literal h).elim
    | cons c rest => exact (literal h).elim
  | succ fuel ih =>
    cases cs with
    | nil => exact (literal h).elim
    | cons c rest =>
      rw [rawPartsFrom_cons] at h
      split at h
      · next inside after htag =>
        have hafter := length_after_le htag hl
        have tail : (.tag content :: parts) <:+ .tag inside :: rawPartsFrom fuel [] after := by
          cases buffer with
          | nil => exact h
          | cons b buffer => exact (List.suffix_cons_iff.1 h).resolve_left nofun
        rcases List.suffix_cons_iff.1 tail with heq | hlater
        · cases heq
          rw [flatMap_rawPartsFrom hafter, List.reverse_nil, List.nil_append, ← tagAtStart_eq_append htag]
          exact htag
        · exact ih hafter hlater
      · exact ih (Nat.le_of_succ_le_succ hl) h

/-- Where a tag is closed in a text, there is a tag among the parts. -/
theorem exists_tag_rawPartsFrom (hl : cs.length ≤ fuel) (hsuf : suf <:+ cs)
    (h : (tagAtStart suf).isSome = true) : ∃ content, .tag content ∈ rawPartsFrom fuel buffer cs := by
  induction fuel generalizing buffer cs with
  | zero =>
    cases List.eq_nil_of_length_eq_zero (Nat.le_zero.1 hl)
    cases List.suffix_nil.1 hsuf
    cases h
  | succ fuel ih =>
    cases cs with
    | nil =>
      cases List.suffix_nil.1 hsuf
      cases h
    | cons c rest =>
      rw [rawPartsFrom_cons]
      split
      · exact ⟨_, List.mem_append_right _ List.mem_cons_self⟩
      · next hnone =>
        refine ih (Nat.le_of_succ_le_succ hl) ((List.suffix_cons_iff.1 hsuf).resolve_left ?_)
        rintro rfl
        rw [hnone] at h
        cases h

theorem length_of_mem_rawParts (h : .tag content ∈ rawParts cs) : content.length + 2 ≤ cs.length := by
  obtain ⟨before, parts, hparts⟩ := List.append_of_mem h
  have hcs := flatMap_rawParts cs
  rw [hparts, List.flatMap_append, List.flatMap_cons] at hcs
  have hlength := congrArg List.length hcs
  simp only [RawPart.chars, List.length_append, List.length_cons] at hlength
  omega

/-! ## Segments of a tag -/

/-- The segments with points between them are the inside of the tag. -/
theorem intercalate_rawSegmentsFrom (brackets tags : Nat) (piece cs : List Char) :
    ['.'].intercalate (rawSegmentsFrom brackets tags piece cs) = piece.reverse ++ cs := by
  have nonempty (brackets tags : Nat) (piece cs : List Char) :
      rawSegmentsFrom brackets tags piece cs ≠ [] := by
    fun_induction rawSegmentsFrom brackets tags piece cs <;> simp_all
  fun_induction rawSegmentsFrom brackets tags piece cs with
  | case1 => simp
  | case6 brackets tags piece c rest _ _ _ _ hpoint ih =>
    obtain ⟨next, more, heq⟩ := List.exists_cons_of_ne_nil (nonempty brackets tags [] rest)
    rw [heq] at ih ⊢
    rw [List.intercalate_cons_cons, ih, hpoint.1]
    simp
  | case2 | case3 | case4 | case5 | case7 => simp_all

theorem intercalate_rawSegments (content : List Char) :
    ['.'].intercalate (rawSegments content) = content :=
  intercalate_rawSegmentsFrom 0 0 [] content

theorem length_of_mem_rawSegmentsFrom {brackets tags : Nat} {piece segment : List Char}
    (h : segment ∈ rawSegmentsFrom brackets tags piece cs) : segment.length ≤ piece.length + cs.length := by
  fun_induction rawSegmentsFrom brackets tags piece cs with
  | case1 => simp_all
  | case6 brackets tags piece c rest _ _ _ _ _ ih =>
    rcases List.mem_cons.1 h with rfl | h
    · simp
    · have := ih h
      simp only [List.length_nil, List.length_cons] at this ⊢
      omega
  | case2 _ _ _ _ _ _ ih | case3 _ _ _ _ _ _ _ ih | case4 _ _ _ _ _ _ _ _ ih
  | case5 _ _ _ _ _ _ _ _ _ ih | case7 _ _ _ _ _ _ _ _ _ _ ih =>
    have := ih h
    simp only [List.length_cons] at this ⊢
    omega

theorem length_of_mem_rawSegments {segment : List Char} (h : segment ∈ rawSegments content) :
    segment.length ≤ content.length := by
  simpa using length_of_mem_rawSegmentsFrom h

/-- A segment is its name alone, or its name and its parameter in brackets. -/
theorem splitSegment_eq_append (segment : List Char) :
    (∃ name, splitSegment segment = (name, none) ∧ segment = name) ∨
      ∃ name p, splitSegment segment = (name, some p) ∧ segment = name ++ '[' :: (p ++ [']']) := by
  unfold splitSegment
  split
  · next bracket inside hdrop =>
    have hsplit : segment.takeWhile (· != '[') ++ segment.dropWhile (· != '[') = segment :=
      List.takeWhile_append_dropWhile
    have hbracket : bracket = '[' := by
      have := List.head?_dropWhile_not (· != '[') segment
      rw [hdrop] at this
      simpa using this
    rw [hdrop, hbracket] at hsplit
    split_ifs with hlast
    · refine .inr ⟨_, _, rfl, ?_⟩
      rw [List.dropLast_append_getLast? _ hlast]
      exact hsplit.symm
    · exact .inl ⟨_, rfl, rfl⟩
  · exact .inl ⟨_, rfl, rfl⟩

end QueueScript
