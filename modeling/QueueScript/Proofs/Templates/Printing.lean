import QueueScript.Proofs.Templates.Scanning

/-!
# Printed templates are the texts they were read from

A template is printed part by part: literal texts as they are, a tag between angle brackets as its
segments with points between them, a segment as its name with the printed parameter in square brackets.
The template of a text is printed as the text, and so is every template inside it
(`Template.parse_faithful`).
-/

namespace QueueScript

/-! ## Printing -/

mutual

/-- The text of a template. -/
def Template.print : Template → String
  | .mk _ parts => printParts parts

/-- The text of parts one after the other. -/
def printParts : List Part → String
  | [] => ""
  | p :: rest => p.print ++ printParts rest

/-- The text of a part. -/
def Part.print : Part → String
  | .text s => s
  | .tag _ segments => "<" ++ String.intercalate "." (printSegments segments) ++ ">"

/-- The texts of segments. -/
def printSegments : List Segment → List String
  | [] => []
  | s :: rest => s.print :: printSegments rest

/-- The text of a segment. -/
def Segment.print : Segment → String
  | .bare name => name
  | .param name p => name ++ "[" ++ p.print ++ "]"

end

/-! ## Parsing without fuel -/

/-- The segment of its characters. -/
def Segment.read (segment : List Char) : Segment :=
  match splitSegment segment with
  | (name, none) => .bare (String.ofList name)
  | (name, some p) => .param (String.ofList name) (Template.parse (String.ofList p))

/-- The part of its characters. -/
def Part.read : RawPart → Part
  | .text t => .text (String.ofList t)
  | .tag content => .tag (String.ofList content) ((rawSegments content).map Segment.read)

variable {s : String} {name p content segment cs : List Char}

/-- A parameter is shorter than the text that it stands in. -/
theorem length_param_lt (htag : .tag content ∈ rawParts cs) (hsegment : segment ∈ rawSegments content)
    (hp : splitSegment segment = (name, some p)) : p.length < cs.length := by
  have htag := length_of_mem_rawParts htag
  have hsegment := length_of_mem_rawSegments hsegment
  obtain ⟨_, heq, -⟩ | ⟨_, _, heq, rfl⟩ := splitSegment_eq_append segment
  · rw [hp] at heq
    cases heq
  · rw [hp] at heq
    cases heq
    simp only [List.length_append, List.length_cons] at hsegment
    omega

/-- Fuel for the length of the text is enough. -/
theorem parseTemplate_enough {fuel fuel' : Nat} (cs : List Char) (h : cs.length < fuel)
    (h' : cs.length < fuel') : parseTemplate fuel cs = parseTemplate fuel' cs := by
  induction fuel generalizing fuel' cs with
  | zero => omega
  | succ fuel ih =>
    obtain ⟨fuel', rfl⟩ : ∃ k, fuel' = k + 1 := ⟨fuel' - 1, by omega⟩
    unfold parseTemplate
    congr 1
    refine List.map_congr_left fun part hpart => ?_
    cases part with
    | text t => rfl
    | tag content =>
      dsimp only
      congr 1
      refine List.map_congr_left fun segment hsegment => ?_
      match hp : splitSegment segment with
      | (name, none) => rfl
      | (name, some p) =>
        have := length_param_lt hpart hsegment hp
        have hsame : parseTemplate fuel p = parseTemplate fuel' p := ih p (by omega) (by omega)
        dsimp only
        rw [hsame]

/-- The template of a text is made of its parts, and the parameters in them are templates of their own
texts. -/
theorem Template.parse_eq (s : String) : Template.parse s = .mk s ((rawParts s.toList).map Part.read) := by
  unfold Template.parse parseTemplate
  rw [String.ofList_toList]
  congr 1
  refine List.map_congr_left fun part hpart => ?_
  cases part with
  | text t => rfl
  | tag content =>
    refine congrArg (Part.tag _) (List.map_congr_left fun segment hsegment => ?_)
    unfold Segment.read
    match hp : splitSegment segment with
    | (name, none) => rfl
    | (name, some p) =>
      have := length_param_lt hpart hsegment hp
      dsimp only
      rw [Template.parse, String.toList_ofList, parseTemplate_enough p (by omega) (Nat.lt_succ_self _)]

/-! ## Printing what was parsed -/

theorem printSegments_eq_map (segments : List Segment) :
    printSegments segments = segments.map Segment.print := by
  induction segments with
  | nil => rfl
  | cons s rest ih => rw [printSegments, ih, List.map_cons]

theorem printParts_append (ps qs : List Part) : printParts (ps ++ qs) = printParts ps ++ printParts qs := by
  induction ps with
  | nil => simp [printParts]
  | cons p ps ih => rw [List.cons_append, printParts, printParts, ih, String.append_assoc]

/-- A segment is printed as its characters if its parameter is. -/
theorem print_segment_read
    (h : ∀ name p, splitSegment segment = (name, some p) →
      (Template.parse (String.ofList p)).print = String.ofList p) :
    (Segment.read segment).print = String.ofList segment := by
  unfold Segment.read
  obtain ⟨name, heq, rfl⟩ | ⟨name, p, heq, rfl⟩ := splitSegment_eq_append segment
  · rw [heq]
    rfl
  · have hp := h name p heq
    rw [heq]
    dsimp only
    rw [Segment.print, hp]
    apply String.toList_injective
    simp

/-- A tag is printed as the text between its brackets if its parameters are printed as theirs. -/
theorem intercalate_segments_read
    (h : ∀ segment ∈ rawSegments content, (Segment.read segment).print = String.ofList segment) :
    String.intercalate "." (printSegments ((rawSegments content).map Segment.read)) =
      String.ofList content := by
  have hmap : ((rawSegments content).map fun segment => (Segment.read segment).print.toList) =
      rawSegments content := by
    refine (List.map_congr_left fun segment hsegment => ?_).trans (List.map_id _)
    rw [h segment hsegment, String.toList_ofList, id]
  rw [printSegments_eq_map, List.map_map, ← String.toList_inj, String.toList_intercalate, List.map_map]
  exact (congrArg _ hmap).trans ((intercalate_rawSegments content).trans String.toList_ofList.symm)

/-- A part is printed as its characters if the parameters in it are printed as theirs. -/
theorem print_part_read {part : RawPart}
    (h : ∀ content, part = .tag content → ∀ segment ∈ rawSegments content, ∀ name p,
      splitSegment segment = (name, some p) →
        (Template.parse (String.ofList p)).print = String.ofList p) :
    (Part.read part).print = String.ofList part.chars := by
  cases part with
  | text t => rfl
  | tag content =>
    unfold Part.read Part.print
    rw [intercalate_segments_read fun segment hsegment => print_segment_read (h content rfl segment hsegment)]
    apply String.toList_injective
    simp [RawPart.chars]

theorem printParts_read {parts : List RawPart}
    (h : ∀ part ∈ parts, (Part.read part).print = String.ofList part.chars) :
    printParts (parts.map Part.read) = String.ofList (parts.flatMap RawPart.chars) := by
  induction parts with
  | nil => rfl
  | cons part parts ih =>
    rw [List.map_cons, printParts, h part List.mem_cons_self,
      ih fun p hp => h p (List.mem_cons_of_mem _ hp), List.flatMap_cons, String.ofList_append]

/-- The template of a text is printed as the text. -/
theorem Template.print_parse (s : String) : (Template.parse s).print = s := by
  induction hn : s.toList.length using Nat.strong_induction_on generalizing s with
  | _ n ih =>
    have hparts : ∀ part ∈ rawParts s.toList, (Part.read part).print = String.ofList part.chars := by
      intro part hpart
      refine print_part_read fun content htag segment hsegment name p hp => ih p.length ?_ _ (by simp)
      exact hn ▸ length_param_lt (htag ▸ hpart) hsegment hp
    rw [Template.parse_eq, Template.print, printParts_read hparts, flatMap_rawParts, String.ofList_toList]

/-- A part that was read is printed as its characters. -/
theorem Part.print_read (part : RawPart) : (Part.read part).print = String.ofList part.chars :=
  print_part_read fun _ _ _ _ _ _ _ => Template.print_parse _

/-! ## Every template inside a template -/

/-- A template is another one or a parameter somewhere inside it. -/
inductive Template.Within (t : Template) : Template → Prop where
  /-- The template itself. -/
  | self : t.Within t
  /-- Inside a parameter of a tag. -/
  | param {u p : Template} {content name : String} {segments : List Segment}
      (htag : .tag content segments ∈ u.parts) (hparam : .param name p ∈ segments) (h : t.Within p) : t.Within u

/-- A template says what its text says, and its parts are as they should be. -/
structure Template.Faithful (t : Template) : Prop where
  /-- The template is printed as its text. -/
  printed : t.print = t.source
  /-- No literal part is empty. -/
  nonempty : .text "" ∉ t.parts
  /-- No two literal parts are adjacent. -/
  apart : t.parts.IsChain fun p q => p.isTag = true ∨ q.isTag = true
  /-- A tag holds the text between its brackets, which are the ones that the scan for its end finds. -/
  bracketed : ∀ before content segments after, t.parts = before ++ .tag content segments :: after →
    t.source = printParts before ++ "<" ++ content ++ ">" ++ printParts after ∧
      tagAtStart ("<" ++ content ++ ">" ++ printParts after).toList =
        some (content.toList, (printParts after).toList)
  /-- No tag that opens inside a tag is left open there. -/
  closed : ∀ content segments, .tag content segments ∈ t.parts →
    ∀ rest, rest <:+ content.toList → opensTag rest = true → (tagAtStart rest).isSome = true
  /-- There is a tag exactly if one opens somewhere in the text and is closed. -/
  hasTag : t.hasTag = true ↔ ∃ rest, rest <:+ t.source.toList ∧ (tagAtStart rest).isSome = true
  /-- A parameter is shorter than the text it comes from. -/
  shorter : ∀ content segments, .tag content segments ∈ t.parts → ∀ name p, .param name p ∈ segments →
    p.source.length < t.source.length

theorem Template.source_parse (s : String) : (Template.parse s).source = s := by
  rw [Template.parse_eq, Template.source]

theorem Template.parts_parse (s : String) : (Template.parse s).parts = (rawParts s.toList).map Part.read := by
  rw [Template.parse_eq, Template.parts]

theorem isTag_read (part : RawPart) : (Part.read part).isTag = part.isTag := by
  cases part with
  | text t => rfl
  | tag content => rfl

/-- A tag among the parts was read from the text between its brackets. -/
theorem tag_of_read {part : RawPart} {content : String} {segments : List Segment}
    (h : Part.read part = .tag content segments) :
    part = .tag content.toList ∧ segments = (rawSegments content.toList).map Segment.read := by
  cases part with
  | text t => cases h
  | tag inside =>
    cases h
    rw [String.toList_ofList]
    exact ⟨rfl, rfl⟩

/-- A parameter of a tag is the template of a text that is shorter than the one of the tag. -/
theorem parse_of_param {content name : String} {segments : List Segment} {t : Template}
    (htag : .tag content segments ∈ (Template.parse s).parts) (hparam : .param name t ∈ segments) :
    t = Template.parse t.source ∧ t.source.length < s.length := by
  rw [Template.parts_parse] at htag
  obtain ⟨part, hpart, hread⟩ := List.mem_map.1 htag
  obtain ⟨rfl, rfl⟩ := tag_of_read hread
  obtain ⟨segment, hsegment, hread⟩ := List.mem_map.1 hparam
  unfold Segment.read at hread
  match hp : splitSegment segment with
  | (name, none) =>
    rw [hp] at hread
    cases hread
  | (name, some p) =>
    rw [hp] at hread
    cases hread
    rw [Template.source_parse]
    have hlength := length_param_lt hpart hsegment hp
    rw [String.length_toList] at hlength
    exact ⟨rfl, by simpa using hlength⟩

theorem Template.faithful_parse (s : String) : (Template.parse s).Faithful where
  printed := (Template.print_parse s).trans (Template.source_parse s).symm
  nonempty h := by
    rw [Template.parts_parse] at h
    obtain ⟨part, hpart, hread⟩ := List.mem_map.1 h
    cases part with
    | text t =>
      refine ne_nil_of_mem_rawPartsFrom hpart ?_
      rw [← String.toList_ofList (l := t), Part.text.inj hread]
      rfl
    | tag content => cases hread
  apart := by
    rw [Template.parts_parse, List.isChain_map]
    simp only [isTag_read]
    exact isChain_rawPartsFrom _ _ _
  bracketed before content segments after h := by
    have hprint := Template.print_parse s
    rw [Template.parse_eq, Template.print, ← Template.parts_parse, h, printParts_append, printParts] at hprint
    rw [Template.parts_parse] at h
    obtain ⟨before, rest, hraw, -, hrest⟩ := List.map_eq_append_iff.1 h
    obtain ⟨part, parts, rfl, hread, rfl⟩ := List.map_eq_cons_iff.1 hrest
    obtain ⟨rfl, rfl⟩ := tag_of_read hread
    have htag := tagAtStart_of_suffix (Nat.le_refl _) ⟨before, hraw.symm⟩
    refine ⟨?_, ?_⟩
    · rw [Template.source_parse, ← hprint, ← hread, Part.print_read]
      apply String.toList_injective
      simp [RawPart.chars]
    · rw [printParts_read fun part _ => Part.print_read part]
      simpa using htag
  closed content segments htag rest hrest hopens := by
    rw [Template.parts_parse] at htag
    obtain ⟨part, hpart, hread⟩ := List.mem_map.1 htag
    obtain ⟨rfl, -⟩ := tag_of_read hread
    obtain ⟨before, parts, heq⟩ := List.append_of_mem hpart
    have htag := tagAtStart_of_suffix (Nat.le_refl _) ⟨before, heq.symm⟩
    exact isSome_tagAtStart_of_suffix htag hrest hopens
  hasTag := by
    have hany : (Template.parse s).hasTag = (rawParts s.toList).any RawPart.isTag := by
      rw [Template.hasTag, Template.parts_parse, List.any_map]
      exact congrArg _ (funext isTag_read)
    rw [Template.source_parse, hany, List.any_eq_true]
    constructor
    · rintro ⟨part, hpart, htag⟩
      cases part with
      | text t => cases htag
      | tag content =>
        obtain ⟨before, parts, heq⟩ := List.append_of_mem hpart
        have htag := tagAtStart_of_suffix (Nat.le_refl _) ⟨before, heq.symm⟩
        refine ⟨_, ⟨before.flatMap RawPart.chars, ?_⟩, Option.isSome_iff_exists.2 ⟨_, htag⟩⟩
        have hs := flatMap_rawParts s.toList
        rw [heq] at hs
        simpa [RawPart.chars] using hs
    · rintro ⟨rest, hrest, htag⟩
      obtain ⟨content, hcontent⟩ := exists_tag_rawPartsFrom (Nat.le_refl _) hrest htag
      exact ⟨_, hcontent, rfl⟩
  shorter content segments htag name p hparam := by
    rw [Template.source_parse]
    exact (parse_of_param htag hparam).2

/-- Reading a text as a template loses nothing of it.  What holds of the template of a text holds of every
template inside it, since a parameter is the template of its own text. -/
theorem Template.parse_faithful (s : String) :
    (Template.parse s).source = s ∧
      ∀ t, t.Within (Template.parse s) → t = Template.parse t.source ∧ t.Faithful := by
  refine ⟨Template.source_parse s, fun t ht => ?_⟩
  have inside : t = Template.parse t.source := by
    generalize hu : Template.parse s = u at ht
    induction ht generalizing s with
    | self => rw [← hu, Template.source_parse]
    | param htag hparam _ ih =>
      subst hu
      exact ih _ (parse_of_param htag hparam).1.symm
  rw [inside]
  exact ⟨by rw [Template.source_parse], Template.faithful_parse t.source⟩

end QueueScript
