import QueueScript.Json5.Reader
import QueueScript.Proofs.Json.Quoted
import QueueScript.Proofs.Json.Spelling

/-!
# Spelled numbers are read alike

The reader of number literals and the reader of object literals are two grammars, and the second is
the larger one: it knows hexadecimal numbers, numbers that begin with their point and signed
infinities. On the spellings that numbers are written in, both read the same number.
-/

namespace QueueScript.Number

/-- No digit comes next. -/
def NoDigit (rest : List Char) : Prop :=
  ∀ c ∈ rest.head?, isDigit c = false

/-- A run of digits is taken whole. -/
theorem takeDigits_append {ds rest : List Char} (hd : IsDigits ds) (hr : NoDigit rest) :
    takeDigits (ds ++ rest) = (ds, rest) := by
  unfold takeDigits
  rw [List.takeWhile_append_of_pos hd, List.dropWhile_append_of_pos hd]
  cases rest with
  | nil => simp
  | cons c rest => simp [hr c rfl]

namespace Spelling

variable (s : Spelling)

theorem exists_whole : ∃ d ds, s.whole = d :: ds ∧ isDigit d = true := by
  obtain ⟨d, ds, h⟩ := List.exists_cons_of_ne_nil s.whole_ne_nil
  exact ⟨d, ds, h, s.whole_digits d (h ▸ List.mem_cons_self)⟩

/-- What a number is written with. -/
theorem mem_chars {c : Char} (h : c ∈ s.chars) : isDigit c = true ∨ c ∈ ['-', '.', 'e', '+'] := by
  simp only [chars, body, List.mem_append] at h
  rcases h with hsign | hwhole | hfraction | hexponent
  · right
    split at hsign <;> simp_all
  · exact .inl (s.whole_digits c hwhole)
  · cases hf : s.fraction with
    | none => simp [hf, fractionChars] at hfraction
    | some ds =>
      simp only [hf, fractionChars, List.mem_cons] at hfraction
      rcases hfraction with rfl | hc
      · simp
      · exact .inl (s.fraction_digits ds hf c hc)
  · cases he : s.exponent with
    | none => simp [he, exponentChars] at hexponent
    | some e =>
      simp only [he, exponentChars, List.mem_cons] at hexponent
      rcases hexponent with rfl | rfl | hc
      · simp
      · split <;> simp
      · exact .inl ((s.exponent_digits e he).1 c hc)

theorem not_mem_chars {c : Char} (h : (isDigit c || ['-', '.', 'e', '+'].contains c) = false) :
    c ∉ s.chars := by
  intro hc
  rcases s.mem_chars hc with hdigit | hmark
  · simp [hdigit] at h
  · simp_all

/-! ### Reading a literal -/

theorem not_blank {c : Char} (h : c ∈ s.chars) : Text.isBlank c = false := by
  rcases s.mem_chars h with hdigit | hmark
  · simp only [isDigit, Bool.and_eq_true, decide_eq_true_eq] at hdigit
    simp only [Text.isBlank, Text.inRanges, Text.blankRanges, List.any_cons, List.any_nil,
      Bool.or_false, Bool.or_eq_false_iff, Bool.and_eq_false_imp, decide_eq_true_eq,
      decide_eq_false_iff_not, not_le]
    omega
  · simp only [List.mem_cons, List.not_mem_nil, or_false] at hmark
    rcases hmark with rfl | rfl | rfl | rfl <;> rfl

theorem trimChars_chars : Text.trimChars s.chars = s.chars := by
  have keep {cs : List Char} (h : ∀ c ∈ cs, Text.isBlank c = false) :
      cs.dropWhile Text.isBlank = cs := by
    cases cs with
    | nil => rfl
    | cons c cs => simp [h c]
  rw [Text.trimChars, keep fun _ => s.not_blank,
    keep fun c hc => s.not_blank (List.mem_reverse.1 hc), List.reverse_reverse]

end Spelling

theorem noDigit_exponentChars (e : Option (Bool × List Char)) : NoDigit (exponentChars e) := by
  cases e with
  | none => simp [NoDigit, exponentChars]
  | some e => simp [NoDigit, exponentChars, isDigit]

theorem noDigit_fractionChars (f : Option (List Char)) (e : Option (Bool × List Char)) :
    NoDigit (fractionChars f ++ exponentChars e) := by
  cases f with
  | none => exact noDigit_exponentChars e
  | some ds => simp [NoDigit, fractionChars, isDigit]

/-- The scanner of numbers reads the sign. -/
theorem takeSign_chars (s : Spelling) : takeSign s.chars = (s.negative, s.body) := by
  obtain ⟨d, ds, hwhole, hd⟩ := s.exists_whole
  unfold Spelling.chars
  cases s.negative
  · rw [if_neg (by simp), List.nil_append, Spelling.body, hwhole, List.cons_append, takeSign.eq_def]
    split
    · next heq => exact absurd hd (by rw [(List.cons.inj heq).1]; decide)
    · next heq => exact absurd hd (by rw [(List.cons.inj heq).1]; decide)
    · rfl
  · rfl

/-- The scanner of numbers reads an exponent. -/
theorem takeExponent_exponentChars {e : Option (Bool × List Char)}
    (h : ∀ x ∈ e, IsDigits x.2 ∧ x.2 ≠ []) :
    takeExponent (exponentChars e) = (exponentValue e, []) := by
  cases e with
  | none => rfl
  | some e =>
    obtain ⟨hd, hne⟩ := h e rfl
    obtain ⟨negative, ds⟩ := e
    have htake : takeDigits ds = (ds, []) := by
      simpa using takeDigits_append hd (show NoDigit [] by simp [NoDigit])
    obtain ⟨d, ds, rfl⟩ := List.exists_cons_of_ne_nil hne
    cases negative <;> simp [takeExponent, exponentChars, exponentValue, takeSign, htake]

/-- The scanner of numbers reads the digits around the point. -/
theorem scanPlain_body (s : Spelling) :
    scanPlain s.body = some (s.whole, s.fraction.getD [], exponentChars s.exponent) := by
  obtain ⟨d, ds, hwhole, -⟩ := s.exists_whole
  have htake : takeDigits s.body = (d :: ds, fractionChars s.fraction ++ exponentChars s.exponent) := by
    rw [← hwhole]
    exact takeDigits_append s.whole_digits (noDigit_fractionChars _ _)
  have hexponent := noDigit_exponentChars s.exponent
  unfold scanPlain
  rw [htake, hwhole]
  cases hf : s.fraction with
  | none =>
    dsimp only [fractionChars, List.nil_append]
    split
    · simp_all
    · simp_all
    · next hpoint =>
      cases he : s.exponent with
      | none => simp [he, exponentChars] at hpoint
      | some e => simp [he, exponentChars] at hpoint
    · simp_all
  | some fs =>
    have hfs := takeDigits_append (s.fraction_digits fs hf) hexponent
    simp [fractionChars, hfs]

theorem ofDecimal?_chars (s : Spelling) : ofDecimal? s.chars = some s.value := by
  have hinfinity : s.body ≠ "Infinity".toList := by
    intro h
    refine s.not_mem_chars (c := 'I') rfl ?_
    rw [Spelling.chars, h]
    simp
  simp only [ofDecimal?, takeSign_chars, hinfinity, if_false, scanPlain_body,
    takeExponent_exponentChars s.exponent_digits]
  rfl

/-- A spelled number is read as the number it stands for. -/
theorem ofLiteral_spelled (s : Spelling) : ofLiteral (String.ofList s.chars) = s.value := by
  have absent {c : Char} {ds : List Char} (h : s.chars = '0' :: c :: ds) : c ∈ s.chars := by
    simp [h]
  unfold ofLiteral
  rw [String.toList_ofList, s.trimChars_chars]
  dsimp only
  split
  case h_1 h =>
    obtain ⟨d, ds, hwhole, -⟩ := s.exists_whole
    simp [Spelling.chars, Spelling.body, hwhole] at h
  case h_8 => rw [ofDecimal?_chars, Option.getD_some]
  all_goals
    next h => exact absurd (absent h) (s.not_mem_chars rfl)

end QueueScript.Number

namespace QueueScript.Json5

open Number

/-! ## Reading inside an object literal -/

/-- What may follow a value: the end, a comma or a closing bracket. -/
def Closes (rest : List Char) : Prop :=
  ∀ c ∈ rest.head?, c ∈ [',', ']', '}']

theorem Closes.ne {c : Char} {rest : List Char} (h : Closes (c :: rest)) {d : Char}
    (hd : d ∉ [',', ']', '}']) : c ≠ d := by
  rintro rfl
  exact hd (h c rfl)

theorem Closes.noDigit {rest : List Char} (h : Closes rest) : NoDigit rest := by
  intro c hc
  have := h c hc
  simp only [List.mem_cons, List.not_mem_nil, or_false] at this
  rcases this with rfl | rfl | rfl <;> rfl

theorem noDigit_exponent {rest : List Char} (e : Option (Bool × List Char)) (h : Closes rest) :
    NoDigit (exponentChars e ++ rest) := by
  cases e with
  | none => exact h.noDigit
  | some e => simp [NoDigit, exponentChars, isDigit]

/-- The reader reads an exponent. -/
theorem reads_exponent {e : Option (Bool × List Char)} {k : Cursor} {rest : List Char}
    (h : k.rest = exponentChars e ++ rest) (hdigits : ∀ x ∈ e, IsDigits x.2 ∧ x.2 ≠ [])
    (hrest : Closes rest) : Reads k.exponent (exponentValue e) rest := by
  cases e with
  | none =>
    obtain ⟨chars, line, column⟩ := k
    obtain rfl : chars = rest := by simpa [exponentChars] using h
    refine ⟨line, column, ?_⟩
    cases chars with
    | nil => rfl
    | cons c chars =>
      simp [Cursor.exponent, hrest.ne (d := 'e') (by decide), hrest.ne (d := 'E') (by decide),
        exponentValue]
  | some e =>
    obtain ⟨hd, hne⟩ := hdigits e rfl
    obtain ⟨negative, ds⟩ := e
    obtain ⟨d, ds, rfl⟩ := List.exists_cons_of_ne_nil hne
    have htake : takeDigits (d :: (ds ++ rest)) = (d :: ds, rest) :=
      takeDigits_append hd hrest.noDigit
    cases negative <;>
      simp [Reads, Cursor.exponent, h, exponentChars, exponentValue, Cursor.skip, htake]

/-- The reader reads what follows the digits of a number. -/
theorem reads_scaled {e : Option (Bool × List Char)} {k : Cursor} {rest : List Char}
    (whole fraction : List Char) (h : k.rest = exponentChars e ++ rest)
    (hdigits : ∀ x ∈ e, IsDigits x.2 ∧ x.2 ≠ []) (hrest : Closes rest) :
    Reads (k.scaled whole fraction)
      (ofScaled (digitsValue (whole ++ fraction)) (exponentValue e - fraction.length)) rest := by
  obtain ⟨line, column, hread⟩ := reads_exponent h hdigits hrest
  exact ⟨line, column, by rw [Cursor.scaled, hread]; rfl⟩

/-- The reader reads what follows the whole part of a number. -/
theorem reads_fraction (s : Spelling) {k : Cursor} {rest : List Char}
    (h : k.rest = fractionChars s.fraction ++ (exponentChars s.exponent ++ rest))
    (hrest : Closes rest) : Reads (k.fraction s.whole) s.size rest := by
  unfold Cursor.fraction Spelling.size
  cases hf : s.fraction with
  | none =>
    have hk : k.rest = exponentChars s.exponent ++ rest := by simpa [hf, fractionChars] using h
    split
    · next hpoint =>
      exfalso
      cases he : s.exponent with
      | none =>
        rw [hk, he] at hpoint
        exact absurd (hrest '.' (by simp_all [exponentChars])) (by decide)
      | some e => simp [hk, he, exponentChars] at hpoint
    · exact reads_scaled s.whole [] hk s.exponent_digits hrest
  | some fs =>
    have htake := takeDigits_append (s.fraction_digits fs hf) (noDigit_exponent s.exponent hrest)
    have hk : k.rest = '.' :: (fs ++ (exponentChars s.exponent ++ rest)) := by
      simpa [hf, fractionChars] using h
    simp only [hk, htake]
    refine reads_scaled s.whole fs ?_ s.exponent_digits hrest
    simp [Cursor.skip, hk, Nat.add_comm 1]

/-- What may follow the whole part of a number. -/
theorem head_fraction (s : Spelling) {rest : List Char} (hrest : Closes rest) {c : Char}
    (h : c ∈ (fractionChars s.fraction ++ (exponentChars s.exponent ++ rest)).head?) :
    c ∈ ['.', 'e', ',', ']', '}'] := by
  cases hf : s.fraction with
  | some ds =>
    obtain rfl : '.' = c := by simpa [hf, fractionChars] using h
    decide
  | none =>
    cases he : s.exponent with
    | some e =>
      obtain rfl : 'e' = c := by simpa [hf, he, fractionChars, exponentChars] using h
      decide
    | none =>
      have hc := hrest c (by simpa [hf, he, fractionChars, exponentChars] using h)
      simp only [List.mem_cons, List.not_mem_nil, or_false] at hc ⊢
      exact .inr (.inr hc)

/-- The reader reads a number without its sign. -/
theorem reads_unsigned (s : Spelling) {k : Cursor} {rest : List Char} (h : k.rest = s.body ++ rest)
    (hrest : Closes rest) : Reads k.unsigned s.size rest := by
  obtain ⟨d, ds, hwhole, hd⟩ := s.exists_whole
  have hk : k.rest =
      s.whole ++ (fractionChars s.fraction ++ (exponentChars s.exponent ++ rest)) := by
    simpa [Spelling.body] using h
  have hread : Reads ((k.skip s.whole.length).fraction s.whole) s.size rest :=
    reads_fraction s (by simp [Cursor.skip, hk]) hrest
  have hhead {c : Char} {cs : List Char} (hcs : k.rest = c :: cs) : c = d := by
    rw [hk, hwhole] at hcs
    exact (List.cons.inj hcs).1.symm
  unfold Cursor.unsigned
  split
  case h_1 hcs => exact absurd hd (by rw [← hhead hcs]; decide)
  case h_2 x cs hcs =>
    -- a whole part that begins with zero is zero alone, and no mark of a base follows it
    have hone : s.whole = ['0'] := s.lead (by rw [hwhole, ← hhead hcs]; rfl)
    have hx : x ∈ ['.', 'e', ',', ']', '}'] := by
      refine head_fraction s hrest (c := x) ?_
      rw [hk, hone, List.cons_append, List.nil_append] at hcs
      rw [(List.cons.inj hcs).2]
      rfl
    have hbase : ¬(x = 'x' ∨ x = 'X') := by
      rintro (rfl | rfl) <;> exact absurd hx (by decide)
    rw [if_neg hbase]
    simpa [hone] using hread
  case h_3 hcs => exact absurd hd (by rw [← hhead hcs]; decide)
  case h_4 hcs => exact absurd hd (by rw [← hhead hcs]; decide)
  case h_5 c cs _ _ _ _ hcs =>
    obtain rfl := hhead hcs
    have htake : (takeDigits k.rest).1 = s.whole := by
      rw [hk, takeDigits_append s.whole_digits]
      intro x hx
      have := head_fraction s hrest hx
      simp only [List.mem_cons, List.not_mem_nil, or_false] at this
      rcases this with rfl | rfl | rfl | rfl | rfl <;> rfl
    have hlead : (if c = '0' then ['0'] else s.whole) = s.whole := by
      split
      case isTrue hzero => exact (s.lead (by rw [hwhole, hzero]; rfl)).symm
      case isFalse => rfl
    rw [if_pos hd]
    simpa only [htake, hlead] using hread
  case h_6 hcs =>
    rw [hk, hwhole] at hcs
    cases hcs

end QueueScript.Json5
