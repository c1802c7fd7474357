import Mathlib.Data.List.TakeWhile
import QueueScript.Argument
import QueueScript.Proofs.Doubles
import QueueScript.Proofs.Json.Numbers

/-!
# Whole arguments

An argument is a whole number if it is a double without a fraction or a text of digits.  What commands
get is the number that its text starts with, so a double is written first and then read.  Below two to
the power of 53 nothing is lost on this way: the double is written with all its digits, and the digits
are read as the double that they stand for.
-/

namespace QueueScript

/-! ## The digits of small whole numbers -/

namespace Decimal

variable {k m num : Nat} {q : Int}

theorem lt_tenTo_digitCount (n : Nat) : n < tenTo (digitCount n) := by
  induction n using Nat.strongRecOn with
  | _ n ih =>
    rw [digitCount]
    split
    · next h => simp [h, tenTo]
    · have rest := ih (n / 10) (by omega)
      rw [tenTo_succ]
      omega

/-- Small whole numbers have at most sixteen digits. -/
theorem digitCount_le (hk : 0 < k) (h : k < 2 ^ 53) : digitCount k ≤ 16 := by
  by_contra hlt
  have low := tenTo_digitCount_le k hk
  have mono : tenTo 16 ≤ tenTo (digitCount k - 1) := tenTo_le (by omega)
  have size : 2 ^ 53 < tenTo 16 := by decide
  omega

theorem digitCount_pos (hk : 0 < k) : 0 < digitCount k := by
  rw [digitCount, if_neg (by omega)]
  exact Nat.succ_pos _

/-- The double `m · 2 ^ q` is the positive whole number `k`, and the next doubles are at most one away. -/
structure Whole (m : Nat) (q : Int) (k : Nat) : Prop where
  pos : 0 < k
  small : k < 2 ^ 53
  exponent : q ≤ 0
  mantissa : m = k * denominator q

namespace Whole

variable (h : Whole m q k)

include h

theorem parts : ∃ b, 0 < b ∧ b ≤ 2 ∧ b ≤ 4 * (k * denominator q) ∧
    interval m q = ⟨4 * (k * denominator q) - b, 4 * (k * denominator q), 4 * (k * denominator q) + 2,
      4 * denominator q, m % 2 == 0⟩ := by
  have one : twoTo q.toNat = 1 := by
    have hq := h.exponent
    have : q.toNat = 0 := by omega
    rw [this]
    rfl
  have hden : 0 < denominator q := Nat.pow_pos (by decide)
  have hpos : 0 < k * denominator q := Nat.mul_pos h.pos hden
  refine ⟨if m = twoTo 52 ∧ leastExponent < q then 1 else 2, by split <;> decide, by split <;> decide,
    by split <;> omega, ?_⟩
  unfold interval numerator
  rw [one, ← h.mantissa]
  simp only [Nat.mul_one]

/-- No other whole number reads as the double. -/
theorem contains_iff : (interval m q).contains num 1 = true ↔ num = k := by
  obtain ⟨b, hb, hb2, hbm, parts⟩ := h.parts
  have hden : 0 < denominator q := Nat.pow_pos (by decide)
  have near {x : Nat} (hlow : 4 * (k * denominator q) - b ≤ x * (4 * denominator q))
      (hhigh : x * (4 * denominator q) ≤ 4 * (k * denominator q) + 2) : x = k := by
    rcases Nat.lt_trichotomy x k with hlt | heq | hgt
    · have := Nat.mul_le_mul_right (denominator q) (Nat.succ_le_of_lt hlt)
      rw [Nat.succ_mul] at this
      have : x * (4 * denominator q) = 4 * (x * denominator q) := by ring
      omega
    · exact heq
    · have := Nat.mul_le_mul_right (denominator q) (Nat.succ_le_of_lt hgt)
      rw [Nat.succ_mul] at this
      have : x * (4 * denominator q) = 4 * (x * denominator q) := by ring
      omega
  have here : k * (4 * denominator q) = 4 * (k * denominator q) := by ring
  rw [parts]
  unfold Interval.contains
  simp only [Nat.mul_one]
  split
  · simp only [Bool.and_eq_true, decide_eq_true_eq]
    refine ⟨fun hx => near hx.1 hx.2, fun hx => ?_⟩
    subst hx
    omega
  · simp only [Bool.and_eq_true, decide_eq_true_eq]
    refine ⟨fun hx => near (Nat.le_of_lt hx.1) (Nat.le_of_lt hx.2), fun hx => ?_⟩
    subst hx
    omega

theorem pointOf_eq : pointOf (interval m q).mid (interval m q).den = digitCount k := by
  obtain ⟨b, -, -, -, parts⟩ := h.parts
  have hden : 0 < denominator q := Nat.pow_pos (by decide)
  have quotient : 4 * (k * denominator q) / (4 * denominator q) = k := by
    rw [← Nat.mul_assoc, Nat.mul_comm 4 k, Nat.mul_assoc]
    exact Nat.mul_div_cancel k (by omega)
  have reaches : 4 * denominator q ≤ 4 * (k * denominator q) :=
    Nat.mul_le_mul_left 4 (Nat.le_mul_of_pos_left _ h.pos)
  rw [parts]
  show pointOf (4 * (k * denominator q)) (4 * denominator q) = _
  rw [pointOf, if_pos reaches, quotient]

/-- A grid of whole numbers has the double for its candidate, or none. -/
theorem candidate_eq {count : Nat} (hc : count ≤ digitCount k) :
    candidate (interval m q) (digitCount k) count =
      if tenTo (digitCount k - count) ∣ k then
        some ⟨k / tenTo (digitCount k - count), count, digitCount k⟩
      else none := by
  obtain ⟨b, -, -, -, parts⟩ := h.parts
  let g := tenTo (digitCount k - count)
  have hg : 0 < g := tenTo_pos _
  have shift : ((digitCount k : Int) - count).toNat = digitCount k - count := by omega
  have unshift : (-((digitCount k : Int) - count)).toNat = 0 := by omega
  have hden : 0 < denominator q := Nat.pow_pos (by decide)
  have below : (interval m q).mid * 1 / ((interval m q).den * g) = k / g := by
    have mid : (interval m q).mid * 1 = 4 * denominator q * k := by
      rw [parts]
      show 4 * (k * denominator q) * 1 = _
      ring
    have den : (interval m q).den = 4 * denominator q := by rw [parts]
    rw [mid, den]
    exact Nat.mul_div_mul_left k g (by omega)
  have above : (interval m q).contains ((k / g + 1) * g) 1 = false := by
    rw [Bool.eq_false_iff]
    intro hx
    have := h.contains_iff.1 hx
    have := Nat.lt_div_mul_add (a := k) hg
    rw [Nat.add_mul, Nat.one_mul] at *
    omega
  have isGrid : ((interval m q).contains (k / g * g) 1 = true) ↔ g ∣ k := by
    rw [h.contains_iff]
    exact ⟨fun hx => ⟨k / g, by rw [Nat.mul_comm]; exact hx.symm⟩, fun hx => Nat.div_mul_cancel hx⟩
  have inside : k / g ≠ tenTo count := by
    refine Nat.ne_of_lt ((Nat.div_lt_iff_lt_mul hg).2 ?_)
    have split : tenTo count * g = tenTo (digitCount k) := by
      show 10 ^ count * 10 ^ (digitCount k - count) = 10 ^ digitCount k
      rw [← Nat.pow_add, Nat.add_sub_cancel' hc]
    rw [split]
    exact lt_tenTo_digitCount k
  unfold candidate
  simp only [shift, unshift]
  change (if (interval m q).contains ((interval m q).mid * 1 / ((interval m q).den * g) * g) 1 &&
      (interval m q).contains (((interval m q).mid * 1 / ((interval m q).den * g) + 1) * g) 1 then _
    else if (interval m q).contains ((interval m q).mid * 1 / ((interval m q).den * g) * g) 1 then
      some (gridPoint ((interval m q).mid * 1 / ((interval m q).den * g)) count (digitCount k))
    else if (interval m q).contains (((interval m q).mid * 1 / ((interval m q).den * g) + 1) * g) 1 then _
    else none) = if g ∣ k then some ⟨k / g, count, digitCount k⟩ else none
  rw [below, above, Bool.and_false, if_neg Bool.false_ne_true, if_neg Bool.false_ne_true, gridPoint,
    if_neg inside]
  exact if_congr isGrid rfl rfl

/-- A small whole number is written with its own digits, and zeros. -/
theorem shortest_eq : ∃ n count, count ≤ digitCount k ∧ n * tenTo (digitCount k - count) = k ∧
    shortest m q = ⟨n, count, digitCount k⟩ := by
  have found (fuel : Nat) : ∀ count, count ≤ digitCount k → digitCount k < count + fuel →
      ∃ n c, c ≤ digitCount k ∧ n * tenTo (digitCount k - c) = k ∧
        search (interval m q) (digitCount k) fuel count = ⟨n, c, digitCount k⟩ := by
    induction fuel with
    | zero => exact fun count hc hlt => absurd hlt (by omega)
    | succ fuel ih =>
      intro count hc hlt
      rw [search, h.candidate_eq hc]
      by_cases hd : tenTo (digitCount k - count) ∣ k
      · rw [if_pos hd]
        exact ⟨_, count, hc, Nat.div_mul_cancel hd, rfl⟩
      · rw [if_neg hd]
        -- The finest of these grids has every whole number on it.
        have hne : count ≠ digitCount k := by
          rintro rfl
          rw [Nat.sub_self] at hd
          exact hd (Nat.one_dvd k)
        exact ih (count + 1) (by omega) (by omega)
  have few := digitCount_le h.pos h.small
  have some := digitCount_pos h.pos
  show ∃ n count, count ≤ digitCount k ∧ n * tenTo (digitCount k - count) = k ∧
    search (interval m q) (pointOf (interval m q).mid (interval m q).den) 17 1 = ⟨n, count, digitCount k⟩
  rw [h.pointOf_eq]
  exact found 17 1 some (by omega)

end Whole

theorem Binary.bounds {x : Float} {negative : Bool} (h : Binary.ofFloat x = .finite negative m q) :
    m < 2 ^ 53 ∧ (0 < q → 2 ^ 52 ≤ m) := by
  have fraction : x.toBits.toNat % twoTo 52 < 2 ^ 52 := Nat.mod_lt _ (by decide)
  have lead : twoTo 52 = 2 ^ 52 := rfl
  simp only [Binary.ofFloat] at h
  split at h
  · split at h <;> cases h
  · split at h
    · cases h
      exact ⟨by omega, fun hq => absurd hq (by decide)⟩
    · cases h
      exact ⟨by omega, fun _ => by omega⟩

theorem whole_of_ofFloat {x : Float} {negative : Bool} (hx : Binary.ofFloat x = .finite negative m q)
    (hm : 0 < m) (hdvd : m % denominator q = 0) (hk : numerator m q / denominator q = k)
    (h : k < 2 ^ 53) : Whole m q k := by
  obtain ⟨-, large⟩ := Binary.bounds hx
  have exponent : q ≤ 0 := by
    by_contra hq
    have den : denominator q = 1 := by
      have : (-q).toNat = 0 := by omega
      unfold denominator
      rw [this]
      rfl
    have power : 2 ^ 1 ≤ twoTo q.toNat := Nat.pow_le_pow_right (by decide) (by omega)
    have := Nat.mul_le_mul (large (by omega)) power
    rw [den, Nat.div_one, numerator] at hk
    omega
  have num : numerator m q = m := by
    have : q.toNat = 0 := by omega
    unfold numerator
    rw [this]
    exact Nat.mul_one m
  have mantissa : m = k * denominator q := by
    rw [← hk, num]
    exact (Nat.div_mul_cancel (Nat.dvd_of_mod_eq_zero hdvd)).symm
  refine ⟨Nat.pos_of_ne_zero fun h0 => ?_, h, exponent, mantissa⟩
  rw [h0, Nat.zero_mul] at mantissa
  omega

end Decimal

/-! ## Reading whole numbers -/

namespace Number

open Decimal Doubles

variable {k : Nat} {s : String}

theorem digitsValue_append (a b : List Char) :
    digitsValue (a ++ b) = b.foldl (fun n c => n * 10 + (c.toNat - 0x30)) (digitsValue a) :=
  List.foldl_append

theorem digitsValue_toDigits (n : Nat) : digitsValue (Nat.toDigits 10 n) = n := by
  induction n using Nat.strongRecOn with
  | _ n ih =>
    have digit : ∀ d < 10, d.digitChar.toNat - 0x30 = d := by decide
    rw [Nat.toDigits_eq_if (by decide)]
    split
    · next h =>
      show 0 * 10 + (n.digitChar.toNat - 0x30) = n
      rw [digit n h, Nat.zero_mul, Nat.zero_add]
    · rw [digitsValue_append, ih (n / 10) (by omega)]
      show n / 10 * 10 + ((n % 10).digitChar.toNat - 0x30) = n
      rw [digit _ (by omega)]
      omega

theorem digitsValue_zeros (ds : List Char) (t : Nat) :
    digitsValue (ds ++ List.replicate t '0') = digitsValue ds * tenTo t := by
  induction t generalizing ds with
  | zero => simp [tenTo]
  | succ t ih =>
    have one : digitsValue (ds ++ ['0']) = digitsValue ds * 10 := digitsValue_append ds ['0']
    rw [List.replicate_succ, ← List.singleton_append, ← List.append_assoc, ih, one, tenTo_succ]
    ring

/-- The digits of a small whole number are read as that number. -/
theorem holds_ofScaled (h : k < 2 ^ 53) : Holds (ofScaled k 0) k := by
  unfold ofScaled
  split
  · next h0 =>
    subst h0
    exact Holds.zero
  · next h0 =>
    have few := digitCount_le (Nat.pos_of_ne_zero h0) h
    have large : ¬ 400 < (digitCount k : Int) + 0 := by omega
    have tiny : ¬ (digitCount k : Int) + 0 < -400 := by omega
    dsimp only
    rw [if_neg large, if_neg tiny, if_neg (by decide)]
    exact Holds.ofNat h

/-- The number that digits stand for with a sign. -/
def signed (negative : Bool) (n : Nat) : Int :=
  if negative then -n else n

theorem natAbs_signed (negative : Bool) (n : Nat) : (signed negative n).natAbs = n := by
  cases negative with
  | false => rfl
  | true => exact Int.natAbs_neg n

theorem holds_withSign (negative : Bool) (h : k < 2 ^ 53) :
    Holds (withSign negative (ofScaled k 0)) (signed negative k) := by
  cases negative with
  | false => exact holds_ofScaled h
  | true => exact Holds.neg (holds_ofScaled h) h

/-- The whole number that a text spells. -/
def wholeOf? (s : String) : Option Int :=
  if isWholeText s then
    let (negative, ds) := takeMinus (Text.trimChars s.toList)
    some (signed negative (digitsValue ds))
  else none

/-- Digits with a sign, between blanks, are read up to their end. -/
theorem leadingWhole_of_chars {negative : Bool} {ds tail : List Char} (hd : IsDigits ds) (hne : ds ≠ [])
    (htail : NoDigit tail)
    (h : s.toList.dropWhile Text.isBlank = (if negative then ['-'] else []) ++ ds ++ tail) :
    leadingWhole s = withSign negative (ofScaled (digitsValue ds) 0) := by
  obtain ⟨d, rest, rfl⟩ := List.exists_cons_of_ne_nil hne
  have first : isDigit d = true := hd d List.mem_cons_self
  have sign : takeSign ((if negative then ['-'] else []) ++ d :: rest ++ tail) =
      (negative, d :: rest ++ tail) := by
    cases negative with
    | true => rfl
    | false =>
      rw [if_neg Bool.false_ne_true, List.nil_append, List.cons_append, takeSign.eq_def]
      split
      · next heq => exact absurd first (by rw [(List.cons.inj heq).1]; decide)
      · next heq => exact absurd first (by rw [(List.cons.inj heq).1]; decide)
      · rfl
  unfold leadingWhole
  rw [h, sign]
  dsimp only
  rw [takeDigits_append hd htail]

/-- A text that spells a whole number is read as that number. -/
theorem leadingWhole_text {i : Int} (h : wholeOf? s = some i) (hi : i.natAbs < 2 ^ 53) :
    Holds (leadingWhole s) i := by
  unfold wholeOf? at h
  obtain ⟨hwhole, h⟩ := Option.ite_none_right_eq_some.1 h
  obtain ⟨tail, htail, hsplit⟩ : ∃ tail, (∀ c ∈ tail, Text.isBlank c = true) ∧
      s.toList.dropWhile Text.isBlank = Text.trimChars s.toList ++ tail := by
    let cs := s.toList.dropWhile Text.isBlank
    refine ⟨(cs.reverse.takeWhile Text.isBlank).reverse, fun c hc => ?_, ?_⟩
    · exact List.mem_takeWhile_imp (List.mem_reverse.1 hc)
    · show cs = (cs.reverse.dropWhile Text.isBlank).reverse ++ _
      rw [← List.reverse_append, List.takeWhile_append_dropWhile, List.reverse_reverse]
  have blank : NoDigit tail := by
    intro c hc
    have hb := htail c (List.mem_of_mem_head? hc)
    rw [Bool.eq_false_iff]
    intro hdigit
    simp only [isDigit, Bool.and_eq_true, decide_eq_true_eq] at hdigit
    simp only [Text.isBlank, Text.inRanges, Text.blankRanges, List.any_cons, List.any_nil, Bool.or_false,
      Bool.or_eq_true, Bool.and_eq_true, decide_eq_true_eq] at hb
    omega
  rcases hm : takeMinus (Text.trimChars s.toList) with ⟨negative, ds⟩
  rw [hm] at h
  have chars : Text.trimChars s.toList = (if negative then ['-'] else []) ++ ds := by
    revert hm
    generalize Text.trimChars s.toList = cs
    intro hm
    unfold takeMinus at hm
    split at hm <;> cases hm <;> rfl
  have all : IsDigits ds ∧ ds ≠ [] := by
    unfold isWholeText at hwhole
    rw [hm] at hwhole
    unfold takeDigits at hwhole
    have parts := List.takeWhile_append_dropWhile (p := isDigit) (l := ds)
    cases lead : ds.takeWhile isDigit with
    | nil =>
      rw [lead] at hwhole
      cases hwhole
    | cons c cs =>
      rw [lead] at hwhole parts
      rw [List.isEmpty_iff.1 hwhole, List.append_nil] at parts
      refine ⟨fun d hd => ?_, fun hnil => List.cons_ne_nil c cs (parts.trans hnil)⟩
      rw [← parts, ← lead] at hd
      exact List.mem_takeWhile_imp hd
  cases h
  rw [natAbs_signed] at hi
  rw [leadingWhole_of_chars all.1 all.2 blank (by rw [hsplit, chars])]
  exact holds_withSign negative hi

/-- The digits of a small whole number, with the zeros after them. -/
theorem formatDigits_whole {n count : Nat} (hk : 0 < k) (h : k < 2 ^ 53) (hc : count ≤ digitCount k) :
    (formatDigits format ⟨n, count, digitCount k⟩).toList =
      Nat.toDigits 10 n ++ List.replicate (digitCount k - count) '0' := by
  have few := digitCount_le hk h
  have some := digitCount_pos hk
  have positional : (0 : Int) < digitCount k ∧ (digitCount k : Int) ≤ format.mostWholeDigits := by
    show (0 : Int) < digitCount k ∧ (digitCount k : Int) ≤ (21 : Nat)
    omega
  unfold formatDigits
  dsimp only
  rw [if_pos positional, Int.toNat_natCast, if_pos hc]
  simp [zeros]

/-- A double that is a small whole number is read back from its text. -/
theorem leadingWhole_number {x : Float} {i : Int} (h : whole? x = some i) (hi : i.natAbs < 2 ^ 53) :
    Holds (leadingWhole (text x)) i := by
  unfold whole? at h
  split at h
  · next negative m q hx =>
    obtain ⟨hdvd, h⟩ := Option.ite_none_right_eq_some.1 h
    rw [← Int.natCast_div] at h
    obtain ⟨k, hk⟩ : ∃ k, numerator m q / denominator q = k := ⟨_, rfl⟩
    rw [hk] at h
    have hi' : i = signed negative k := (Option.some.inj h).symm
    rw [hi', natAbs_signed] at hi
    by_cases hm : m = 0
    · have h0 : k = 0 := by
        rw [← hk, hm, numerator, Nat.zero_mul, Nat.zero_div]
      have zero : text x = "0" := by
        unfold text
        rw [hx]
        exact if_pos hm
      have read : Holds (leadingWhole "0") 0 := holds_ofScaled (k := 0) (by decide)
      rw [zero, hi', h0]
      cases negative <;> exact read
    · have whole : Whole m q k := whole_of_ofFloat hx (Nat.pos_of_ne_zero hm) hdvd hk hi
      obtain ⟨n, count, hc, hn, digits⟩ := whole.shortest_eq
      have chars := formatDigits_whole (n := n) whole.pos hi hc
      have value : digitsValue (Nat.toDigits 10 n ++ List.replicate (digitCount k - count) '0') = k := by
        rw [digitsValue_zeros, digitsValue_toDigits, hn]
      have all : IsDigits (Nat.toDigits 10 n ++ List.replicate (digitCount k - count) '0') :=
        (isDigits_toDigits n).append (isDigits_replicate _)
      have finite : isFinite x = true := by
        unfold isFinite
        rw [hx]
      have written : (text x).toList = (if negative then ['-'] else []) ++
          (Nat.toDigits 10 n ++ List.replicate (digitCount k - count) '0') := by
        unfold text
        rw [hx]
        dsimp only
        rw [if_neg hm, digits, String.toList_append, chars]
        cases negative <;> rfl
      have unblank : (text x).toList.dropWhile Text.isBlank = (text x).toList := by
        obtain ⟨s, hs⟩ := text_spelled finite
        rw [← hs, List.dropWhile_eq_self_iff]
        exact fun hl => Bool.eq_false_iff.1 (s.not_blank (List.getElem_mem hl))
      have read : leadingWhole (text x) = withSign negative (ofScaled (digitsValue
          (Nat.toDigits 10 n ++ List.replicate (digitCount k - count) '0')) 0) :=
        leadingWhole_of_chars all (by simp [Nat.toDigits_ne_nil])
          (show NoDigit [] by simp [NoDigit]) (by rw [unblank, written, List.append_nil])
      rw [read, value, hi']
      exact holds_withSign negative hi
  · cases h

end Number

/-! ## Arguments -/

namespace Argument

variable {a : Argument} {i : Int}

/-- The whole number that an argument is. -/
def whole? (a : Argument) : Option Int :=
  match a.object with
  | .num x => Doubles.whole? x
  | _ => Number.wholeOf? a.raw

/-- If the argument is a number, its text is that of the number. -/
def IsShown (a : Argument) : Prop :=
  ∀ x, a.object = .num x → a.raw = Number.text x

theorem isWhole_of_whole? (h : a.whole? = some i) : a.isWhole = true := by
  unfold whole? at h
  unfold isWhole
  split
  · next x hx =>
    rw [hx] at h
    dsimp only at h
    unfold Doubles.whole? at h
    split at h
    · next hb =>
        obtain ⟨hdvd, -⟩ := Option.ite_none_right_eq_some.1 h
        unfold Number.isWhole
        rw [hb]
        simp [hdvd]
    · cases h
  · next hne =>
    split at h
    · next x hx => exact absurd hx (hne x)
    · exact (Option.ite_none_right_eq_some.1 h).1

/-- A small whole number is what commands get. -/
theorem asWhole_of_whole? (hs : a.IsShown) (h : a.whole? = some i) (hi : i.natAbs < 2 ^ 53) :
    ∃ v, a.asWhole = .ok v ∧ Doubles.Holds v i := by
  refine ⟨Number.leadingWhole a.raw, if_pos (isWhole_of_whole? h), ?_⟩
  unfold whole? at h
  split at h
  · next x hx =>
    rw [hs x hx]
    exact Number.leadingWhole_number h hi
  · exact Number.leadingWhole_text h hi

end Argument

end QueueScript
