import QueueScript.Number
import Mathlib.Algebra.Order.Ring.Nat
import Mathlib.Data.List.Basic
import Mathlib.Tactic.Ring

/-!
# The spelling of finite numbers

A finite number is written as JSON asks for it: a sign, a whole part without leading zeros, a
fraction and an exponent. The only part of this that is not on the face of the format is the first
digit, which is not zero because the coarsest grid that has a point near a positive double has one
that is not zero.
-/

namespace QueueScript.Decimal

/-! ## The digits of a positive double -/

theorem tenTo_pos (n : Nat) : 0 < tenTo n :=
  Nat.pow_pos (by decide)

theorem tenTo_succ (n : Nat) : tenTo (n + 1) = tenTo n * 10 :=
  Nat.pow_succ 10 n

theorem tenTo_le {a b : Nat} (h : a ≤ b) : tenTo a ≤ tenTo b :=
  Nat.pow_le_pow_right (by decide) h

/-- Three binary places are less than one decimal place. -/
theorem twoTo_le_tenTo {k n : Nat} (h : k ≤ 3 * n) : twoTo k ≤ tenTo n :=
  calc (2 ^ k : Nat) ≤ 2 ^ (3 * n) := Nat.pow_le_pow_right (by decide) h
    _ = (2 ^ 3) ^ n := Nat.pow_mul 2 3 n
    _ ≤ 10 ^ n := Nat.pow_le_pow_left (by decide) n

/-- The fraction `num / den` is at least `10 ^ p`. -/
def Reaches (num den : Nat) (p : Int) : Prop :=
  den * tenTo p.toNat ≤ num * tenTo (-p).toNat

theorem Reaches.mono {num den : Nat} {p p' : Int} (h : Reaches num den p) (hle : p' ≤ p) :
    Reaches num den p' := by
  unfold Reaches at h ⊢
  calc den * tenTo p'.toNat ≤ den * tenTo p.toNat := Nat.mul_le_mul_left _ (tenTo_le (by omega))
    _ ≤ num * tenTo (-p).toNat := h
    _ ≤ num * tenTo (-p').toNat := Nat.mul_le_mul_left _ (tenTo_le (by omega))

/-- A number has no more digits than its size asks for. -/
theorem tenTo_digitCount_le (n : Nat) (h : 0 < n) : tenTo (digitCount n - 1) ≤ n := by
  induction n using Nat.strongRecOn with
  | _ n ih =>
    rw [digitCount, if_neg (by omega), Nat.add_sub_cancel]
    rcases Nat.eq_zero_or_pos (n / 10) with hzero | hpos
    · rw [hzero, digitCount, if_pos rfl]
      exact h
    · have hdigits : 0 < digitCount (n / 10) := by
        rw [digitCount, if_neg (by omega)]
        omega
      have hrest := ih (n / 10) (by omega) hpos
      calc tenTo (digitCount (n / 10)) = tenTo (digitCount (n / 10) - 1) * 10 := by
            rw [← tenTo_succ, Nat.sub_add_cancel hdigits]
        _ ≤ n / 10 * 10 := Nat.mul_le_mul_right _ hrest
        _ ≤ n := Nat.div_mul_le_self n 10

/-- Enough zeros are counted, if there is fuel for them. -/
theorem le_leadingZeros {den : Nat} (fuel num : Nat) (h : den ≤ num * tenTo fuel) :
    den ≤ num * tenTo (leadingZeros den fuel num) := by
  induction fuel generalizing num with
  | zero => simpa [leadingZeros] using h
  | succ fuel ih =>
    rw [leadingZeros]
    split
    case isTrue hle => simpa [tenTo] using hle
    case isFalse =>
      have hten (k : Nat) : num * tenTo (k + 1) = num * 10 * tenTo k := by
        rw [tenTo_succ]
        ring
      rw [hten] at h ⊢
      exact ih (num * 10) h

/-- The point of a fraction stands no further to the right than its size asks for. -/
theorem pointOf_reaches {num den : Nat} (hden : 0 < den) (h : den ≤ num * tenTo 400) :
    Reaches num den (pointOf num den - 1) := by
  unfold pointOf
  split
  case isTrue hle =>
    have hpos : 0 < num / den := Nat.div_pos hle hden
    have hcount := tenTo_digitCount_le _ hpos
    have hwhole : ((digitCount (num / den) : Int) - 1).toNat = digitCount (num / den) - 1 := by omega
    unfold Reaches
    calc den * tenTo ((digitCount (num / den) : Int) - 1).toNat ≤ den * (num / den) := by
          rw [hwhole]
          exact Nat.mul_le_mul_left _ hcount
      _ ≤ num := Nat.mul_div_le num den
      _ ≤ num * _ := Nat.le_mul_of_pos_right _ (tenTo_pos _)
  case isFalse =>
    have hzeros := le_leadingZeros 400 num h
    have hnone : (1 - (leadingZeros den 400 num : Int) - 1).toNat = 0 := by omega
    have hall : (-(1 - (leadingZeros den 400 num : Int) - 1)).toNat = leadingZeros den 400 num := by
      omega
    unfold Reaches
    rw [hnone, hall]
    simpa [tenTo] using hzeros

theorem gridPoint_pos {n : Nat} (count : Nat) (point : Int) (h : 0 < n) :
    0 < (gridPoint n count point).digits := by
  unfold gridPoint
  split
  · exact tenTo_pos _
  · exact h

/-- The candidate of a grid that is fine enough has a digit other than zero. -/
theorem candidate_pos {i : Interval} {point : Int} {count : Nat} {d : Digits} (hden : 0 < i.den)
    (hreach : Reaches i.mid i.den (point - count)) (h : candidate i point count = some d) :
    0 < d.digits := by
  have hbelow : 0 < i.mid * tenTo (-(point - count)).toNat / (i.den * tenTo (point - count).toNat) :=
    Nat.div_pos hreach (Nat.mul_pos hden (tenTo_pos _))
  simp only [candidate] at h
  split at h
  · obtain rfl := Option.some.inj h
    refine gridPoint_pos _ _ ?_
    split <;> omega
  · split at h
    · obtain rfl := Option.some.inj h
      exact gridPoint_pos _ _ hbelow
    · split at h
      · obtain rfl := Option.some.inj h
        exact gridPoint_pos _ _ (Nat.succ_pos _)
      · cases h

/-- The search for the coarsest grid ends at digits that are not all zero. -/
theorem search_pos {i : Interval} {point : Int} (hden : 0 < i.den)
    (hreach : Reaches i.mid i.den (point - 1)) (fuel count : Nat) (hcount : 0 < count) :
    0 < (search i point fuel count).digits := by
  induction fuel generalizing count with
  | zero =>
    have hfine := hreach.mono (show point - count ≤ point - 1 by omega)
    refine Nat.div_pos ?_ hden
    calc i.den ≤ i.den * tenTo (point - count).toNat := Nat.le_mul_of_pos_right _ (tenTo_pos _)
      _ ≤ i.mid * tenTo (-(point - count)).toNat := hfine
      _ = i.mid * tenTo (count - point).toNat := by rw [Int.neg_sub]
  | succ fuel ih =>
    rw [search]
    split
    · next d hd => exact candidate_pos hden (hreach.mono (by omega)) hd
    · exact ih (count + 1) (Nat.succ_pos _)

/-- A positive double has a digit other than zero. -/
theorem shortest_pos {m : Nat} {q : Int} (hm : 0 < m) (hq : leastExponent ≤ q) :
    0 < (shortest m q).digits := by
  have hden : 0 < (interval m q).den := Nat.mul_pos (by decide) (Nat.pow_pos (by decide))
  have hmid : 4 ≤ (interval m q).mid :=
    calc 4 ≤ 4 * m := Nat.le_mul_of_pos_right _ hm
      _ ≤ 4 * m * twoTo q.toNat := Nat.le_mul_of_pos_right _ (Nat.pow_pos (by decide))
  have hexponent : (-q).toNat ≤ 3 * 400 := by
    unfold leastExponent at hq
    omega
  have hsmall : (interval m q).den ≤ (interval m q).mid * tenTo 400 :=
    calc 4 * twoTo (-q).toNat ≤ 4 * tenTo 400 :=
          Nat.mul_le_mul_left _ (twoTo_le_tenTo hexponent)
      _ ≤ (interval m q).mid * tenTo 400 := Nat.mul_le_mul_right _ hmid
  exact search_pos hden (pointOf_reaches hden hsmall) 17 1 Nat.one_pos

/-- No double is finer than the smallest ones. -/
theorem Binary.leastExponent_le {x : Float} {negative : Bool} {m : Nat} {q : Int}
    (h : Binary.ofFloat x = .finite negative m q) : leastExponent ≤ q := by
  simp only [Binary.ofFloat] at h
  unfold leastExponent at *
  split at h
  · split at h <;> cases h
  · split at h <;> cases h <;> omega

end QueueScript.Decimal

namespace QueueScript.Number

open Decimal

/-! ## Spellings -/

/-- A run of decimal digits. -/
def IsDigits (ds : List Char) : Prop :=
  ∀ c ∈ ds, isDigit c = true

/-- A number as it is written. A whole part that begins with zero is zero alone, and a point may have
nothing after it. -/
structure Spelling where
  /-- Whether a minus sign comes first. -/
  negative : Bool
  /-- The digits before the point. -/
  whole : List Char
  /-- The digits after the point, if there is a point. -/
  fraction : Option (List Char)
  /-- The sign and the digits of the exponent, if there is one. -/
  exponent : Option (Bool × List Char)
  whole_digits : IsDigits whole
  whole_ne_nil : whole ≠ []
  lead : whole.head? = some '0' → whole = ['0']
  fraction_digits : ∀ ds ∈ fraction, IsDigits ds
  exponent_digits : ∀ e ∈ exponent, IsDigits e.2 ∧ e.2 ≠ []

/-- A fraction with its point. -/
def fractionChars : Option (List Char) → List Char
  | none => []
  | some ds => '.' :: ds

/-- An exponent with its mark and its sign. -/
def exponentChars : Option (Bool × List Char) → List Char
  | none => []
  | some (negative, ds) => 'e' :: (if negative then '-' else '+') :: ds

/-- The number that an exponent stands for. -/
def exponentValue : Option (Bool × List Char) → Int
  | none => 0
  | some (negative, ds) => if negative then -(digitsValue ds : Int) else digitsValue ds

namespace Spelling

/-- The number without its sign. -/
def body (s : Spelling) : List Char :=
  s.whole ++ (fractionChars s.fraction ++ exponentChars s.exponent)

/-- The number with its sign. -/
def chars (s : Spelling) : List Char :=
  (if s.negative then ['-'] else []) ++ s.body

/-- The number that the spelling stands for, its sign aside. -/
def size (s : Spelling) : Float :=
  ofScaled (digitsValue (s.whole ++ s.fraction.getD []))
    (exponentValue s.exponent - (s.fraction.getD []).length)

/-- The number that the spelling stands for. -/
def value (s : Spelling) : Float :=
  withSign s.negative s.size

end Spelling

/-! ### Writing -/

theorem isDigit_of_isDigit {c : Char} (h : c.isDigit = true) : isDigit c = true := by
  simp only [Char.isDigit, Bool.and_eq_true, decide_eq_true_eq] at h
  simp only [isDigit, Bool.and_eq_true, decide_eq_true_eq]
  exact h

theorem isDigits_toDigits (n : Nat) : IsDigits (Nat.toDigits 10 n) := fun _ hc =>
  isDigit_of_isDigit (Nat.isDigit_of_mem_toDigits (by decide) (by decide) hc)

theorem isDigits_replicate (n : Nat) : IsDigits (List.replicate n '0') := fun _ hc =>
  (List.eq_of_mem_replicate hc) ▸ rfl

theorem IsDigits.append {a b : List Char} (ha : IsDigits a) (hb : IsDigits b) : IsDigits (a ++ b) :=
  fun c hc => (List.mem_append.1 hc).elim (ha c) (hb c)

theorem IsDigits.take {ds : List Char} (h : IsDigits ds) (n : Nat) : IsDigits (ds.take n) :=
  fun c hc => h c (List.mem_of_mem_take hc)

theorem IsDigits.drop {ds : List Char} (h : IsDigits ds) (n : Nat) : IsDigits (ds.drop n) :=
  fun c hc => h c (List.mem_of_mem_drop hc)

/-- A positive number is written without leading zeros. -/
theorem head?_toDigits (n : Nat) (h : 0 < n) : (Nat.toDigits 10 n).head? ≠ some '0' := by
  induction n using Nat.strongRecOn with
  | _ n ih =>
    rw [Nat.toDigits_eq_if (by decide)]
    split
    · have digit : ∀ d < 10, 0 < d → d.digitChar ≠ '0' := by decide
      simpa using digit n (by omega) h
    · rw [List.head?_append_of_ne_nil _ Nat.toDigits_ne_nil]
      exact ih (n / 10) (by omega) (by omega)

/-- Digits that are not all zero are written as a number. -/
theorem formatDigits_spelled (negative : Bool) (d : Digits) (h : 0 < d.digits) :
    ∃ s : Spelling, s.negative = negative ∧ s.body = (formatDigits format d).toList := by
  have hdigits := isDigits_toDigits d.digits
  have hhead := head?_toDigits d.digits h
  have hne : Nat.toDigits 10 d.digits ≠ [] := Nat.toDigits_ne_nil
  unfold formatDigits
  split
  · next hpoint =>
    dsimp only
    split
    · -- zeros fill up the places before the point
      refine ⟨⟨negative, Nat.toDigits 10 d.digits ++
        List.replicate (d.point.toNat - d.count) '0', none, none,
        hdigits.append (isDigits_replicate _), by simp [hne], fun hzero => absurd ?_ hhead,
        by simp, by simp⟩, rfl, by simp [Spelling.body, fractionChars, exponentChars, zeros]⟩
      rwa [List.head?_append_of_ne_nil _ hne] at hzero
    · -- the point stands among the digits
      have hwhole : 0 < d.point.toNat := by omega
      refine ⟨⟨negative, (Nat.toDigits 10 d.digits).take d.point.toNat,
        some ((Nat.toDigits 10 d.digits).drop d.point.toNat), none, hdigits.take _,
        by simp [hne]; omega, fun hzero => absurd ?_ hhead, by simpa using hdigits.drop _,
        by simp⟩, rfl, by simp [Spelling.body, fractionChars, exponentChars]⟩
      rwa [List.head?_take, if_neg (by omega)] at hzero
  · split
    · exact ⟨⟨negative, ['0'], some (List.replicate (-d.point).toNat '0' ++
        Nat.toDigits 10 d.digits), none, by simp [IsDigits, isDigit], by simp, fun _ => rfl,
        by simpa using (isDigits_replicate _).append hdigits, by simp⟩, rfl,
        by simp [Spelling.body, fractionChars, exponentChars, zeros]⟩
    · have hzero : ((Nat.toDigits 10 d.digits).take 1).head? ≠ some '0' := by
        rwa [List.head?_take, if_neg (by decide)]
      refine ⟨⟨negative, (Nat.toDigits 10 d.digits).take 1,
        if d.count ≤ 1 then none else some ((Nat.toDigits 10 d.digits).drop 1),
        some (decide (d.point - 1 < 0), Nat.toDigits 10 (d.point - 1).natAbs), hdigits.take 1,
        by simp [hne], fun h => absurd h hzero, ?_, ?_⟩, rfl, ?_⟩
      · split
        · simp
        · simpa using hdigits.drop 1
      · intro e he
        obtain rfl := Option.mem_some.1 he
        exact ⟨isDigits_toDigits _, Nat.toDigits_ne_nil⟩
      · by_cases hcount : d.count ≤ 1 <;> by_cases hsign : d.point - 1 < 0 <;>
          simp only [Spelling.body, fractionChars, exponentChars, natText, format, hcount, hsign,
            if_true, if_false, decide_true, decide_false, String.toList_append,
            String.toList_ofList] <;> simp

/-- A finite number is written as a sign, a whole part without leading zeros, a fraction and an
exponent. -/
theorem text_spelled {x : Float} (h : isFinite x = true) :
    ∃ s : Spelling, s.chars = (text x).toList := by
  unfold isFinite at h
  unfold text
  split at h
  · next negative m q hx =>
    rw [hx]
    dsimp only
    split
    · exact ⟨⟨false, ['0'], none, none, by simp [IsDigits, isDigit], by simp, fun _ => rfl, by simp,
        by simp⟩, rfl⟩
    · next hm =>
      have hpos := shortest_pos (Nat.pos_of_ne_zero hm) (Binary.leastExponent_le hx)
      obtain ⟨s, hsign, hbody⟩ := formatDigits_spelled negative (shortest m q) hpos
      refine ⟨s, ?_⟩
      rw [Spelling.chars, hsign, hbody]
      cases negative <;> simp
  · cases h

end QueueScript.Number
