import QueueScript.Number
import Mathlib.Tactic.Ring

/-!
# Whole numbers as doubles

Doubles count exactly below two to the power of 53: a whole number in this range is one double, two
for zero, and sums, differences and comparisons of such doubles are those of the whole numbers.  A
loop counts with doubles, so this is what makes it run as often as it was asked to.
-/

namespace QueueScript.Doubles

open Float.Model Float.Model.UnpackedFloat

/-! ## Exact forms -/

/-- The form that a positive whole number with a sign takes as a double: a mantissa of 53 bits. -/
def exactForm (s : Sign) (k : Nat) (hk : 0 < k) : UnpackedFloat :=
  .finite s (k * 2 ^ (52 - k.log2)) (k.log2 - 52) (Nat.mul_pos hk (Nat.two_pow_pos _))

/-- The form that a whole number takes as a double. -/
def form (i : Int) : UnpackedFloat :=
  if h : i = 0 then .zero .positive
  else exactForm (if i < 0 then .negative else .positive) i.natAbs (Int.natAbs_pos.2 h)

/-- The form of a number with a sign. -/
theorem form_apply (s : Sign) {k : Nat} (hk : 0 < k) : form (s.apply k) = exactForm s k hk := by
  unfold form
  cases s with
  | negative =>
    rw [dif_neg (by simp [Sign.apply]; omega)]
    simp [Sign.apply, hk]
  | positive =>
    rw [dif_neg (by simp [Sign.apply]; omega)]
    simp [Sign.apply, Int.not_lt.2 (Int.natCast_nonneg k)]

/-- A sign does not change the size of a number. -/
theorem natAbs_apply (s : Sign) (k : Nat) : (s.apply k).natAbs = k := by
  cases s with
  | negative => exact Int.natAbs_neg k
  | positive => rfl

/-- Forms with the same parts are the same. -/
theorem finite_congr {s s' : Sign} {m m' : Nat} {e e' : Int} {h : 0 < m} (hs : s = s') (hm : m = m')
    (he : e = e') : UnpackedFloat.finite s m e h = .finite s' m' e' (hm ▸ h) := by
  subst hs
  subst hm
  subst he
  rfl

/-- Shifting a number adds to its length. -/
theorem log2_mul_two_pow {k : Nat} (hk : 0 < k) (t : Nat) : (k * 2 ^ t).log2 = k.log2 + t := by
  have hne : k ≠ 0 := Nat.pos_iff_ne_zero.1 hk
  have hlow := Nat.log2_self_le hne
  have hhigh := Nat.lt_log2_self (n := k)
  refine (Nat.log2_eq_iff (Nat.mul_ne_zero hne (Nat.two_pow_pos t).ne')).2 ⟨?_, ?_⟩
  · rw [Nat.pow_add]
    exact Nat.mul_le_mul_right _ hlow
  · rw [Nat.add_right_comm, Nat.pow_add]
    exact Nat.mul_lt_mul_of_pos_right hhigh (Nat.two_pow_pos t)

/-- Numbers below `2 ^ 53` have at most 53 binary digits. -/
theorem log2_le_52 {k : Nat} (hk : 0 < k) (h : k < 2 ^ 53) : k.log2 ≤ 52 :=
  Nat.le_of_lt_succ ((Nat.log2_lt (Nat.pos_iff_ne_zero.1 hk)).2 h)

/-! ## Rounding -/

/-- Zeros at the end are shifted out without a trace. -/
theorem shiftRight_zeros (m t : Nat) :
    (⟨m * 2 ^ t, false, false⟩ : ExtendedMantissa) >>> t = ⟨m, false, false⟩ := by
  show Nat.repeat ExtendedMantissa.shiftRightOne t ⟨m * 2 ^ t, false, false⟩ = _
  induction t generalizing m with
  | zero => simp [Nat.repeat]
  | succ t ih =>
    have hm : m * 2 ^ (t + 1) = m * 2 * 2 ^ t := by
      rw [Nat.pow_succ, Nat.mul_comm (2 ^ t) 2, Nat.mul_assoc]
    rw [Nat.repeat, hm, ih]
    simp [ExtendedMantissa.shiftRightOne]

/-- The exponent of a whole number in its exact form. -/
theorem targetExponent_whole {k : Nat} (hk : 0 < k) (t : Nat) :
    Format.binary64.targetExponent (totalExponent (k * 2 ^ t) (-t)) = k.log2 - 52 := by
  have hm : Format.binary64.mantissaBits = 53 := rfl
  have he : Format.binary64.minExponent = -1074 := by decide
  simp only [Format.targetExponent, totalExponent, log2_mul_two_pow hk, hm, he]
  omega

/-- A whole number that fits is rounded to itself, however it is shifted. -/
theorem roundWithAccuracy_whole (s : Sign) {k : Nat} (hk : 0 < k) (h : k < 2 ^ 53) {t : Nat}
    (ht : 52 ≤ k.log2 + t) :
    roundWithAccuracy Format.binary64 s (k * 2 ^ t) (-t) .exact = exactForm s k hk := by
  have hlog := log2_le_52 hk h
  let d := 52 - k.log2
  have shift {t : Nat} (ht : 52 ≤ k.log2 + t) :
      shiftToTargetExponent Format.binary64 (k * 2 ^ t) (-t) .exact =
        (⟨k * 2 ^ d, false, false⟩, (k.log2 : Int) - 52) := by
    have hsplit : k * 2 ^ t = k * 2 ^ d * 2 ^ (t - d) := by
      rw [Nat.mul_assoc, ← Nat.pow_add]
      congr 2
      omega
    have hamount : ((k.log2 : Int) - 52 - -(t : Int)).toNat = t - d := by omega
    unfold shiftToTargetExponent shiftToExponent
    rw [targetExponent_whole hk t]
    simp only [hamount, ExtendedMantissa.ofMantissaAndAccuracy]
    rw [hsplit, shiftRight_zeros]
    congr 1
    omega
  have hagain := shift (t := d) (by omega)
  have hd : -(d : Int) = (k.log2 : Int) - 52 := by omega
  rw [hd] at hagain
  have hne : k * 2 ^ d ≠ 0 := (Nat.mul_pos hk (Nat.two_pow_pos d)).ne'
  have rounded : (⟨k * 2 ^ d, false, false⟩ : ExtendedMantissa).roundedMantissa = k * 2 ^ d := rfl
  unfold roundWithAccuracy
  rw [shift ht]
  dsimp only
  rw [rounded, hagain]
  exact dif_neg hne

/-- A whole number that fits is rounded to itself. -/
theorem round_whole (s : Sign) {k : Nat} (hk : 0 < k) (h : k < 2 ^ 53) (t : Nat) :
    UnpackedFloat.round Format.binary64 s (k * 2 ^ t) (-t) = exactForm s k hk := by
  have hlog := log2_le_52 hk h
  unfold UnpackedFloat.round
  rw [targetExponent_whole hk t]
  simp only [decreaseExponent]
  by_cases ht : 52 ≤ k.log2 + t
  · have hamount : (-(t : Int) - ((k.log2 : Int) - 52)).toNat = 0 := by omega
    simp only [hamount, Nat.shiftLeft_zero, Int.sub_zero, Nat.cast_zero]
    exact roundWithAccuracy_whole s hk h ht
  · have hamount : (-(t : Int) - ((k.log2 : Int) - 52)).toNat = 52 - k.log2 - t := by omega
    have hm : (k * 2 ^ t) <<< (52 - k.log2 - t) = k * 2 ^ (52 - k.log2) := by
      rw [Nat.shiftLeft_eq, Nat.mul_assoc, ← Nat.pow_add]
      congr 2
      omega
    have he : -(t : Int) - ((52 - k.log2 - t : Nat) : Int) = -((52 - k.log2 : Nat) : Int) := by omega
    simp only [hamount, hm, he]
    exact roundWithAccuracy_whole s hk h (by omega)

/-- A whole number that fits is normalized to its form. -/
theorem normalize_whole {i : Int} (h : i.natAbs < 2 ^ 53) (t : Nat) :
    UnpackedFloat.normalize Format.binary64 (i * 2 ^ t) (-t) .positive = form i := by
  have hpow : (0 : Int) < 2 ^ t := Int.pow_pos (by decide)
  unfold UnpackedFloat.normalize form
  rcases Int.lt_trichotomy i 0 with hi | rfl | hi
  · have hlt : i * 2 ^ t < 0 := Int.mul_neg_of_neg_of_pos hi hpow
    have hm : (-(i * 2 ^ t)).toNat = i.natAbs * 2 ^ t := by
      have : -(i * 2 ^ t) = ((i.natAbs * 2 ^ t : Nat) : Int) := by
        push_cast
        rw [abs_of_neg hi, Int.neg_mul]
      rw [this, Int.toNat_natCast]
    rw [Int.compare_eq_lt.2 hlt, dif_neg (Int.ne_of_lt hi)]
    simp only [hm, hi, if_true]
    exact round_whole _ _ h t
  · simp
  · have hgt : 0 < i * 2 ^ t := Int.mul_pos hi hpow
    have hm : (i * 2 ^ t).toNat = i.natAbs * 2 ^ t := by
      have : i * 2 ^ t = ((i.natAbs * 2 ^ t : Nat) : Int) := by
        push_cast
        rw [abs_of_pos hi]
      rw [this, Int.toNat_natCast]
    rw [Int.compare_eq_gt.2 hgt, dif_neg (Int.ne_of_gt hi)]
    simp only [hm, Int.not_lt.2 (Int.le_of_lt hi), if_false]
    exact round_whole _ _ h t

/-! ## Packing -/

/-- The sign of what is packed is read back. -/
theorem unpackSign_packComponents {spec : Format} {sign : Sign} {exponent mantissa} :
    unpackSign (packComponents spec sign exponent mantissa) = sign.toBitVec := by
  ext i hi
  have h0 : i = 0 := Nat.lt_one_iff.1 hi
  subst h0
  delta unpackSign
  simp [packComponents, BitVec.getLsbD_append, BitVec.getElem_append]

/-- The bits of a double by their parts. -/
theorem toNat_packComponents (s : Sign) (exponent : BitVec 11) (mantissa : BitVec 52) :
    (packComponents Format.binary64 s exponent mantissa).toNat =
      s.toBitVec.toNat * 2 ^ 63 + exponent.toNat * 2 ^ 52 + mantissa.toNat := by
  have hm := mantissa.isLt
  have he := exponent.isLt
  unfold packComponents
  rw [BitVec.toNat_append, BitVec.toNat_append, ← Nat.shiftLeft_add_eq_or_of_lt hm,
    ← Nat.shiftLeft_add_eq_or_of_lt he, Nat.shiftLeft_eq, Nat.shiftLeft_eq]
  omega

/-- A whole number in its exact form is packed as a normal double. -/
theorem pack_exactForm (s : Sign) {k : Nat} (hk : 0 < k) (h : k < 2 ^ 53) :
    UnpackedFloat.pack Format.binary64 (exactForm s k hk) =
      packComponents Format.binary64 s (BitVec.ofNat 11 (k.log2 + 1023))
        (BitVec.ofNat 52 (k * 2 ^ (52 - k.log2))) := by
  have hlog := log2_le_52 hk h
  have hm : Format.binary64.mantissaBits = 53 := rfl
  have hb : Format.binary64.exponentBias = 1023 := by decide
  have he : ((k.log2 : Int) - 52 + (1023 : Nat) + (52 : Nat)).toNat = k.log2 + 1023 := by omega
  delta exactForm UnpackedFloat.pack
  simp only [hb, hm, he, log2_mul_two_pow hk]
  rw [if_neg (by omega), if_pos (by omega)]

/-- A whole number that fits is packed and read back. -/
theorem unpack_pack_exactForm (s : Sign) {k : Nat} (hk : 0 < k) (h : k < 2 ^ 53) :
    UnpackedFloat.unpack Format.binary64 (UnpackedFloat.pack Format.binary64 (exactForm s k hk)) =
      exactForm s k hk := by
  have hlog := log2_le_52 hk h
  have hb : Format.binary64.exponentBias = 1023 := by decide
  have hexp : (BitVec.ofNat 11 (k.log2 + 1023)).toNat = k.log2 + 1023 := by
    rw [BitVec.toNat_ofNat, Nat.mod_eq_of_lt (by omega)]
  have hlow := Nat.mul_le_mul_right (2 ^ (52 - k.log2)) (Nat.log2_self_le hk.ne')
  have hhigh := Nat.mul_lt_mul_of_pos_right (Nat.lt_log2_self (n := k))
    (Nat.two_pow_pos (52 - k.log2))
  rw [← Nat.pow_add] at hlow hhigh
  have h1 : k.log2 + (52 - k.log2) = 52 := by omega
  have h2 : k.log2 + 1 + (52 - k.log2) = 53 := by omega
  rw [h1] at hlow
  rw [h2] at hhigh
  rw [pack_exactForm s hk h]
  unfold UnpackedFloat.unpack
  have hones : BitVec.ofNat 11 (k.log2 + 1023) ≠ -1#11 := by
    intro heq
    have := congrArg BitVec.toNat heq
    rw [hexp] at this
    simp at this
    omega
  have hzero : BitVec.ofNat 11 (k.log2 + 1023) ≠ 0#11 := by
    intro heq
    have := congrArg BitVec.toNat heq
    rw [hexp] at this
    simp at this
  have hs : Sign.ofBitVec s.toBitVec = s := by cases s <;> rfl
  rw [if_neg (by rw [unpackExponent_packComponents]; exact hones),
    if_neg (by rw [unpackExponent_packComponents]; exact hzero)]
  refine finite_congr (by rw [unpackSign_packComponents, hs]) ?_ ?_
  · rw [unpackMantissa_packComponents, BitVec.toNat_append,
      ← Nat.shiftLeft_add_eq_or_of_lt (BitVec.isLt _), Nat.shiftLeft_eq, BitVec.toNat_ofNat]
    simp
    omega
  · have bits : Format.binary64.mantissaBitsWithoutImplicit = 52 := rfl
    rw [unpackExponent_packComponents, hexp, hb, bits]
    omega

/-- A whole number that fits is packed and read back, zero included. -/
theorem unpack_pack_form {i : Int} (h : i.natAbs < 2 ^ 53) :
    (Float.Model.pack (form i)).unpack = form i := by
  unfold form
  split
  · rfl
  · exact unpack_pack_exactForm _ _ h

/-! ## Doubles that are whole numbers -/

/-- The double is a whole number.  Zero has two signs. -/
def Holds (x : Float) (i : Int) : Prop :=
  x.toModel = Float.Model.pack (form i) ∨ i = 0 ∧ x.toModel = Float.Model.pack (.zero .negative)

variable {x y : Float} {i j : Int}

/-- What is seen of such a double by arithmetic. -/
theorem Holds.unpack (hx : Holds x i) (hi : i.natAbs < 2 ^ 53) :
    x.toModel.unpack = form i ∨ i = 0 ∧ x.toModel.unpack = .zero .negative := by
  rcases hx with hx | ⟨h0, hx⟩
  · rw [hx]
    exact .inl (unpack_pack_form hi)
  · rw [hx]
    exact .inr ⟨h0, rfl⟩

/-- A double that holds a number other than zero is made of its sign and its size. -/
theorem Holds.unpack_of_ne (hx : Holds x i) (hi : i.natAbs < 2 ^ 53) (h0 : i ≠ 0) :
    ∃ s k, ∃ hk : 0 < k, k < 2 ^ 53 ∧ i = s.apply k ∧ form i = exactForm s k hk ∧
      x.toModel.unpack = exactForm s k hk := by
  have hform : form i = exactForm (if i < 0 then .negative else .positive) i.natAbs
      (Int.natAbs_pos.2 h0) := dif_neg h0
  refine ⟨_, _, _, hi, ?_, hform, ?_⟩
  · split
    · simp only [Sign.apply]
      omega
    · simp only [Sign.apply]
      omega
  · rw [← hform]
    exact (hx.unpack hi).resolve_right fun h => h0 h.1

/-- A double that is a whole number other than zero is the one that the number converts to. -/
theorem Holds.eq (hx : Holds x i) (hy : Holds y i) (h0 : i ≠ 0) : x = y := by
  have hx := hx.resolve_right fun h => h0 h.1
  have hy := hy.resolve_right fun h => h0 h.1
  cases x
  cases y
  exact congrArg Float.ofModel (hx.trans hy.symm)

/-- The double one. -/
theorem Holds.one : Holds 1.0 1 :=
  .inl (by decide +kernel)

/-- The double zero. -/
theorem Holds.zero : Holds 0.0 0 :=
  .inl (by decide +kernel)

/-- Two mantissas are brought to one exponent without loss. -/
theorem decreaseExponent_whole {k : Nat} (hk : 0 < k) (h : k < 2 ^ 53) {t : Nat}
    (ht : 52 - k.log2 ≤ t) :
    (decreaseExponent (k * 2 ^ (52 - k.log2)) (k.log2 - 52) (-t)).1 = k * 2 ^ t := by
  have hlog := log2_le_52 hk h
  have hamount : ((k.log2 : Int) - 52 - -(t : Int)).toNat = t - (52 - k.log2) := by omega
  simp only [decreaseExponent, hamount]
  rw [Nat.shiftLeft_eq, Nat.mul_assoc, ← Nat.pow_add]
  congr 2
  omega

/-- A shift leaves the sign alone. -/
theorem apply_mul (s : Sign) (k t : Nat) : s.apply (k * 2 ^ t : Nat) = s.apply k * 2 ^ t := by
  cases s
  · simp only [Sign.apply]
    push_cast
    ring
  · simp only [Sign.apply]
    push_cast
    ring

/-- Two numbers that fit are shifted to the smaller one of their exponents. -/
theorem min_exponents (k l : Nat) (hk : k.log2 ≤ 52) (hl : l.log2 ≤ 52) :
    ∃ t : Nat, min ((k.log2 : Int) - 52) (l.log2 - 52) = -t ∧ 52 - k.log2 ≤ t ∧ 52 - l.log2 ≤ t :=
  ⟨max (52 - k.log2) (52 - l.log2), by omega, by omega, by omega⟩

/-- Whole numbers with a sum that fits are added without rounding. -/
theorem add_exactForm (s r : Sign) {k l : Nat} (hk : 0 < k) (hl : 0 < l) (h : k < 2 ^ 53)
    (h' : l < 2 ^ 53) (hsum : (s.apply k + r.apply l).natAbs < 2 ^ 53) :
    UnpackedFloat.add Format.binary64 (exactForm s k hk) (exactForm r l hl) =
      form (s.apply k + r.apply l) := by
  obtain ⟨t, hmin, hkt, hlt⟩ := min_exponents k l (log2_le_52 hk h) (log2_le_52 hl h')
  unfold exactForm UnpackedFloat.add
  simp only [hmin, decreaseExponent_whole hk h hkt, decreaseExponent_whole hl h' hlt, apply_mul]
  rw [← Int.add_mul]
  exact normalize_whole hsum t

/-- Whole numbers with a difference that fits are subtracted without rounding. -/
theorem sub_exactForm (s r : Sign) {k l : Nat} (hk : 0 < k) (hl : 0 < l) (h : k < 2 ^ 53)
    (h' : l < 2 ^ 53) (hsum : (s.apply k - r.apply l).natAbs < 2 ^ 53) :
    UnpackedFloat.sub Format.binary64 (exactForm s k hk) (exactForm r l hl) =
      form (s.apply k - r.apply l) := by
  obtain ⟨t, hmin, hkt, hlt⟩ := min_exponents k l (log2_le_52 hk h) (log2_le_52 hl h')
  unfold exactForm UnpackedFloat.sub
  simp only [hmin, decreaseExponent_whole hk h hkt, decreaseExponent_whole hl h' hlt, apply_mul]
  rw [← Int.sub_mul]
  exact normalize_whole hsum t

/-- Doubles that hold whole numbers are added as these are. -/
theorem Holds.add (hx : Holds x i) (hy : Holds y j) (hi : i.natAbs < 2 ^ 53) (hj : j.natAbs < 2 ^ 53)
    (hij : (i + j).natAbs < 2 ^ 53) : Holds (x + y) (i + j) := by
  show (Float.Model.pack (UnpackedFloat.add Format.binary64 x.toModel.unpack y.toModel.unpack) = _)
    ∨ _ ∧ Float.Model.pack (UnpackedFloat.add Format.binary64 x.toModel.unpack y.toModel.unpack) = _
  by_cases hi0 : i = 0
  · subst hi0
    by_cases hj0 : j = 0
    · subst hj0
      rcases hx.unpack hi with hu | ⟨-, hu⟩
      · rcases hy.unpack hj with hv | ⟨-, hv⟩
        · rw [hu, hv]
          exact .inl (by decide)
        · rw [hu, hv]
          exact .inl (by decide)
      · rcases hy.unpack hj with hv | ⟨-, hv⟩
        · rw [hu, hv]
          exact .inl (by decide)
        · rw [hu, hv]
          exact .inr ⟨rfl, by decide⟩
    · obtain ⟨s, k, hk, -, -, hform, hv⟩ := hy.unpack_of_ne hj hj0
      rw [Int.zero_add, hv, hform]
      refine .inl ?_
      rcases hx.unpack hi with hu | ⟨-, hu⟩
      · rw [hu]
        rfl
      · rw [hu]
        rfl
  · obtain ⟨s, k, hk, hk53, hsk, hform, hu⟩ := hx.unpack_of_ne hi hi0
    by_cases hj0 : j = 0
    · subst hj0
      rw [Int.add_zero, hu, hform]
      refine .inl ?_
      rcases hy.unpack hj with hv | ⟨-, hv⟩
      · rw [hv]
        rfl
      · rw [hv]
        rfl
    · obtain ⟨r, l, hl, hl53, hrl, -, hv⟩ := hy.unpack_of_ne hj hj0
      subst hsk
      subst hrl
      rw [hu, hv, add_exactForm s r hk hl hk53 hl53 hij]
      exact .inl rfl

/-- One less. -/
theorem Holds.pred (hx : Holds x i) (hi : i.natAbs < 2 ^ 53) (hi' : (i - 1).natAbs < 2 ^ 53) :
    Holds (x - 1.0) (i - 1) := by
  have hone : (1.0 : Float).toModel.unpack = exactForm .positive 1 (by decide) :=
    (Holds.one.unpack (by decide)).resolve_right nofun
  refine .inl ?_
  show Float.Model.pack (UnpackedFloat.sub Format.binary64 x.toModel.unpack
    (1.0 : Float).toModel.unpack) = _
  rw [hone]
  by_cases hi0 : i = 0
  · subst hi0
    rcases hx.unpack hi with hu | ⟨-, hu⟩
    · rw [hu]
      decide
    · rw [hu]
      decide
  · obtain ⟨s, k, hk, hk53, hsk, -, hu⟩ := hx.unpack_of_ne hi hi0
    subst hsk
    rw [hu, sub_exactForm s .positive hk (by decide) hk53 (by decide) hi']
    rfl

/-! ## Comparing -/

/-- Mantissas of 53 bits are compared by their exponents first. -/
theorem compare_exactForm {k l : Nat} (hk : 0 < k) (hl : 0 < l) :
    (compare ((k.log2 : Int) - 52) (l.log2 - 52)).then
      (compare (k * 2 ^ (52 - k.log2)) (l * 2 ^ (52 - l.log2))) = compare k l := by
  have apart {k l : Nat} (hl : 0 < l) (h : k.log2 < l.log2) : k < l :=
    calc k < 2 ^ (k.log2 + 1) := Nat.lt_log2_self
      _ ≤ 2 ^ l.log2 := Nat.pow_le_pow_right (by decide) h
      _ ≤ l := Nat.log2_self_le hl.ne'
  rcases Nat.lt_trichotomy k.log2 l.log2 with h | h | h
  · rw [Nat.compare_eq_lt.2 (apart hl h), Int.compare_eq_lt.2 (by omega)]
    rfl
  · rw [h, Int.compare_eq_eq.2 rfl]
    show compare _ _ = _
    have hpow := Nat.two_pow_pos (52 - l.log2)
    rcases Nat.lt_trichotomy k l with hkl | hkl | hkl
    · rw [Nat.compare_eq_lt.2 hkl, Nat.compare_eq_lt]
      exact Nat.mul_lt_mul_of_pos_right hkl hpow
    · rw [hkl, Nat.compare_eq_eq.2 rfl, Nat.compare_eq_eq.2 rfl]
    · rw [Nat.compare_eq_gt.2 hkl, Nat.compare_eq_gt]
      exact Nat.mul_lt_mul_of_pos_right hkl hpow
  · rw [Nat.compare_eq_gt.2 (apart hk h), Int.compare_eq_gt.2 (by omega)]
    rfl

/-- Forms are compared as the numbers are. -/
theorem compare_form (i j : Int) : (form i).compare (form j) = some (compare i j) := by
  unfold form
  by_cases hi : i = 0
  · subst hi
    by_cases hj : j = 0
    · subst hj
      rfl
    · rw [dif_pos rfl, dif_neg hj]
      rcases Int.lt_or_gt_of_ne hj with h | h
      · simp only [h, if_true, Int.compare_eq_gt.2 h]
        rfl
      · simp only [Int.not_lt.2 (Int.le_of_lt h), if_false, Int.compare_eq_lt.2 h]
        rfl
  · rw [dif_neg hi]
    by_cases hj : j = 0
    · subst hj
      rw [dif_pos rfl]
      rcases Int.lt_or_gt_of_ne hi with h | h
      · simp only [h, if_true, Int.compare_eq_lt.2 h]
        rfl
      · simp only [Int.not_lt.2 (Int.le_of_lt h), if_false, Int.compare_eq_gt.2 h]
        rfl
    · rw [dif_neg hj]
      have hk := Int.natAbs_pos.2 hi
      have hl := Int.natAbs_pos.2 hj
      rcases Int.lt_or_gt_of_ne hi with h | h
      · rcases Int.lt_or_gt_of_ne hj with h' | h'
        · simp only [h, h', if_true]
          show some (Ordering.swap _) = _
          rw [compare_exactForm hk hl]
          congr 1
          rcases Int.lt_trichotomy i j with hij | hij | hij
          · rw [Int.compare_eq_lt.2 hij, Nat.compare_eq_gt.2 (by omega)]
            rfl
          · rw [hij, Int.compare_eq_eq.2 rfl, Nat.compare_eq_eq.2 rfl]
            rfl
          · rw [Int.compare_eq_gt.2 hij, Nat.compare_eq_lt.2 (by omega)]
            rfl
        · simp only [h, if_true, Int.not_lt.2 (Int.le_of_lt h'), if_false,
            Int.compare_eq_lt.2 (Int.lt_trans h h')]
          rfl
      · rcases Int.lt_or_gt_of_ne hj with h' | h'
        · simp only [h', if_true, Int.not_lt.2 (Int.le_of_lt h), if_false,
            Int.compare_eq_gt.2 (Int.lt_trans h' h)]
          rfl
        · simp only [Int.not_lt.2 (Int.le_of_lt h), Int.not_lt.2 (Int.le_of_lt h'), if_false]
          show some _ = _
          rw [compare_exactForm hk hl]
          congr 1
          rcases Int.lt_trichotomy i j with hij | hij | hij
          · rw [Int.compare_eq_lt.2 hij, Nat.compare_eq_lt.2 (by omega)]
          · rw [hij, Int.compare_eq_eq.2 rfl, Nat.compare_eq_eq.2 rfl]
          · rw [Int.compare_eq_gt.2 hij, Nat.compare_eq_gt.2 (by omega)]

/-- Both zeros compare alike. -/
theorem compare_negativeZero (u : UnpackedFloat) :
    UnpackedFloat.compare (.zero .negative) u = UnpackedFloat.compare (.zero .positive) u ∧
      UnpackedFloat.compare u (.zero .negative) = UnpackedFloat.compare u (.zero .positive) := by
  cases u with
  | infinity s => cases s <;> exact ⟨rfl, rfl⟩
  | notANumber => exact ⟨rfl, rfl⟩
  | zero s => exact ⟨rfl, rfl⟩
  | finite s m e h => cases s <;> exact ⟨rfl, rfl⟩

/-- Doubles that hold whole numbers are compared as these are. -/
theorem Holds.compare (hx : Holds x i) (hy : Holds y j) (hi : i.natAbs < 2 ^ 53)
    (hj : j.natAbs < 2 ^ 53) :
    x.toModel.unpack.compare y.toModel.unpack = some (Ord.compare i j) := by
  have hzero : form 0 = .zero .positive := rfl
  rcases hx.unpack hi with hu | ⟨rfl, hu⟩
  · rcases hy.unpack hj with hv | ⟨rfl, hv⟩
    · rw [hu, hv, compare_form]
    · rw [hu, hv, (compare_negativeZero _).2, ← hzero, compare_form]
  · rcases hy.unpack hj with hv | ⟨rfl, hv⟩
    · rw [hu, hv, (compare_negativeZero _).1, ← hzero, compare_form]
    · rw [hu, hv]
      rfl

/-- One double is at most another exactly when its number is. -/
theorem Holds.le_iff (hx : Holds x i) (hy : Holds y j) (hi : i.natAbs < 2 ^ 53)
    (hj : j.natAbs < 2 ^ 53) : x ≤ y ↔ i ≤ j := by
  show decide ((x.toModel.unpack.compare y.toModel.unpack).any (·.isLE) = true) = true ↔ _
  rw [hx.compare hy hi hj]
  simpa using Int.isLE_compare

/-! ## Converting -/

/-- A natural number that fits is held by its double. -/
theorem Holds.ofNat {n : Nat} (h : n < 2 ^ 53) : Holds (Float.ofNat n) n := by
  have hword : (n.toUInt64).toNat = n := by
    show n % 2 ^ 64 = n
    exact Nat.mod_eq_of_lt (by omega)
  have hfloat : n.toUInt64.toFloat.toModel = Float.Model.pack (form n) := by
    show Float.Model.pack (UnpackedFloat.normalize Format.binary64 ((n.toUInt64).toNat : Int) 0 .positive) = _
    rw [hword]
    have := normalize_whole (i := n) (by simpa using h) 0
    simpa using congrArg Float.Model.pack this
  have hscale : Float.ofNat n = n.toUInt64.toFloat * Float.ofBits 0x3FF0000000000000 := by
    show Float.ofScientific n false 0 = _
    unfold Float.ofScientific
    rw [dif_pos ⟨h, by decide⟩]
    rfl
  have hone : (Float.ofBits 0x3FF0000000000000).toModel.unpack = exactForm .positive 1 (by decide) := by
    have : (Float.ofBits 0x3FF0000000000000).toModel = Float.Model.pack (form 1) := by decide
    rw [this]
    exact unpack_pack_form (by decide)
  refine .inl ?_
  rw [hscale]
  show Float.Model.pack (UnpackedFloat.mul Format.binary64 n.toUInt64.toFloat.toModel.unpack
    (Float.ofBits 0x3FF0000000000000).toModel.unpack) = _
  rw [hfloat, unpack_pack_form (by simpa using h), hone]
  by_cases h0 : n = 0
  · subst h0
    decide
  · have hn : 0 < n := Nat.pos_of_ne_zero h0
    have hform : form n = exactForm .positive n hn := by
      unfold form
      rw [dif_neg (by omega)]
      simp [Int.not_lt.2 (Int.natCast_nonneg n)]
    rw [hform]
    have hlog := log2_le_52 hn h
    have hm : n * 2 ^ (52 - n.log2) * (1 * 2 ^ (52 - Nat.log2 1)) = n * 2 ^ (52 - n.log2 + 52) := by
      rw [Nat.pow_add]
      have : Nat.log2 1 = 0 := by decide
      rw [this]
      ring
    have he : (n.log2 : Int) - 52 + ((Nat.log2 1 : Int) - 52) = -((52 - n.log2 + 52 : Nat) : Int) := by
      have : Nat.log2 1 = 0 := by decide
      rw [this]
      omega
    show Float.Model.pack (roundWithAccuracy Format.binary64 _ (n * 2 ^ (52 - n.log2) *
      (1 * 2 ^ (52 - Nat.log2 1))) ((n.log2 : Int) - 52 + ((Nat.log2 1 : Int) - 52)) .exact) = _
    rw [hm, he]
    exact congrArg _ (roundWithAccuracy_whole _ hn h (by omega))

/-- The negative double holds the negative number. -/
theorem Holds.neg (hx : Holds x i) (hi : i.natAbs < 2 ^ 53) : Holds (-x) (-i) := by
  show (Float.Model.pack x.toModel.unpack.neg = _) ∨ _ ∧ Float.Model.pack x.toModel.unpack.neg = _
  by_cases h0 : i = 0
  · subst h0
    rcases hx.unpack hi with hu | ⟨-, hu⟩
    · rw [hu]
      exact .inr ⟨rfl, rfl⟩
    · rw [hu]
      exact .inl rfl
  · obtain ⟨s, k, hk, -, rfl, -, hu⟩ := hx.unpack_of_ne hi h0
    have opposite : -s.apply k = (-s).apply k := by
      cases s with
      | positive => rfl
      | negative => exact Int.neg_neg k
    rw [hu, opposite, form_apply _ hk]
    exact .inl rfl

/-- An integer that fits is held by its double. -/
theorem Holds.ofInt {i : Int} (h : i.natAbs < 2 ^ 53) : Holds (Float.ofInt i) i := by
  cases i with
  | ofNat n => exact Holds.ofNat h
  | negSucc n =>
    have hn : Holds (Float.ofNat (n + 1)) ((n + 1 : Nat) : Int) := Holds.ofNat h
    exact hn.neg h

/-- The next whole number is reached by adding one. -/
theorem Holds.succ (hx : Holds x i) (hi : i.natAbs < 2 ^ 53) (hi' : (i + 1).natAbs < 2 ^ 53) :
    x + 1.0 = Float.ofInt (i + 1) := by
  have hsum := hx.add Holds.one hi (by decide) hi'
  by_cases h0 : i + 1 = 0
  · have hi1 : i = -1 := by omega
    subst hi1
    have hx' : x = Float.ofInt (-1) := hx.eq (Holds.ofInt hi) (by decide)
    rw [hx']
    decide +kernel
  · exact hsum.eq (Holds.ofInt hi') h0

/-! ## Reading -/

/-- The whole number that a double is. -/
def whole? (x : Float) : Option Int :=
  match Decimal.Binary.ofFloat x with
  | .finite negative m e =>
    if m % Decimal.denominator e = 0 then
      let size : Int := Decimal.numerator m e / Decimal.denominator e
      some (if negative then -size else size)
    else none
  | _ => none

/-- The parts of a normal double that is a small whole number. -/
theorem parts_of_whole {m E : Nat} (hlow : 2 ^ 52 ≤ m) (hhigh : m < 2 ^ 53)
    (hdvd : m % Decimal.denominator ((E : Int) - 1075) = 0) {k : Nat}
    (hk : Decimal.numerator m ((E : Int) - 1075) / Decimal.denominator ((E : Int) - 1075) = k)
    (hk53 : k < 2 ^ 53) : 0 < k ∧ E = k.log2 + 1023 ∧ m = k * 2 ^ (52 - k.log2) := by
  have finish {d : Nat} (hE : E + d = 1075) (hm : m = k * 2 ^ d) :
      0 < k ∧ E = k.log2 + 1023 ∧ m = k * 2 ^ (52 - k.log2) := by
    have hkpos : 0 < k := by
      refine Nat.pos_of_ne_zero fun h0 => ?_
      rw [h0, Nat.zero_mul] at hm
      omega
    have hlog : m.log2 = 52 := (Nat.log2_eq_iff (by omega)).2 ⟨hlow, hhigh⟩
    rw [hm, log2_mul_two_pow hkpos] at hlog
    have hd : 52 - k.log2 = d := by omega
    exact ⟨hkpos, by omega, by rw [hd]; exact hm⟩
  simp only [Decimal.numerator, Decimal.denominator, Decimal.twoTo, Nat.pow_eq] at hdvd hk
  rcases Nat.lt_or_ge E 1075 with hE | hE
  · have hnum : ((E : Int) - 1075).toNat = 0 := by omega
    have hden : (-((E : Int) - 1075)).toNat = 1075 - E := by omega
    rw [hden] at hdvd hk
    rw [hnum] at hk
    refine finish (d := 1075 - E) (by omega) ?_
    have hsplit := Nat.div_add_mod m (2 ^ (1075 - E))
    rw [Nat.pow_zero, Nat.mul_one] at hk
    rw [hk, hdvd, Nat.add_zero, Nat.mul_comm] at hsplit
    exact hsplit.symm
  · have hnum : ((E : Int) - 1075).toNat = E - 1075 := by omega
    have hden : (-((E : Int) - 1075)).toNat = 0 := by omega
    rw [hden, hnum, Nat.pow_zero, Nat.div_one] at hk
    -- A mantissa of 53 bits leaves no room for a positive exponent.
    have hexp : E - 1075 = 0 := by
      by_contra hne
      have hpow : 2 ^ 1 ≤ 2 ^ (E - 1075) := Nat.pow_le_pow_right (by decide) (by omega)
      have := Nat.mul_le_mul hlow hpow
      omega
    rw [hexp, Nat.pow_zero, Nat.mul_one] at hk
    exact finish (d := 0) (by omega) (by rw [Nat.pow_zero, Nat.mul_one, hk])

/-- A power of two is at least any with a smaller exponent. -/
theorem le_twoTo {a b : Nat} (h : a ≤ b) : 2 ^ a ≤ Decimal.twoTo b :=
  Nat.pow_le_pow_right (by decide) h

/-- A double that reads as a small whole number is that number. -/
theorem holds_of_whole? (h : whole? x = some i) (hi : i.natAbs < 2 ^ 53) : Holds x i := by
  have hbits : x.toBits.toNat < 2 ^ 64 := x.toBits.toNat_lt
  generalize hb : x.toBits.toNat = bits at hbits
  -- The model of a double is fixed by the number that its bits stand for.
  have same (u : UnpackedFloat) (hu : (UnpackedFloat.pack Format.binary64 u).toNat = bits) :
      x.toModel = Float.Model.pack u := by
    have heq : x.toModel.toBits = (Float.Model.pack u).toBits := by
      apply UInt64.toNat_inj.1
      exact hb.trans hu.symm
    generalize x.toModel = m at heq
    cases m
    cases heq
    rfl
  unfold whole? Decimal.Binary.ofFloat at h
  simp only [hb, Decimal.twoTo, Nat.pow_eq] at h
  obtain ⟨s, hs, hsign⟩ : ∃ s : Sign, s.toBitVec.toNat = bits / 2 ^ 63 ∧
      ∀ k : Int, (if (bits / 2 ^ 63 == 1) = true then -k else k) = s.apply k := by
    rcases Nat.lt_or_ge bits (2 ^ 63) with hlt | hge
    · have h0 : bits / 2 ^ 63 = 0 := Nat.div_eq_of_lt hlt
      exact ⟨.positive, by rw [h0]; rfl, fun k => by rw [h0]; rfl⟩
    · have h1 : bits / 2 ^ 63 = 1 := by omega
      exact ⟨.negative, by rw [h1]; rfl, fun k => by rw [h1]; rfl⟩
  by_cases hones : bits / 2 ^ 52 % 2048 = 2047
  · rw [if_pos hones] at h
    split at h
    · rename_i heq
      split at heq <;> cases heq
    · cases h
  rw [if_neg hones] at h
  by_cases hzeros : bits / 2 ^ 52 % 2048 = 0
  · rw [if_pos hzeros] at h
    simp only [hsign] at h
    have hF : bits % 2 ^ 52 < 2 ^ 52 := Nat.mod_lt _ (by decide)
    have hden : Decimal.denominator Decimal.leastExponent = Decimal.twoTo 1074 := rfl
    have hpow : 2 ^ 52 ≤ Decimal.twoTo 1074 := le_twoTo (by decide)
    rw [hden, Nat.mod_eq_of_lt (Nat.lt_of_lt_of_le hF hpow)] at h
    split at h
    · rename_i h0
      have hi0 : i = 0 := by
        rw [h0, Decimal.numerator, Nat.zero_mul, Int.natCast_zero, Int.zero_ediv] at h
        cases s <;> exact (Option.some.inj h).symm
      subst hi0
      have hpack : (UnpackedFloat.pack Format.binary64 (.zero s)).toNat = bits := by
        have := toNat_packComponents s 0 0
        show (packedZero Format.binary64 s).toNat = bits
        simp only [packedZero, this, hs]
        simp
        omega
      cases s with
      | negative => exact .inr ⟨rfl, same _ hpack⟩
      | positive => exact .inl (same _ hpack)
    · cases h
  · rw [if_neg hzeros] at h
    simp only [hsign] at h
    split at h
    · rename_i hdvd
      rw [Option.some.injEq, ← Int.natCast_div] at h
      subst h
      rw [natAbs_apply] at hi
      have hF : bits % 2 ^ 52 < 2 ^ 52 := Nat.mod_lt _ (by decide)
      obtain ⟨hk, hE, hm⟩ := parts_of_whole (by omega) (by omega) hdvd rfl hi
      rw [Holds, form_apply s hk]
      refine .inl (same _ ?_)
      have hlog := log2_le_52 hk hi
      rw [pack_exactForm s hk hi, toNat_packComponents, hs, BitVec.toNat_ofNat, BitVec.toNat_ofNat,
        ← hm, Nat.mod_eq_of_lt (by omega), ← hE]
      omega
    · cases h

end QueueScript.Doubles
