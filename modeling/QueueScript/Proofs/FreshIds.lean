import QueueScript.Engine.Queues
import Mathlib.Data.List.Nodup
import Mathlib.Data.List.Perm.Subperm

/-!
# Ids that are made from a name

An id that is made from a name is not registered when it is made.  Ids are tried one number after the
other, and there are more tries than registered queues; and such an id is in lower case already, so
it is registered as it stands.
-/

namespace QueueScript.Queues

/-! ## Numbers in ids -/

theorem natText_injective {m n : Nat} (h : Number.natText m = Number.natText n) : m = n := by
  have hread := congrArg (Nat.ofDigitChars 10 · 0) (String.ofList_injective h)
  rwa [Nat.ofDigitChars_ten_toDigits, Nat.ofDigitChars_ten_toDigits] at hread

theorem numberedId_injective (base : String) : Function.Injective (numberedId base) := by
  intro m n h
  have hl := congrArg String.toList h
  simp only [numberedId, String.toList_append] at hl
  exact natText_injective (String.toList_inj.1 (List.append_cancel_left hl))

/-- Either the number that was found is free, or every number that was tried is taken. -/
theorem freeNumber_cases (registry : Keyed QueueRef) (base : String) (fuel n : Nat) :
    registry.has (numberedId base (freeNumber registry base fuel n)) = false ∨
      freeNumber registry base fuel n = n + fuel + 1 ∧
        ∀ i ∈ List.range' (n + 1) fuel, registry.has (numberedId base i) = true := by
  induction fuel generalizing n with
  | zero => exact .inr ⟨rfl, by simp⟩
  | succ fuel ih =>
    unfold freeNumber
    split
    · rename_i htaken
      rcases ih (n + 1) with h | ⟨h, hall⟩
      · exact .inl h
      · refine .inr ⟨by omega, fun i hi => ?_⟩
        rw [List.range'_succ] at hi
        rcases List.mem_cons.1 hi with rfl | hi
        · exact htaken
        · exact hall i hi
    · rename_i hfree
      exact .inl (by simpa using hfree)

/-- With as many tries as registered queues, the number that is found is free. -/
theorem freeNumber_free (registry : Keyed QueueRef) (base : String) (n : Nat) :
    registry.has (numberedId base (freeNumber registry base registry.length n)) = false := by
  rcases freeNumber_cases registry base registry.length n with h | ⟨h, hall⟩
  · exact h
  · rw [Bool.eq_false_iff]
    intro hlast
    rw [h] at hlast
    -- All ids in a row would be registered, and they are one more than there is room for.
    let ids := (List.range' (n + 1) (registry.length + 1)).map (numberedId base)
    have hnodup : ids.Nodup := (List.nodup_range').map (numberedId_injective base)
    have hsub : ids ⊆ registry.keys := by
      intro k hk
      obtain ⟨i, hi, rfl⟩ := List.mem_map.1 hk
      rw [List.range'_concat] at hi
      rcases List.mem_append.1 hi with hi | hi
      · exact (Keyed.has_iff_mem_keys _ _).1 (hall i hi)
      · have hi' : i = n + registry.length + 1 := by
          have := List.mem_singleton.1 hi
          omega
        rw [hi']
        exact (Keyed.has_iff_mem_keys _ _).1 hlast
    have hlen := (hnodup.subperm hsub).length_le
    simp only [ids, Keyed.keys, List.length_map, List.length_range'] at hlen
    omega

/-! ## Ids in lower case -/

theorem isIdChar_iff (c : Char) : isIdChar c = true ↔
    0x61 ≤ c.toNat ∧ c.toNat ≤ 0x7A ∨ 0x30 ≤ c.toNat ∧ c.toNat ≤ 0x39 ∨ c.toNat = 0x5F := by
  have hchar : c = '_' ↔ c.toNat = 0x5F := ⟨fun h => by rw [h]; rfl, fun h => Char.toNat_inj.1 h⟩
  have hlow : 'a' ≤ c ↔ 0x61 ≤ c.toNat := Iff.rfl
  have hhigh : c ≤ 'z' ↔ c.toNat ≤ 0x7A := Iff.rfl
  simp only [isIdChar, Number.isDigit, Bool.or_eq_true, Bool.and_eq_true, decide_eq_true_eq,
    beq_iff_eq, hchar, hlow, hhigh, or_assoc]

/-- Characters of ids are in lower case. -/
theorem lowerChar_of_isIdChar {c : Char} (h : isIdChar c = true) :
    Text.lowerChar c = [c] ∧ c.toNat ≠ 0x3A3 := by
  rw [isIdChar_iff] at h
  refine ⟨?_, by omega⟩
  have hupper : ¬ (0x41 ≤ c.toNat ∧ c.toNat ≤ 0x5A) := by omega
  unfold Text.lowerChar
  rw [if_pos (by omega)]
  have hsame : c.toLower = c := dif_neg fun hc => hupper ⟨hc.1, hc.2⟩
  rw [hsame]

theorem lowerAfter_of_isIdChar {cs : List Char} (h : ∀ c ∈ cs, isIdChar c = true)
    (before : List Char) : Text.lowerAfter before cs = cs := by
  induction cs generalizing before with
  | nil => rfl
  | cons c rest ih =>
    obtain ⟨hc, hsigma⟩ := lowerChar_of_isIdChar (h c (by simp))
    unfold Text.lowerAfter
    rw [if_neg fun hs => hsigma hs.1, hc, ih fun d hd => h d (by simp [hd])]
    rfl

theorem idCharsFrom_isIdChar (inRun : Bool) (cs : List Char) :
    ∀ c ∈ idCharsFrom inRun cs, isIdChar c = true := by
  induction cs generalizing inRun with
  | nil => exact fun c hc => absurd hc List.not_mem_nil
  | cons c rest ih =>
    unfold idCharsFrom
    split
    · rename_i hc
      intro d hd
      rcases List.mem_cons.1 hd with rfl | hd
      · exact hc
      · exact ih _ d hd
    · split
      · exact ih _
      · intro d hd
        rcases List.mem_cons.1 hd with rfl | hd
        · rfl
        · exact ih _ d hd

theorem idBase_isIdChar (name : String) : ∀ c ∈ (idBase name).toList, isIdChar c = true := by
  unfold idBase
  dsimp only
  split
  · exact List.all_eq_true.1 (by decide)
  · rw [String.toList_ofList]
    exact idCharsFrom_isIdChar _ _

theorem natText_isIdChar (n : Nat) : ∀ c ∈ (Number.natText n).toList, isIdChar c = true := by
  intro c hc
  rw [Number.natText, String.toList_ofList] at hc
  have hdigit := Nat.isDigit_of_mem_toDigits (by decide) (by decide) hc
  have hrange : 0x30 ≤ c.toNat ∧ c.toNat ≤ 0x39 := by
    simp only [Char.isDigit, Bool.and_eq_true, decide_eq_true_eq] at hdigit
    exact ⟨hdigit.1, hdigit.2⟩
  exact (isIdChar_iff c).2 (.inr (.inl hrange))

/-- Ids that are made from a name are registered as they stand. -/
theorem lower_numberedId (name : String) (n : Nat) :
    Text.lower (numberedId (idBase name) n) = numberedId (idBase name) n := by
  unfold Text.lower
  rw [lowerAfter_of_isIdChar, String.ofList_toList]
  intro c hc
  simp only [numberedId, String.toList_append, List.mem_append] at hc
  rcases hc with (hc | hc) | hc
  · exact idBase_isIdChar name c hc
  · exact List.all_eq_true.1 (by decide) c hc
  · exact natText_isIdChar n c hc

/-- An id that is made from a name is not registered. -/
theorem generateId_free (name : String) (e : Engine) :
    ∃ id counters, generateId name e = (.ok id, { e with counters }) ∧
      Text.lower id ∉ e.registry.keys := by
  refine ⟨_, _, rfl, ?_⟩
  rw [lower_numberedId, ← Keyed.has_iff_mem_keys, freeNumber_free]
  exact nofun

end QueueScript.Queues
