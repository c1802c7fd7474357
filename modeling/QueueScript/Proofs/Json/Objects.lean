import QueueScript.Proofs.Tables
import QueueScript.Value.Basic
import Mathlib.Data.List.Nodup
import Mathlib.Data.List.Perm.Basic

/-!
# Objects keep their fields in order

Pairs that are given one after the other make an object with every key once and the indices first.
Given once more, the fields of an object make the same object.
-/

namespace QueueScript

namespace Keyed

variable {α : Type}

/-- Every key of a table of pairs stands in it once. -/
theorem nodup_keys_ofPairs (pairs : List (String × α)) : (ofPairs pairs).keys.Nodup := by
  have step : ∀ (pairs : List (String × α)) (t : Keyed α), t.keys.Nodup →
      (pairs.foldl (fun t p => put t p.1 p.2) t).keys.Nodup := by
    intro pairs
    induction pairs with
    | nil => exact fun t h => h
    | cons p pairs ih =>
      refine fun t h => ih _ ?_
      rw [keys_put]
      split
      case isTrue => exact h
      case isFalse hnew =>
        have hmem : p.1 ∉ t.keys := by
          intro hp
          obtain ⟨q, hq, hkey⟩ := List.mem_map.1 hp
          exact hnew (List.any_eq_true.2 ⟨q, hq, by simp [hkey]⟩)
        rw [List.nodup_append]
        exact ⟨h, List.nodup_singleton _, by rintro a ha b hb rfl; simp_all⟩
  exact step pairs [] List.nodup_nil

/-- Pairs with different keys make the table of these pairs. -/
theorem ofPairs_of_nodup {t : Keyed α} (h : t.keys.Nodup) : ofPairs t = t := by
  have step : ∀ (pairs t : Keyed α), (t ++ pairs).keys.Nodup →
      pairs.foldl (fun t p => put t p.1 p.2) t = t ++ pairs := by
    intro pairs
    induction pairs with
    | nil => exact fun t _ => (List.append_nil t).symm
    | cons p pairs ih =>
      intro t h
      have hnew : p.1 ∉ t.keys := by
        intro hp
        simp only [keys, List.map_append, List.map_cons] at h hp
        exact (List.nodup_append.1 h).2.2 _ hp _ List.mem_cons_self rfl
      rw [List.foldl_cons, put_of_not_mem hnew]
      simpa using ih (t ++ [(p.1, p.2)]) (by simpa using h)
  exact step t [] h

end Keyed

namespace Value

variable {α : Type}

/-- Inserts a field among the fields whose keys are indices, if its key is one. -/
def withIndexed (f : String × α) (acc : List (Nat × String × α)) : List (Nat × String × α) :=
  match indexOfKey f.1 with
  | some n => insertIndexed n f acc
  | none => acc

/-- Fields that stand under ascending indices. -/
structure Ascending (acc : List (Nat × String × α)) : Prop where
  index : ∀ g ∈ acc, indexOfKey g.2.1 = some g.1
  sorted : acc.Pairwise fun g g' => g.1 ≤ g'.1

theorem perm_insertIndexed (n : Nat) (f : String × α) (acc : List (Nat × String × α)) :
    (insertIndexed n f acc).Perm ((n, f) :: acc) := by
  induction acc with
  | nil => exact .refl _
  | cons g rest ih =>
    rw [insertIndexed]
    split
    · exact .refl _
    · exact (ih.cons g).trans (.swap _ _ _)

theorem Ascending.insert {acc : List (Nat × String × α)} (h : Ascending acc) {n : Nat}
    {f : String × α} (hf : indexOfKey f.1 = some n) : Ascending (insertIndexed n f acc) where
  index g hg := by
    rcases List.mem_cons.1 ((perm_insertIndexed n f acc).mem_iff.1 hg) with rfl | hg
    · exact hf
    · exact h.index g hg
  sorted := by
    have hsorted := h.sorted
    clear h
    induction acc with
    | nil => exact List.pairwise_singleton _ _
    | cons g rest ih =>
      obtain ⟨hg, hrest⟩ := List.pairwise_cons.1 hsorted
      rw [insertIndexed]
      split
      case isTrue hle =>
        refine List.pairwise_cons.2 ⟨fun g' hg' => ?_, hsorted⟩
        rcases List.mem_cons.1 hg' with rfl | hg'
        · exact hle
        · exact Nat.le_trans hle (hg g' hg')
      case isFalse hle =>
        refine List.pairwise_cons.2 ⟨fun g' hg' => ?_, ih hrest⟩
        rcases List.mem_cons.1 ((perm_insertIndexed n f rest).mem_iff.1 hg') with rfl | hg'
        · exact Nat.le_of_not_le hle
        · exact hg g' hg'

/-- The fields whose keys are indices, ascending. -/
def indexed (fields : List (String × α)) : List (Nat × String × α) :=
  fields.foldr withIndexed []

theorem orderFields_eq (fields : List (String × α)) : orderFields fields =
    (indexed fields).map (·.2) ++ fields.filter fun f => (indexOfKey f.1).isNone :=
  rfl

theorem ascending_indexed (fields : List (String × α)) : Ascending (indexed fields) := by
  induction fields with
  | nil => exact ⟨nofun, List.Pairwise.nil⟩
  | cons f fields ih =>
    show Ascending (withIndexed f (indexed fields))
    unfold withIndexed
    split
    · next n hf => exact ih.insert hf
    · exact ih

/-- The order of fields only moves them. -/
theorem perm_orderFields (fields : List (String × α)) : (orderFields fields).Perm fields := by
  rw [orderFields_eq]
  induction fields with
  | nil => exact .refl _
  | cons f fields ih =>
    show ((withIndexed f (indexed fields)).map (·.2) ++ _).Perm _
    unfold withIndexed
    cases hf : indexOfKey f.1 with
    | none =>
      rw [List.filter_cons_of_pos (by simp [hf])]
      exact List.perm_middle.trans (ih.cons f)
    | some n =>
      rw [List.filter_cons_of_neg (by simp [hf])]
      exact (((perm_insertIndexed n f _).map _).append_right _).trans (ih.cons f)

/-- Fields in ascending order are left as they are. -/
theorem indexed_of_ascending {acc : List (Nat × String × α)} (h : Ascending acc) :
    indexed (acc.map (·.2)) = acc := by
  induction acc with
  | nil => rfl
  | cons g rest ih =>
    obtain ⟨hg, hrest⟩ := List.pairwise_cons.1 h.sorted
    have hindexed := ih ⟨fun g' hg' => h.index g' (List.mem_cons_of_mem _ hg'), hrest⟩
    show withIndexed g.2 (indexed (rest.map (·.2))) = g :: rest
    unfold withIndexed
    rw [h.index g List.mem_cons_self, hindexed]
    cases rest with
    | nil => rfl
    | cons g' rest => exact if_pos (hg g' List.mem_cons_self)

/-- Fields without indices do not take part in their order. -/
theorem indexed_append_of_none (fields : List (String × α)) {others : List (String × α)}
    (h : ∀ f ∈ others, indexOfKey f.1 = none) : indexed (fields ++ others) = indexed fields := by
  have hothers : indexed others = [] := by
    induction others with
    | nil => rfl
    | cons f others ih =>
      show withIndexed f (indexed others) = []
      rw [withIndexed, h f List.mem_cons_self]
      exact ih fun g hg => h g (List.mem_cons_of_mem _ hg)
  unfold indexed at hothers ⊢
  rw [List.foldr_append, hothers]

/-- Fields that are in order stay in order. -/
theorem orderFields_orderFields (fields : List (String × α)) :
    orderFields (orderFields fields) = orderFields fields := by
  have hothers : ∀ f ∈ fields.filter (fun f => (indexOfKey f.1).isNone), indexOfKey f.1 = none :=
    fun f hf => by simpa using (List.mem_filter.1 hf).2
  have hnone : ((indexed fields).map (·.2)).filter (fun f => (indexOfKey f.1).isNone) = [] := by
    refine List.filter_eq_nil_iff.2 fun f hf => ?_
    obtain ⟨g, hg, rfl⟩ := List.mem_map.1 hf
    simp [(ascending_indexed fields).index g hg]
  have hkept : (fields.filter fun f => (indexOfKey f.1).isNone).filter
      (fun f => (indexOfKey f.1).isNone) = fields.filter fun f => (indexOfKey f.1).isNone := by
    simp
  rw [orderFields_eq fields, orderFields_eq, indexed_append_of_none _ hothers,
    indexed_of_ascending (ascending_indexed fields), List.filter_append, hnone, hkept,
    List.nil_append]

/-- The fields of an object make the same object once more. -/
theorem fieldsOf_fieldsOf (pairs : List (String × α)) :
    fieldsOf (fieldsOf pairs) = fieldsOf pairs := by
  have hkeys : (Keyed.keys (orderFields (Keyed.ofPairs pairs))).Nodup :=
    ((perm_orderFields _).map _).nodup_iff.2 (Keyed.nodup_keys_ofPairs pairs)
  unfold fieldsOf
  rw [Keyed.ofPairs_of_nodup hkeys, orderFields_orderFields]

end Value

end QueueScript
