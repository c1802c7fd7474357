import Mathlib.Data.List.Infix
import QueueScript.Config

/-!
# Paths that stay below a folder

Reading a text against a folder gives a path in normal form: its names are not empty, are neither `.`
nor `..`, and hold no slash.  On such paths, leaving a folder by the way down from it is the same as
not having the folder for a beginning.  So a configuration with a limit admits exactly the paths at
or below that limit.
-/

namespace QueueScript

namespace Path

theorem not_mem_of_mem_splitChars {p : Char → Bool} {cs piece : List Char} {c : Char}
    (hc : p c = true) (h : piece ∈ Text.splitChars p cs) : c ∉ piece := by
  induction cs generalizing piece with
  | nil =>
    rw [Text.splitChars, List.mem_singleton] at h
    simp [h]
  | cons d cs ih =>
    rw [Text.splitChars] at h
    split at h
    · rcases List.mem_cons.1 h with rfl | h
      · simp
      · exact ih h
    · rename_i hd
      have hne : c ≠ d := fun hcd => hd (hcd ▸ hc)
      split at h
      · rw [List.mem_singleton.1 h]
        simpa using hne
      · rename_i first rest hs
        rw [hs] at ih
        rcases List.mem_cons.1 h with rfl | h
        · simpa [hne] using ih List.mem_cons_self
        · exact ih (List.mem_cons_of_mem _ h)

theorem slash_not_mem_of_mem_splitAt {text name : String} (h : name ∈ Text.splitAt '/' text) :
    '/' ∉ name.toList := by
  obtain ⟨piece, hp, rfl⟩ := List.mem_map.1 h
  simpa using not_mem_of_mem_splitChars (p := (· == '/')) (beq_self_eq_true _) hp

theorem normal_step {path : List String} {name : String} (hp : Normal path)
    (hn : '/' ∉ name.toList) : Normal (step path name) := by
  unfold step
  split
  · exact hp
  · rename_i hstay
    split
    · exact fun m hm => hp m (List.mem_of_mem_tail hm)
    · rename_i hup
      intro m hm
      rcases List.mem_cons.1 hm with rfl | hm
      · exact ⟨fun h => hstay (.inl h), fun h => hstay (.inr h), hup, hn⟩
      · exact hp m hm

theorem normal_foldl_step {path names : List String} (hp : Normal path)
    (hn : ∀ name ∈ names, '/' ∉ name.toList) : Normal (names.foldl step path) := by
  induction names generalizing path with
  | nil => exact hp
  | cons name rest ih =>
    refine ih (normal_step hp (hn name List.mem_cons_self)) fun m hm => ?_
    exact hn m (List.mem_cons_of_mem _ hm)

/-- What a text names, read against a normalised folder, is a normalised path. -/
theorem normal_resolve {folder : Path} (h : Normal folder) (text : String) :
    Normal (resolve folder text) := by
  have start : Normal (if text.startsWith "/" then [] else folder) := by
    split
    · exact normal_nil
    · exact h
  intro name hname
  refine normal_foldl_step (fun m hm => start m (List.mem_reverse.1 hm))
    (fun m hm => slash_not_mem_of_mem_splitAt hm) name (List.mem_reverse.1 hname)

/-! ## Leaving a folder -/

/-- The way from a folder to a path goes down only, if the folder is a beginning of the path. -/
theorem dropCommon_append (folder rest : Path) : dropCommon folder (folder ++ rest) = ([], rest) := by
  induction folder with
  | nil => cases rest <;> rfl
  | cons name folder ih => simp [dropCommon, ih]

/-- The way from a folder to a path starts upwards, if the folder is no beginning of the path. -/
theorem dropCommon_fst_ne_nil {folder goal : Path} (h : ¬ folder <+: goal) :
    (dropCommon folder goal).1 ≠ [] := by
  induction folder generalizing goal with
  | nil => exact absurd List.nil_prefix h
  | cons name folder ih =>
    cases goal with
    | nil => simp [dropCommon]
    | cons other goal =>
      unfold dropCommon
      split
      · rename_i heq
        subst heq
        exact ih fun hpre => h (List.cons_prefix_cons.2 ⟨rfl, hpre⟩)
      · simp

/-- The way to a normalised path leaves a folder exactly if the path is not at or below it. -/
theorem leaves_eq_false_iff {folder goal : Path} (h : Normal goal) :
    leaves folder goal = false ↔ folder <+: goal := by
  constructor
  · intro hl
    by_contra hpre
    have hup := dropCommon_fst_ne_nil hpre
    unfold leaves relative at hl
    cases hd : dropCommon folder goal with
    | mk up down =>
      rw [hd] at hup hl
      cases up with
      | nil => exact hup rfl
      | cons name up => simp at hl
  · rintro ⟨rest, rfl⟩
    unfold leaves relative
    rw [dropCommon_append]
    cases rest with
    | nil => rfl
    | cons name rest =>
      have hname : name ≠ ".." := (h name (by simp)).2.2.1
      simpa using hname

end Path

namespace Config

/-- The data folder is a normalised path, wherever the process works. -/
theorem normal_dataPath (c : Config) : c.dataPath.Normal :=
  Path.normal_resolve c.workingFolder.property _

/-- With a limit, the paths that scripts may name are those at or below it. -/
theorem scriptPath?_eq {c : Config} (h : Text.lower c.filePathLimit ≠ "none") (target : String) :
    c.scriptPath? target =
      if Path.resolve c.dataPath c.filePathLimit <+: Path.resolve c.dataPath target then
        some (Path.resolve c.dataPath target)
      else none := by
  have normal := Path.normal_resolve c.normal_dataPath target
  unfold scriptPath? limitPath?
  rw [if_neg h]
  dsimp only
  by_cases hpre : Path.resolve c.dataPath c.filePathLimit <+: Path.resolve c.dataPath target
  · rw [if_pos hpre, (Path.leaves_eq_false_iff normal).2 hpre]
    rfl
  · rw [if_neg hpre, if_pos]
    exact Bool.not_eq_false _ ▸ fun hl => hpre ((Path.leaves_eq_false_iff normal).1 hl)

end Config

end QueueScript
