import QueueScript.Engine.Action

/-!
# The tables of an engine

What is found in the tables of queues, entries and memories after one place was changed or one place
was added.  A number that is out of range stands for a default, which no change reaches.
-/

namespace QueueScript

/-- A table is only ever joined by the pair that is put. -/
theorem Keyed.mem_put {α : Type} {t : Keyed α} {k : String} {a : α} {p : String × α}
    (h : p ∈ t.put k a) : p ∈ t ∨ p = (k, a) := by
  induction t with
  | nil => exact .inr (List.mem_singleton.1 h)
  | cons x rest ih =>
    unfold Keyed.put at h
    split at h
    · rcases List.mem_cons.1 h with h | h
      · exact .inr h
      · exact .inl (List.mem_cons_of_mem _ h)
    · rcases List.mem_cons.1 h with h | h
      · exact .inl (h ▸ List.mem_cons_self)
      · exact (ih h).imp (List.mem_cons_of_mem _) id

/-- A new key comes last. -/
theorem Keyed.put_of_not_mem {α : Type} {t : Keyed α} {k : String} {a : α} (h : k ∉ t.keys) :
    t.put k a = t ++ [(k, a)] := by
  induction t with
  | nil => rfl
  | cons p rest ih =>
    obtain ⟨hp, hrest⟩ := List.ne_and_not_mem_of_not_mem_cons h
    have hne : (p.1 == k) = false := by simpa using Ne.symm hp
    unfold Keyed.put
    rw [hne, ih hrest]
    rfl

/-- A key that was erased has no value. -/
theorem Keyed.get?_erase_self {α : Type} (t : Keyed α) (k : String) : (t.erase k).get? k = none := by
  unfold Keyed.get? Keyed.erase
  rw [List.find?_eq_none.2 fun p hp => ?_]
  · rfl
  · simpa using (List.mem_filter.1 hp).2

/-- Erasing a key leaves the others alone. -/
theorem Keyed.get?_erase_of_ne {α : Type} (t : Keyed α) {k k' : String} (h : k' ≠ k) :
    (t.erase k).get? k' = t.get? k' := by
  unfold Keyed.get? Keyed.erase
  rw [List.find?_filter]
  refine congrArg _ (congrArg (List.find? · t) (funext fun p => ?_))
  by_cases hp : p.1 = k'
  · simp [hp, h]
  · simp [hp]

/-- What is found in a table stands in it. -/
theorem Keyed.mem_of_get? {α : Type} {t : Keyed α} {k : String} {a : α} (h : t.get? k = some a) :
    ∃ p ∈ t, p.2 = a := by
  obtain ⟨p, hp, ha⟩ := Option.map_eq_some_iff.1 h
  exact ⟨p, List.mem_of_find?_eq_some hp, ha⟩

namespace Engine

variable {α : Type} (e : Engine)

/-! ## Queues -/

/-- Any queue after one queue was changed. -/
theorem queue_changeQueue (q p : QueueRef) (f : Queue → Queue) :
    (e.changeQueue q f).queue p =
      if q = p ∧ p < e.queues.size then f (e.queue p) else e.queue p := by
  simp only [changeQueue, queue, Array.getD_eq_getD_getElem?, Array.getElem?_modify]
  by_cases hp : p < e.queues.size
  · by_cases hqp : q = p <;> simp [hp, hqp]
  · simp [hp]

/-- The queue that was changed. -/
theorem queue_changeQueue_self {q : QueueRef} (hq : q < e.queues.size) (f : Queue → Queue) :
    (e.changeQueue q f).queue q = f (e.queue q) := by
  rw [queue_changeQueue, if_pos ⟨rfl, hq⟩]

/-- Other queues stay as they are. -/
theorem queue_changeQueue_of_ne {q p : QueueRef} (h : q ≠ p) (f : Queue → Queue) :
    (e.changeQueue q f).queue p = e.queue p := by
  rw [queue_changeQueue, if_neg fun hp => h hp.1]

/-- What a change leaves alone of one queue it leaves alone of all of them. -/
theorem queue_changeQueue_keep {f : Queue → Queue} {g : Queue → α} (h : ∀ x, g (f x) = g x)
    (q p : QueueRef) : g ((e.changeQueue q f).queue p) = g (e.queue p) := by
  rw [queue_changeQueue]
  split
  · exact h _
  · rfl

/-- A change makes no queue. -/
@[simp] theorem size_changeQueue (q : QueueRef) (f : Queue → Queue) :
    (e.changeQueue q f).queues.size = e.queues.size := by
  simp [changeQueue]

/-- A queue that is out of range is the default one. -/
theorem queue_of_size_le {q : QueueRef} (h : e.queues.size ≤ q) : e.queue q = default := by
  simp [queue, Array.getD_eq_getD_getElem?, h]

variable {e} in
/-- Engines with the same table have the same queues. -/
theorem queue_congr {e' : Engine} (h : e'.queues = e.queues) (q : QueueRef) : e'.queue q = e.queue q := by
  unfold queue
  rw [h]

/-- Two changes that agree on what is at a place are one. -/
theorem modify_congr {β : Type} [Inhabited β] {xs : Array β} {i : Nat} {f g : β → β}
    (h : f (xs.getD i default) = g (xs.getD i default)) : xs.modify i f = xs.modify i g := by
  refine Array.ext_getElem? fun j => ?_
  rw [Array.getElem?_modify, Array.getElem?_modify]
  by_cases hj : i = j
  · subst hj
    by_cases hi : i < xs.size
    · simp only [Array.getD_eq_getD_getElem?, Array.getElem?_eq_getElem hi, Option.getD_some] at h
      simp [hi, h]
    · simp [hi]
  · simp [hj]

/-- Only what a change does to the queue itself matters. -/
theorem changeQueue_congr {q : QueueRef} {f g : Queue → Queue} (h : f (e.queue q) = g (e.queue q)) :
    e.changeQueue q f = e.changeQueue q g := by
  unfold changeQueue
  rw [modify_congr h]

/-- A change that changes nothing. -/
theorem changeQueue_id (q : QueueRef) : e.changeQueue q id = e := by
  have same : e.queues.modify q id = e.queues := by
    refine Array.ext_getElem? fun i => ?_
    rw [Array.getElem?_modify]
    split <;> simp
  unfold changeQueue
  rw [same]

/-- Two changes of one queue are one. -/
theorem changeQueue_changeQueue (q : QueueRef) (f g : Queue → Queue) :
    (e.changeQueue q f).changeQueue q g = e.changeQueue q fun x => g (f x) := by
  have same : (e.queues.modify q f).modify q g = e.queues.modify q fun x => g (f x) := by
    refine Array.ext_getElem? fun i => ?_
    simp only [Array.getElem?_modify]
    split
    · rw [Option.map_map]
      rfl
    · rfl
  unfold changeQueue
  rw [same]

variable {e} in
/-- Queues are followed alike where the tables are the same. -/
theorem follow_congr {e' : Engine} (h : e'.queues = e.queues) (q : QueueRef) : e'.follow q = e.follow q := by
  have same (k : Nat) (q : QueueRef) : e'.followFor k q = e.followFor k q := by
    induction k generalizing q with
    | zero => rfl
    | succ k ih =>
      unfold followFor
      rw [queue_congr h]
      split
      · exact ih _
      · rfl
  unfold follow
  rw [h]
  exact same _ q

/-- A queue that was not replaced carries on its own entries. -/
theorem follow_self {q : QueueRef} (h : (e.queue q).replacedBy = none) : e.follow q = q := by
  unfold follow
  cases e.queues.size with
  | zero => rfl
  | succ fuel =>
    unfold followFor
    rw [h]

/-! ## Entries -/

/-- Any entry after one entry was changed. -/
theorem entry_changeEntry (n m : EntryRef) (f : Entry → Entry) :
    (e.changeEntry n f).entry m =
      if n = m ∧ m < e.entries.size then f (e.entry m) else e.entry m := by
  simp only [changeEntry, entry, Array.getD_eq_getD_getElem?, Array.getElem?_modify]
  by_cases hm : m < e.entries.size
  · by_cases hnm : n = m <;> simp [hm, hnm]
  · simp [hm]

/-- The entry that was changed. -/
theorem entry_changeEntry_self {n : EntryRef} (hn : n < e.entries.size) (f : Entry → Entry) :
    (e.changeEntry n f).entry n = f (e.entry n) := by
  rw [entry_changeEntry, if_pos ⟨rfl, hn⟩]

/-- Other entries stay as they are. -/
theorem entry_changeEntry_of_ne {n m : EntryRef} (h : n ≠ m) (f : Entry → Entry) :
    (e.changeEntry n f).entry m = e.entry m := by
  rw [entry_changeEntry, if_neg fun hm => h hm.1]

/-- What a change leaves alone of one entry it leaves alone of all of them. -/
theorem entry_changeEntry_keep {f : Entry → Entry} {g : Entry → α} (h : ∀ x, g (f x) = g x)
    (n m : EntryRef) : g ((e.changeEntry n f).entry m) = g (e.entry m) := by
  rw [entry_changeEntry]
  split
  · exact h _
  · rfl

/-- Only what a change does to the entry itself matters. -/
theorem changeEntry_congr {n : EntryRef} {f g : Entry → Entry} (h : f (e.entry n) = g (e.entry n)) :
    e.changeEntry n f = e.changeEntry n g := by
  unfold changeEntry
  rw [modify_congr h]

/-- A change that has no effect on an entry has none at all. -/
theorem changeEntry_self {n : EntryRef} {f : Entry → Entry} (h : f (e.entry n) = e.entry n) :
    e.changeEntry n f = e := by
  have same : e.entries.modify n id = e.entries := by
    refine Array.ext_getElem? fun i => ?_
    rw [Array.getElem?_modify]
    split <;> simp
  rw [changeEntry_congr (g := id) e h]
  unfold changeEntry
  rw [same]

/-- A change makes no entry. -/
@[simp] theorem size_changeEntry (n : EntryRef) (f : Entry → Entry) :
    (e.changeEntry n f).entries.size = e.entries.size := by
  simp [changeEntry]

/-- An entry that is out of range is the default one. -/
theorem entry_of_size_le {n : EntryRef} (h : e.entries.size ≤ n) : e.entry n = default := by
  simp [entry, Array.getD_eq_getD_getElem?, h]

variable {e} in
/-- Engines with the same table have the same entries. -/
theorem entry_congr {e' : Engine} (h : e'.entries = e.entries) (n : EntryRef) :
    e'.entry n = e.entry n := by
  unfold entry
  rw [h]

/-! ## Diagnostics -/

/-- A diagnostic changes the list of diagnostics at most. -/
theorem emit_eq (event : Event) (s : Scope) : ∃ events, e.emit event s = { e with events } := by
  unfold emit
  split
  · exact ⟨_, rfl⟩
  · exact ⟨_, rfl⟩

/-- So do several, one after the other. -/
theorem emitAll_eq {α : Type} (event : α → Event) (s : α → Scope) (notes : List α) :
    ∃ events, notes.foldl (fun e n => e.emit (event n) (s n)) e = { e with events } := by
  induction notes generalizing e with
  | nil => exact ⟨e.events, rfl⟩
  | cons n rest ih =>
    obtain ⟨events, first⟩ := e.emit_eq (event n) (s n)
    obtain ⟨events', later⟩ := ih (e.emit (event n) (s n))
    refine ⟨events', later.trans ?_⟩
    rw [first]

/-! ## New queues and entries -/

/-- The engine with another queue, which has a memory of its own. -/
def withQueue (x : Queue) : Engine :=
  { e with queues := e.queues.push x, memories := e.memories.push {} }

/-- The engine with another entry. -/
def withEntry (x : Entry) : Engine :=
  { e with entries := e.entries.push x }

/-- Any queue after one queue was made. -/
theorem queue_withQueue (x : Queue) (p : QueueRef) :
    (e.withQueue x).queue p = if p = e.queues.size then x else e.queue p := by
  simp only [withQueue, queue, Array.getD_eq_getD_getElem?, Array.getElem?_push]
  split <;> rfl

/-- Old queues stay as they are when one is made. -/
theorem queue_withQueue_of_lt {x : Queue} {p : QueueRef} (h : p < e.queues.size) :
    (e.withQueue x).queue p = e.queue p := by
  rw [queue_withQueue, if_neg (Nat.ne_of_lt h)]

/-- One queue more. -/
@[simp] theorem size_withQueue (x : Queue) : (e.withQueue x).queues.size = e.queues.size + 1 := by
  simp [withQueue]

/-- Any entry after one entry was made. -/
theorem entry_withEntry (x : Entry) (n : EntryRef) :
    (e.withEntry x).entry n = if n = e.entries.size then x else e.entry n := by
  simp only [withEntry, entry, Array.getD_eq_getD_getElem?, Array.getElem?_push]
  split <;> rfl

/-- One entry more. -/
@[simp] theorem size_withEntry (x : Entry) :
    (e.withEntry x).entries.size = e.entries.size + 1 := by
  simp [withEntry]

/-! ## Further entries -/

/-- The engine with further entries. -/
def grown (xs : List Entry) : Engine :=
  { e with entries := e.entries ++ xs.toArray }

/-- No entries are made. -/
@[simp] theorem grown_nil : e.grown [] = e := by
  simp [grown]

/-- As many entries more as were made. -/
@[simp] theorem size_grown (xs : List Entry) :
    (e.grown xs).entries.size = e.entries.size + xs.length := by
  simp [grown]

/-- Old entries stay as they are when some are made. -/
theorem entry_grown_of_lt {xs : List Entry} {m : EntryRef} (h : m < e.entries.size) :
    (e.grown xs).entry m = e.entry m := by
  simp [grown, entry, Array.getD_eq_getD_getElem?, Array.getElem?_append, h]

/-- The entries that were made stand behind the old ones, in their order. -/
theorem entry_grown {xs : List Entry} {i : Nat} {x : Entry} (h : xs[i]? = some x) :
    (e.grown xs).entry (e.entries.size + i) = x := by
  have behind : ¬ e.entries.size + i < e.entries.size := Nat.not_lt.2 (Nat.le_add_right _ _)
  simp [grown, entry, Array.getD_eq_getD_getElem?, Array.getElem?_append, h, behind]

theorem grown_grown (xs ys : List Entry) : (e.grown xs).grown ys = e.grown (xs ++ ys) := by
  simp [grown]

/-- One entry is made. -/
theorem grown_singleton (x : Entry) : e.grown [x] = e.withEntry x := by
  simp [grown, withEntry, ← Array.append_singleton]

/-- A change of an entry that was just made is a change of what it was made as. -/
theorem grown_changeEntry (xs : List Entry) (i : Nat) (f : Entry → Entry) :
    (e.grown xs).changeEntry (e.entries.size + i) f = e.grown (xs.modify i f) := by
  have table : (e.entries ++ xs.toArray).modify (e.entries.size + i) f =
      e.entries ++ (xs.modify i f).toArray := by
    refine Array.ext_getElem? fun j => ?_
    rw [Array.getElem?_modify, Array.getElem?_append, Array.getElem?_append]
    by_cases hj : j < e.entries.size
    · rw [if_pos hj, if_neg (Nat.ne_of_gt (Nat.lt_of_lt_of_le hj (Nat.le_add_right _ _))), if_pos hj]
    · obtain ⟨k, rfl⟩ := Nat.exists_eq_add_of_le (Nat.le_of_not_lt hj)
      by_cases hk : i = k <;> simp [hk, hj]
  exact congrArg (fun t => { e with entries := t }) table

/-- A list is changed behind its first part. -/
theorem modify_at {α : Type} (xs : List α) (x : α) (ys : List α) (f : α → α) :
    (xs ++ x :: ys).modify xs.length f = xs ++ f x :: ys := by
  induction xs with
  | nil => rfl
  | cons y rest ih => exact congrArg (y :: ·) ih

end Engine

/-! ## The history -/

/-- The queue that a step of the history is about. -/
def Step.queue : Step → QueueRef
  | .began q _ _ _ => q
  | .returned q _ _ => q

/-- The entry that a step of the history is about. -/
def Step.entry : Step → EntryRef
  | .began _ n _ _ => n
  | .returned _ n _ => n

/-- The second engine has the history of the first one, with further steps of queues from `s` on. -/
def Engine.Continues (s : QueueRef) (e e' : Engine) : Prop :=
  ∃ steps, e'.journal = steps ++ e.journal ∧ ∀ x ∈ steps, s ≤ x.queue

namespace Engine.Continues

variable {s s' : QueueRef} {e e' e'' : Engine}

/-- A journal that is the same continues. -/
theorem of_same (h : e'.journal = e.journal) : e.Continues s e' :=
  ⟨[], h, fun _ hx => absurd hx List.not_mem_nil⟩

/-- What continues a continuation continues the beginning. -/
theorem trans (h : e.Continues s e') (h' : e'.Continues s' e'') (hs : s ≤ s') :
    e.Continues s e'' := by
  obtain ⟨xs, hxs, old⟩ := h
  obtain ⟨ys, hys, new⟩ := h'
  refine ⟨ys ++ xs, by rw [hys, hxs, List.append_assoc], fun x hx => ?_⟩
  rcases List.mem_append.1 hx with hx | hx
  · exact Nat.le_trans hs (new x hx)
  · exact old x hx

/-- One step more in the journal, on a queue that is new enough. -/
theorem note (e : Engine) {x : Step} (hx : s ≤ x.queue) :
    e.Continues s { e with journal := x :: e.journal } :=
  ⟨[x], rfl, fun y hy => by rwa [List.mem_singleton.1 hy]⟩

/-- The journal never gets shorter. -/
theorem length_le (h : e.Continues s e') : e.journal.length ≤ e'.journal.length := by
  obtain ⟨xs, hxs, -⟩ := h
  rw [hxs, List.length_append]
  exact Nat.le_add_left _ _

/-- No step ever leaves the journal. -/
theorem mem (h : e.Continues s e') {x : Step} (hx : x ∈ e.journal) : x ∈ e'.journal := by
  obtain ⟨xs, hxs, -⟩ := h
  rw [hxs]
  exact List.mem_append_right _ hx

end Engine.Continues

end QueueScript
