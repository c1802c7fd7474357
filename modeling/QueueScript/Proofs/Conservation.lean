import QueueScript.Proofs.HeldEntries

/-!
# Entries are neither lost nor doubled

An entry is pending on one queue at most, and only before it is begun, so that it is begun once at most
(`Engine.Placed`).  The queue that it is pending on is the one that it resides on, whatever replacements
there were, as long as the host puts entries only on queues that were not replaced
(`Operation.Spares`).

Where entries go is told by comparing the engines before and after an operation (`Engine.Accounted`).  An
entry that was pending, or that was made meanwhile, is pending on the queue that its own queue leads to,
or was begun, or was dropped by the end of a loop that was begun before it, or that queue was stopped.
-/

namespace QueueScript

/-- The operation puts no entries on a queue that was replaced. -/
def Operation.Spares (e : Engine) : Operation → Prop
  | .append q _ | .inject q _ => (e.queue q).replacedBy = none
  | _ => True

/-- Nor does it replace a queue that has ended. -/
def Operation.Continues (e : Engine) (op : Operation) : Prop :=
  op.Spares e ∧ ∀ q delay, op = .forceToTimed q delay → (e.queue q).state.isEnd = false

namespace Engine

/-- What is pending on all queues together. -/
def allPending (e : Engine) : List EntryRef :=
  e.queues.toList.flatMap Queue.pending

/-! ## Where entries are pending -/

/-- An entry that a queue begins has been begun once more. -/
theorem begins_begun_self (e : Engine) (q : QueueRef) (n : EntryRef) (rest : List EntryRef) :
    (e.begun q n rest).begins n = e.begins n + 1 :=
  List.countP_cons_of_pos (by simp [Step.isBegin])

/-- Entries that are not there were not begun. -/
theorem Orderly.begins_new {e : Engine} (h : e.Orderly) {n : EntryRef} (hn : e.entries.size ≤ n) :
    e.begins n = 0 := by
  refine List.countP_eq_zero.2 fun s hs hb => ?_
  cases s with
  | began q m before previous =>
    obtain rfl : m = n := eq_of_beq hb
    exact absurd (h.traced hs).2 (Nat.not_lt.2 hn)
  | returned q m ran => cases hb

/-- Entries are pending once on a queue and only before they are begun, they are begun once, and nothing
is pending on queues that were replaced. -/
structure Placed (e : Engine) : Prop where
  nodup (q : QueueRef) : (e.queue q).pending.Nodup
  unbegun {q : QueueRef} {n : EntryRef} : n ∈ (e.queue q).pending → e.begins n = 0
  once (n : EntryRef) : e.begins n ≤ 1
  emptied {q t : QueueRef} : (e.queue q).replacedBy = some t → (e.queue q).pending = []

namespace Placed

variable {e e' : Engine} {q : QueueRef}

/-- A queue with pending entries is the last one of its line. -/
theorem current (h : e.Placed) {n : EntryRef} (hn : n ∈ (e.queue q).pending) :
    (e.queue q).replacedBy = none := by
  cases hr : (e.queue q).replacedBy with
  | none => rfl
  | some t =>
    rw [h.emptied hr] at hn
    cases hn

/-- An entry that is pending runs on the queue that it is pending on. -/
theorem residingQueue (ho : e.Orderly) (h : e.Placed) {n : EntryRef} (hn : n ∈ (e.queue q).pending) :
    e.residingQueue n = some q := by
  unfold Engine.residingQueue
  rw [ho.settled hn]
  exact congrArg some (e.follow_self (h.current hn))

/-- Over all queues together, entries are pending once. -/
theorem nodup_allPending (ho : e.Orderly) (h : e.Placed) : e.allPending.Nodup := by
  have queue {i : Nat} (hi : i < e.queues.toList.length) : e.queues.toList[i] = e.queue i := by
    have hi : i < e.queues.size := hi
    simp [Engine.queue, Array.getD_eq_getD_getElem?, hi]
  refine List.nodup_flatMap.2 ⟨fun x hx => ?_, List.pairwise_iff_getElem.2 fun i j hi hj hij => ?_⟩
  · obtain ⟨i, hi, rfl⟩ := List.getElem_of_mem hx
    rw [queue hi]
    exact h.nodup i
  · intro n hni hnj
    rw [queue] at hni hnj
    exact absurd (ho.pending_unique hni hnj) (Nat.ne_of_lt hij)

/-- Entries are taken off queues, and none is begun. -/
theorem fewer (h : e.Placed) (hp : ∀ p, (e'.queue p).pending.Sublist (e.queue p).pending)
    (hr : ∀ p, (e'.queue p).replacedBy = (e.queue p).replacedBy)
    (hb : ∀ n, e'.begins n = e.begins n) : e'.Placed where
  nodup p := (h.nodup p).sublist (hp p)
  unbegun {p n} hn := (hb n).trans (h.unbegun ((hp p).subset hn))
  once n := by
    rw [hb]
    exact h.once n
  emptied {p t} ht := by
    rw [hr] at ht
    have sub := hp p
    rw [h.emptied ht] at sub
    exact List.sublist_nil.1 sub

/-- Nothing moves, and entries are where they should be. -/
theorem quiet (h : e.Placed) (hq : e.Quiet e') : e'.Placed := by
  refine h.fewer (fun p => ?_) (fun p => (hq.queue p).replacedBy) (begins_congr hq.journal)
  rw [(hq.queue p).pending]

/-- A queue changes, but it is replaced no more than before, and what is pending on it was. -/
theorem changeQueue (h : e.Placed) {f : Queue → Queue} (hp : ∀ x, (f x).pending.Sublist x.pending)
    (hr : ∀ x, (f x).replacedBy = x.replacedBy) : (e.changeQueue q f).Placed := by
  refine h.fewer (fun p => ?_) (e.queue_changeQueue_keep hr q) fun _ => rfl
  rw [e.queue_changeQueue]
  split
  · exact hp _
  · exact List.Sublist.refl _

/-- Something is noted that begins no entry. -/
theorem noted (h : e.Placed) {fired : List Firing} {journal : List Step}
    (hj : ∀ n, journal.countP (·.isBegin n) = e.begins n) : Placed { e with fired, journal } :=
  h.fewer (fun _ => .refl _) (fun _ => rfl) hj

/-- A queue starts, and entries are where they should be. -/
theorem launch (h : e.Placed) : (e.launched q).Placed :=
  (h.changeQueue (q := q) (f := ({ · with state := .running })) (fun _ => .refl _) fun _ => rfl).fewer
    (fun _ => .refl _) (fun _ => rfl) fun _ => rfl

/-- Entries that are put on a queue are where they should be. -/
theorem put (ho : e.Orderly) (h : e.Placed) (hq : q < e.queues.size)
    (hr : (e.queue q).replacedBy = none) {xs ys : List Entry} {f : List EntryRef → List EntryRef}
    (hf : e.Fills q xs ys f) : ((e.grown xs).put q ys f).Placed := by
  let x := e.grown xs
  have here := x.queue_put q ys f hq
  have new (i : Nat) : e.entries.size ≤ x.entries.size + i := by
    show _ ≤ (e.grown xs).entries.size + i
    rw [e.size_grown, Nat.add_assoc]
    exact Nat.le_add_right _ _
  have fresh : ((e.queue q).pending ++ List.range' x.entries.size ys.length).Nodup := by
    refine (h.nodup q).append List.nodup_range' fun n hn hnew => ?_
    have later := Nat.le_trans (new 0) (List.mem_range'_1.1 hnew).1
    exact Nat.not_lt.2 later (ho.healthy.tidy.pending q n hn).1
  refine ⟨fun p => ?_, fun {p n} hn => ?_, h.once, fun {p t} ht => ?_⟩
  · by_cases hp : q = p
    · rw [← hp, here]
      exact hf.perm.nodup_iff.2 fresh
    · rw [x.queue_put_of_ne q ys f hp]
      exact h.nodup p
  · by_cases hp : q = p
    · rw [← hp, here] at hn
      rcases hf.mem hn with hn | ⟨i, _, rfl, -⟩
      · exact h.unbegun hn
      · exact ho.begins_new (new i)
    · rw [x.queue_put_of_ne q ys f hp] at hn
      exact h.unbegun hn
  · by_cases hp : q = p
    · rw [← hp, here] at ht
      have current : (x.queue q).replacedBy = none := hr
      rw [current] at ht
      cases ht
    · rw [x.queue_put_of_ne q ys f hp] at ht ⊢
      exact h.emptied ht

/-- A new queue has no entries that could be elsewhere. -/
theorem make (h : e.Placed) {x : Queue} (hx : x.IsNew) : (e.withQueue x).Placed := by
  refine ⟨fun p => ?_, fun {p n} hn => ?_, h.once, fun {p t} ht => ?_⟩
  · rw [e.queue_withQueue]
    split
    · rw [hx.pending]
      exact List.nodup_nil
    · exact h.nodup p
  · rw [e.queue_withQueue] at hn
    split at hn
    · rw [hx.pending] at hn
      cases hn
    · exact h.unbegun hn
  · rw [e.queue_withQueue] at ht ⊢
    split at ht
    · rw [hx.replacedBy] at ht
      cases ht
    · rename_i hp
      rw [if_neg hp]
      exact h.emptied ht

/-- A queue ends, and entries are where they should be. -/
theorem close (h : e.Placed) {s : QueueState} (hs : s.isEnd = true) (hc : e.Closes q s e') :
    e'.Placed := by
  refine h.fewer (fun p => ?_) hc.replaced (begins_congr hc.journal)
  by_cases hp : p = q
  · rw [hp]
    rcases hc.pending hs with same | ⟨-, none⟩
    · rw [same]
    · rw [none]
      exact List.nil_sublist _
  · rw [hc.other hp]

/-- The replacement of a queue has taken its entries over. -/
theorem convert (h : e.Placed) (hc : e.Converts q e') : e'.Placed := by
  have begins := begins_congr hc.journal
  refine ⟨fun p => ?_, fun {p n} hn => ?_, fun n => ?_, fun {p t} ht => ?_⟩
  · by_cases ht : p = e.queues.size
    · rw [ht, hc.newPending]
      exact h.nodup q
    · by_cases hp : p = q
      · rw [hp, hc.old]
        exact List.nodup_nil
      · rw [hc.other hp ht]
        exact h.nodup p
  · rw [begins]
    rcases hc.pending hn with ⟨-, hn⟩ | ⟨-, -, hn⟩
    · exact h.unbegun hn
    · exact h.unbegun hn
  · rw [begins]
    exact h.once n
  · by_cases hnew : p = e.queues.size
    · rw [hnew, hc.newReplacedBy] at ht
      cases ht
    · by_cases hp : p = q
      · rw [hp, hc.old]
      · rw [hc.other hp hnew] at ht ⊢
        exact h.emptied ht

/-- An entry that is begun is not pending any more. -/
theorem begun (ho : e.Orderly) (h : e.Placed) {n : EntryRef} {rest : List EntryRef}
    (hq : q < e.queues.size) (hp : (e.queue q).pending = n :: rest) : (e.begun q n rest).Placed := by
  have here := e.queue_begun hq n rest
  have head : n ∈ (e.queue q).pending := by
    rw [hp]
    exact List.mem_cons_self
  have first : n ∉ rest ∧ rest.Nodup := by
    have nodup := h.nodup q
    rw [hp] at nodup
    exact List.nodup_cons.1 nodup
  refine ⟨fun p => ?_, fun {p m} hm => ?_, fun m => ?_, fun {p t} ht => ?_⟩
  · by_cases hpq : p = q
    · rw [hpq, here]
      exact first.2
    · rw [e.queue_begun_of_ne hpq]
      exact h.nodup p
  · by_cases hpq : p = q
    · rw [hpq, here] at hm
      have other : n ≠ m := fun hnm => first.1 (hnm ▸ hm)
      rw [e.begins_begun other]
      exact h.unbegun (q := q) (by rw [hp]; exact List.mem_cons_of_mem _ hm)
    · rw [e.queue_begun_of_ne hpq] at hm
      have other : n ≠ m := fun hnm => hpq (ho.pending_unique (hnm ▸ hm) head)
      rw [e.begins_begun other]
      exact h.unbegun hm
  · by_cases hnm : n = m
    · rw [← hnm, e.begins_begun_self, h.unbegun head]
    · rw [e.begins_begun hnm]
      exact h.once m
  · rw [e.queue_begun_keep q n rest (g := Queue.replacedBy) (fun _ _ => rfl) fun _ _ => rfl] at ht
    by_cases hpq : p = q
    · rw [hpq] at ht
      rw [h.emptied ht] at hp
      cases hp
    · rw [e.queue_begun_of_ne hpq]
      exact h.emptied ht

end Placed

/-! ## Where entries go -/

/-- The entry was pending, or was made since and is no base entry. -/
def Watches (e e' : Engine) (n : EntryRef) : Prop :=
  e'.Live n ∧ (n < e.entries.size → ∃ p, n ∈ (e.queue p).pending)

/-- The entry was pending when an entry was begun that may end a loop early, or its current iteration. -/
def Drops (e e' : Engine) (n : EntryRef) : Prop :=
  ∃ new q m before previous, e'.journal = new ++ e.journal ∧ Step.began q m before previous ∈ new ∧
    n ∈ before.pending ∧ m < e'.entries.size ∧ (e'.entry m).code.LeavesLoop

/-- The queue has been stopped since, and not by a replacement. -/
def Stops (e e' : Engine) (q : QueueRef) : Prop :=
  (e.queue q).state.isEnd = false ∧ (e'.queue q).state = .stopped ∧ (e'.queue q).replacedBy = none

/-- What became of an entry: the queue that it was pending on leads to one on which it still is pending,
or it was begun, or dropped by the end of a loop, or by the end of its queue. -/
def Fate (e e' : Engine) (n : EntryRef) : Prop :=
  ∃ t, (e'.entry n).residing = some t ∧ (∀ p, n ∈ (e.queue p).pending → e'.LeadsTo p t) ∧
    (n ∈ (e'.queue t).pending ∨ 0 < e'.begins n ∨ e.Drops e' n ∨ e.Stops e' t)

/-- Since the first engine entries have come and the history has grown, no queue has come back from its
end, and it is known what became of every entry. -/
structure Accounted (e₀ e : Engine) : Prop where
  entries : e₀.entries.size ≤ e.entries.size
  ended {q : QueueRef} : (e₀.queue q).state.isEnd = true → (e.queue q).state.isEnd = true
  history : ∃ new, e.journal = new ++ e₀.journal
  fate {n : EntryRef} : e₀.Watches e n → e₀.Fate e n

/-- No queue that was there is replaced or comes back from its end, and entries stay where they reside. -/
structure Passes (e e' : Engine) : Prop where
  entries : e.entries.size ≤ e'.entries.size
  base {n : EntryRef} : e.IsBase n → e'.IsBase n
  code {n : EntryRef} : n < e.entries.size → (e'.entry n).code = (e.entry n).code
  residing {n : EntryRef} : n < e.entries.size → (e'.entry n).residing = (e.entry n).residing
  replacedBy {q : QueueRef} : q < e.queues.size → (e'.queue q).replacedBy = (e.queue q).replacedBy
  ended {q : QueueRef} : (e.queue q).state.isEnd = true → (e'.queue q).state = (e.queue q).state
  history : ∃ new, e'.journal = new ++ e.journal

/-- A queue that has ended is there. -/
theorem queue_lt_of_isEnd {e : Engine} {q : QueueRef} (h : (e.queue q).state.isEnd = true) :
    q < e.queues.size := by
  refine Nat.lt_of_not_le fun hle => ?_
  rw [e.queue_of_size_le hle] at h
  cases h

/-- A queue that was replaced is there. -/
theorem queue_lt_of_replacedBy {e : Engine} {q t : QueueRef} (h : (e.queue q).replacedBy = some t) :
    q < e.queues.size := by
  refine Nat.lt_of_not_le fun hle => ?_
  rw [e.queue_of_size_le hle] at h
  cases h

/-- A queue with pending entries is there. -/
theorem queue_lt_of_pending {e : Engine} {q : QueueRef} {n : EntryRef} (h : n ∈ (e.queue q).pending) :
    q < e.queues.size := by
  refine Nat.lt_of_not_le fun hle => ?_
  rw [e.queue_of_size_le hle] at h
  cases h

namespace Accounted

variable {e₀ e e' : Engine} {q : QueueRef}

/-- At first every entry that is looked at is where it was. -/
theorem first (ho : e.Orderly) : e.Accounted e where
  entries := Nat.le_refl _
  ended h := h
  history := ⟨[], rfl⟩
  fate {n} hn := by
    obtain ⟨p, hp⟩ := hn.2 hn.1.1
    refine ⟨p, ho.settled hp, fun p' hp' => ?_, .inl hp⟩
    rw [ho.pending_unique hp' hp]
    exact .here p

/-- An entry that was begun stays begun. -/
theorem begins_le {new : List Step} (h : e'.journal = new ++ e.journal) (n : EntryRef) :
    e.begins n ≤ e'.begins n := by
  unfold begins
  rw [h, List.countP_append]
  exact Nat.le_add_left _ _

/-- What was dropped early stays so. -/
theorem drops_later {new : List Step} (hj : e'.journal = new ++ e.journal)
    (hsize : e.entries.size ≤ e'.entries.size)
    (hc : ∀ m, m < e.entries.size → (e'.entry m).code = (e.entry m).code) {n : EntryRef}
    (h : e₀.Drops e n) : e₀.Drops e' n := by
  obtain ⟨old, q, m, before, previous, hold, hm, hn, there, leaves⟩ := h
  refine ⟨new ++ old, q, m, before, previous, ?_, List.mem_append_right _ hm, hn,
    Nat.lt_of_lt_of_le there hsize, ?_⟩
  · rw [hj, hold, List.append_assoc]
  · rwa [hc m there]

/-- No queue is replaced.  What was pending is pending on the same queue, or something has become of it,
and what is new is pending. -/
theorem grow (h : e₀.Accounted e) (ho₀ : e₀.Orderly) (hp : e.Passes e')
    (hold : ∀ n q, n ∈ (e.queue q).pending → e₀.Watches e' n →
      n ∈ (e'.queue q).pending ∨ 0 < e'.begins n ∨ e₀.Drops e' n ∨ e₀.Stops e' q)
    (hnew : ∀ n, e.entries.size ≤ n → e'.Live n →
      ∃ t, (e'.entry n).residing = some t ∧ n ∈ (e'.queue t).pending) : e₀.Accounted e' := by
  obtain ⟨new, hj⟩ := hp.history
  refine ⟨Nat.le_trans h.entries hp.entries, fun hq => ?_, ?_, fun {n} hn => ?_⟩
  · have ended := h.ended hq
    rw [hp.ended ended]
    exact ended
  · obtain ⟨old, hold⟩ := h.history
    exact ⟨new ++ old, by rw [hj, hold, List.append_assoc]⟩
  by_cases hsize : n < e.entries.size
  · obtain ⟨t, residing, leads, fate⟩ := h.fate ⟨⟨hsize, fun hb => hn.1.2 (hp.base hb)⟩, hn.2⟩
    refine ⟨t, (hp.residing hsize).trans residing, fun p hmem => (leads p hmem).kept fun a b hr => ?_, ?_⟩
    · exact (hp.replacedBy (queue_lt_of_replacedBy hr)).trans hr
    · rcases fate with pending | begun | dropped | ⟨alive, stopped, current⟩
      · exact hold n t pending hn
      · exact .inr (.inl (Nat.lt_of_lt_of_le begun (begins_le hj n)))
      · exact .inr (.inr (.inl (drops_later hj hp.entries (fun _ => hp.code) dropped)))
      · have ended : (e.queue t).state.isEnd = true := by
          rw [stopped]
          rfl
        refine .inr (.inr (.inr ⟨alive, (hp.ended ended).trans stopped, ?_⟩))
        exact (hp.replacedBy (queue_lt_of_isEnd ended)).trans current
  · obtain ⟨t, residing, pending⟩ := hnew n (Nat.le_of_not_lt hsize) hn.1
    refine ⟨t, residing, fun p hmem => absurd ?_ hsize, .inl pending⟩
    exact Nat.lt_of_lt_of_le (ho₀.healthy.tidy.pending p n hmem).1 h.entries

/-- No queue is replaced, and no entry is new. -/
theorem pass (h : e₀.Accounted e) (ho₀ : e₀.Orderly) (hp : e.Passes e')
    (hn : e'.entries.size = e.entries.size)
    (hold : ∀ n q, n ∈ (e.queue q).pending → e₀.Watches e' n →
      n ∈ (e'.queue q).pending ∨ 0 < e'.begins n ∨ e₀.Drops e' n ∨ e₀.Stops e' q) :
    e₀.Accounted e' :=
  h.grow ho₀ hp hold fun _ hle live => absurd (Nat.lt_of_lt_of_eq live.1 hn) (Nat.not_lt.2 hle)

end Accounted

namespace Passes

variable {e e' : Engine} {q : QueueRef}

/-- The lives of queues are as they were, and entries where they were. -/
theorem of_lives (h : e.SameLives e') (hs : e'.scripts = e.scripts) (hn : e'.entries = e.entries)
    (hj : ∃ new, e'.journal = new ++ e.journal) : e.Passes e' where
  entries := Nat.le_of_eq (congrArg Array.size hn.symm)
  base := (isBase_of_tables hs hn).2
  code _ := by rw [entry_congr hn]
  residing _ := by rw [entry_congr hn]
  replacedBy _ := h.replacedBy _
  ended _ := h.state _
  history := hj

/-- Nothing moves. -/
theorem of_quiet (h : e.Quiet e') (hg : e.Grows e') : e.Passes e' where
  entries := h.entries
  base := hg.kept
  code := h.code
  residing := h.residing
  replacedBy _ := (h.queue _).replacedBy
  ended _ := (h.queue _).state
  history := ⟨[], h.journal⟩

/-- Entries are put on a queue. -/
theorem of_put (e : Engine) (q : QueueRef) (xs ys : List Entry) (f : List EntryRef → List EntryRef) :
    e.Passes ((e.grown xs).put q ys f) where
  entries := Fills.entries q xs ys f
  base hb := (hb.grown xs).grown ys
  code hn := by rw [Fills.entry_old xs ys f hn]
  residing hn := by rw [Fills.entry_old xs ys f hn]
  replacedBy _ := (e.grown xs).queue_put_keep q ys f (fun _ _ => rfl) _
  ended _ := (e.grown xs).queue_put_keep q ys f (fun _ _ => rfl) _
  history := ⟨[], rfl⟩

/-- A queue is made. -/
theorem make (e : Engine) (x : Queue) : e.Passes (e.withQueue x) where
  entries := Nat.le_refl _
  base := id
  code _ := rfl
  residing _ := rfl
  replacedBy hq := by rw [e.queue_withQueue_of_lt hq]
  ended hq := by rw [e.queue_withQueue_of_lt (queue_lt_of_isEnd hq)]
  history := ⟨[], rfl⟩

/-- A queue that has not ended changes. -/
theorem changeQueue {f : Queue → Queue} (hend : (e.queue q).state.isEnd = false)
    (hr : ∀ x, (f x).replacedBy = x.replacedBy) : e.Passes (e.changeQueue q f) where
  entries := Nat.le_refl _
  base := id
  code _ := rfl
  residing _ := rfl
  replacedBy _ := e.queue_changeQueue_keep hr q _
  ended {p} hp := by
    have other : q ≠ p := by
      rintro rfl
      rw [hp] at hend
      cases hend
    rw [e.queue_changeQueue_of_ne other]
  history := ⟨[], rfl⟩

/-- A queue ends that had not. -/
theorem close {s : QueueState} (hend : (e.queue q).state.isEnd = false) (hc : e.Closes q s e')
    (hg : e.Grows e') : e.Passes e' where
  entries := Nat.le_of_eq hc.entries.symm
  base := hg.kept
  code _ := hc.code _
  residing _ := hc.residing _
  replacedBy _ := hc.replaced _
  ended {p} hp := by
    have other : p ≠ q := by
      rintro rfl
      rw [hp] at hend
      cases hend
    rw [hc.other other]
  history := ⟨[], hc.journal⟩

end Passes

namespace Accounted

variable {e₀ e e' : Engine} {q : QueueRef}

section Moments

variable (h : e₀.Accounted e) (ho₀ : e₀.Orderly)

include h ho₀

/-- Nothing moves, and every entry is accounted for. -/
theorem quiet (hq : e.Quiet e') (hg : e.Grows e') : e₀.Accounted e' := by
  refine h.grow ho₀ (.of_quiet hq hg) (fun n q hn _ => .inl ?_) fun n hle live => absurd live (hq.made hle)
  rwa [(hq.queue q).pending]

/-- A queue that has not ended changes, and what is pending on it does not. -/
theorem changeQueue {f : Queue → Queue} (hend : (e.queue q).state.isEnd = false)
    (hr : ∀ x, (f x).replacedBy = x.replacedBy) (hp : ∀ x, (f x).pending = x.pending) :
    e₀.Accounted (e.changeQueue q f) := by
  refine h.pass ho₀ (.changeQueue hend hr) rfl fun n p hn _ => .inl ?_
  rwa [e.queue_changeQueue_keep hp q p]

/-- A queue starts, and every entry is accounted for. -/
theorem launch (hidle : (e.queue q).state = .idle) : e₀.Accounted (e.launched q) := by
  have changed : e.Passes (e.changeQueue q ({ · with state := .running })) :=
    .changeQueue (by rw [hidle]; rfl) fun _ => rfl
  have passes : e.Passes (e.launched q) := ⟨changed.entries, id, changed.code, changed.residing,
    changed.replacedBy, changed.ended, changed.history⟩
  refine h.pass ho₀ passes rfl fun n p hn _ => .inl ?_
  have same : ((e.launched q).queue p).pending = (e.queue p).pending :=
    e.queue_changeQueue_keep (f := ({ · with state := .running })) (g := Queue.pending) (fun _ => rfl) q p
  rwa [same]

/-- Entries are put on a queue, and every one of them is accounted for. -/
theorem fill (hq : q < e.queues.size) {xs ys : List Entry} {f : List EntryRef → List EntryRef}
    (hf : e.Fills q xs ys f) : e₀.Accounted ((e.grown xs).put q ys f) := by
  have here := (e.grown xs).queue_put q ys f hq
  refine h.grow ho₀ (.of_put e q xs ys f) (fun n p hn _ => .inl ?_) fun n hle live => ?_
  · by_cases hp : q = p
    · rw [← hp] at hn ⊢
      rw [here]
      exact hf.perm.mem_iff.2 (List.mem_append_left _ hn)
    · rwa [(e.grown xs).queue_put_of_ne q ys f hp]
  · obtain ⟨pending, residing⟩ := hf.pending_of_live hle live
    refine ⟨q, residing, ?_⟩
    rw [here]
    exact pending

/-- A queue is made, and every entry is accounted for. -/
theorem make (x : Queue) : e₀.Accounted (e.withQueue x) := by
  refine h.pass ho₀ (.make e x) rfl fun n p hn _ => .inl ?_
  rwa [e.queue_withQueue_of_lt (queue_lt_of_pending hn)]

/-- What is dropped when a queue ends is dropped since it is stopped. -/
theorem close {s : QueueState} (hend : (e.queue q).state.isEnd = false) (hs : s.isEnd = true)
    (hl : e.Listed) (hc : e.Closes q s e') (hg : e.Grows e') : e₀.Accounted e' := by
  refine h.pass ho₀ (.close hend hc hg) hc.entries fun n p hn _ => ?_
  by_cases hp : p = q
  · rw [hp] at hn ⊢
    rcases hc.pending hs with same | ⟨stopped, -⟩
    · exact .inl (by rwa [same])
    · refine .inr (.inr (.inr ⟨?_, hc.state.trans stopped, ?_⟩))
      · refine Bool.eq_false_iff.2 fun hq => ?_
        rw [h.ended hq] at hend
        cases hend
      · rw [hc.replacedBy]
        refine hl.current fun hq => ?_
        rw [hq] at hend
        cases hend
  · exact .inl (by rwa [hc.other hp])

/-- An entry is begun, and that is its fate. -/
theorem begun {n : EntryRef} {rest : List EntryRef} (hq : q < e.queues.size)
    (hp : (e.queue q).pending = n :: rest) : e₀.Accounted (e.begun q n rest) := by
  refine h.pass ho₀ (.of_lives (.of_begun e q n rest) rfl rfl ⟨[_], rfl⟩) rfl fun m p hm _ => ?_
  by_cases hpq : p = q
  · rw [hpq] at hm ⊢
    rw [hp] at hm
    rcases List.mem_cons.1 hm with rfl | hm
    · rw [e.begins_begun_self]
      exact .inr (.inl (Nat.succ_pos _))
    · exact .inl (by rwa [e.queue_begun hq])
  · exact .inl (by rwa [e.queue_begun_of_ne hpq])

/-- A queue comes back from an entry, and every other one is accounted for. -/
theorem back (q : QueueRef) (n : EntryRef) (ran : Bool) :
    e₀.Accounted { e with journal := .returned q n ran :: e.journal } := by
  refine h.pass ho₀ (.of_lives ?_ rfl rfl ⟨[_], rfl⟩) rfl fun m p hm _ => .inl hm
  exact ⟨rfl, fun _ => rfl, fun _ => rfl, fun _ => rfl, fun _ => rfl, rfl, rfl⟩

/-- Calls of the host are noted. -/
theorem call (fired : List Firing) : e₀.Accounted { e with fired } :=
  h.pass ho₀ ⟨Nat.le_refl _, id, fun _ => rfl, fun _ => rfl, fun _ => rfl, fun _ => rfl, [], rfl⟩ rfl
    fun _ _ hn _ => .inl hn

/-- What leaving a loop drops was pending when the entry that leaves it was begun. -/
theorem drop (hu₀ : e₀.underway = []) (hp : e.Placed) {n : EntryRef} (count : Nat) (hx : e.Executes q n)
    (hc : (e.entry n).code.LeavesLoop) :
    e₀.Accounted (e.changeQueue q fun x => { x with pending := x.pending.drop count }) := by
  obtain ⟨new, hj⟩ := h.history
  obtain ⟨before, previous, hb, hpending⟩ := hx.began
  -- The entry is under way, so it was begun since, and it was begun once only.
  have lately : Step.began q n before previous ∈ new := by
    have under : (q, n) ∈ Step.underway (new ++ e₀.journal) := by
      rw [← hj]
      exact List.mem_of_mem_head? hx.innermost
    obtain ⟨_, _, since⟩ := (Step.began_since under).resolve_right fun hold => by
      rw [show Step.underway e₀.journal = [] from hu₀] at hold
      cases hold
    rw [hj] at hb
    refine (List.mem_append.1 hb).resolve_right fun earlier => ?_
    have twice : 2 ≤ e.begins n := by
      unfold begins
      rw [hj, List.countP_append]
      exact Nat.add_le_add (List.countP_pos_iff.2 ⟨_, since, beq_self_eq_true n⟩)
        (List.countP_pos_iff.2 ⟨_, earlier, beq_self_eq_true n⟩)
    exact absurd (hp.once n) (Nat.not_le.2 twice)
  refine h.pass ho₀ (.changeQueue (by rw [hx.running]; rfl) fun _ => rfl) rfl fun m p hm _ => ?_
  by_cases hpq : q = p
  · rw [← hpq, ← hpending] at hm
    exact .inr (.inr (.inl ⟨new, q, n, before, previous, hj, lately, hm, hx.entry, hc⟩))
  · exact .inl (by rwa [e.queue_changeQueue_of_ne hpq])

omit ho₀ in
/-- A queue that has not ended is replaced, and its entries go to the end of a line. -/
theorem convert (ho : e.Orderly) (hl : e.Listed) (hend : (e.queue q).state.isEnd = false)
    (hc : e.Converts q e') (hg : e.Grows e') : e₀.Accounted e' := by
  have notEnded {p : QueueRef} (hp : (e.queue p).state.isEnd = true) :
      e'.queue p = e.queue p := by
    refine hc.other ?_ (Nat.ne_of_lt (queue_lt_of_isEnd hp))
    rintro rfl
    rw [hp] at hend
    cases hend
  have current : (e.queue q).replacedBy = none := by
    refine hl.current fun hq => ?_
    rw [hq] at hend
    cases hend
  have kept {p t : QueueRef} (hleads : e.LeadsTo p t) : e'.LeadsTo p t := by
    refine hleads.kept fun a b hr => ?_
    have other : a ≠ q := by
      rintro rfl
      rw [current] at hr
      cases hr
    rw [hc.other other (Nat.ne_of_lt (queue_lt_of_replacedBy hr))]
    exact hr
  have begins := begins_congr hc.journal
  refine ⟨Nat.le_trans h.entries (Nat.le_of_eq hc.moved.size.symm), fun {p} hp => ?_, ?_, fun {n} hn => ?_⟩
  · have ended := h.ended hp
    rwa [notEnded ended]
  · obtain ⟨old, hold⟩ := h.history
    exact ⟨old, hc.journal.trans hold⟩
  have size : n < e.entries.size := Nat.lt_of_lt_of_eq hn.1.1 hc.moved.size
  obtain ⟨t, residing, leads, fate⟩ := h.fate ⟨⟨size, fun hb => hn.1.2 (hg.kept hb)⟩, hn.2⟩
  by_cases hmem : n ∈ (e.queue q).pending
  · obtain rfl : t = q := Option.some.inj (residing.symm.trans (ho.settled hmem))
    refine ⟨e.queues.size, hc.moved.residing hmem size, fun p hp => ?_, .inl ?_⟩
    · exact (kept (leads p hp)).concat (by rw [hc.old])
    · rwa [hc.newPending]
  · refine ⟨t, (hc.moved.other hmem).trans residing, fun p hp => kept (leads p hp), ?_⟩
    rcases fate with pending | begun | dropped | ⟨alive, stopped, last⟩
    · have other : t ≠ q := by
        rintro rfl
        exact hmem pending
      have old : t ≠ e.queues.size := Nat.ne_of_lt (queue_lt_of_pending pending)
      exact .inl (by rwa [hc.other other old])
    · exact .inr (.inl (by rwa [begins]))
    · exact .inr (.inr (.inl (drops_later (show e'.journal = [] ++ e.journal from hc.journal)
        (Nat.le_of_eq hc.moved.size.symm)
        (fun m _ => hc.moved.code m) dropped)))
    · have same := notEnded (p := t) (by rw [stopped]; rfl)
      exact .inr (.inr (.inr ⟨alive, by rw [same, stopped], by rw [same, last]⟩))

end Moments

/-- At first any queue may be replaced: if it was replaced before, nothing is pending on it. -/
theorem convert_first (ho : e.Orderly) (hc : e.Converts q e') : e.Accounted e' := by
  refine ⟨Nat.le_of_eq hc.moved.size.symm, fun {p} hp => ?_, ⟨[], hc.journal⟩, fun {n} hn => ?_⟩
  · by_cases hpq : p = q
    · rw [hpq, hc.old]
      rfl
    · rwa [hc.other hpq (Nat.ne_of_lt (queue_lt_of_isEnd hp))]
  have size : n < e.entries.size := Nat.lt_of_lt_of_eq hn.1.1 hc.moved.size
  obtain ⟨p, pending⟩ := hn.2 size
  by_cases hpq : p = q
  · rw [hpq] at pending
    refine ⟨e.queues.size, hc.moved.residing pending size, fun p' hp' => ?_, .inl ?_⟩
    · rw [ho.pending_unique hp' pending]
      exact .next (by rw [hc.old]) (.here _)
    · rwa [hc.newPending]
  · have other : n ∉ (e.queue q).pending := fun hmem => hpq (ho.pending_unique pending hmem)
    have old : p ≠ e.queues.size := Nat.ne_of_lt (queue_lt_of_pending pending)
    refine ⟨p, (hc.moved.other other).trans (ho.settled pending), fun p' hp' => ?_, .inl ?_⟩
    · rw [ho.pending_unique hp' pending]
      exact .here p
    · rwa [hc.other hpq old]

/-- All moments are accounted for, if the host puts entries on no queue that was replaced and replaces a
queue that has ended at first only. -/
theorem hosting (ho₀ : e₀.Orderly) (hu₀ : e₀.underway = []) :
    Upkeep.Hosting
      (fun e op => op.Spares e ∧ ∀ q delay, op = .forceToTimed q delay → (e.queue q).state.isEnd = false ∨ e = e₀)
      False True
      (fun e q => (e.queue q).state.isEnd = false ∨ e = e₀)
      fun e => e.Listed ∧ e.Placed ∧ e₀.Accounted e where
  quiet ho h hq hg := ⟨Listed.hosting.quiet ho h.1 hq hg, h.2.1.quiet hq, h.2.2.quiet ho₀ hq hg⟩
  fill ho h hq hr hf := ⟨Listed.hosting.fill ho h.1 hq nofun hf,
    h.2.1.put ho hq (hr trivial) hf, h.2.2.fill ho₀ hq hf⟩
  drop count ho h hx hc := ⟨Listed.hosting.drop count ho h.1 hx hc,
    h.2.1.changeQueue (fun _ => List.drop_sublist _ _) fun _ => rfl,
    h.2.2.drop ho₀ hu₀ h.2.1 count hx hc⟩
  make ho h hx := ⟨h.1.make ho hx, h.2.1.make hx, h.2.2.make ho₀ _⟩
  launch ho h hq hidle _ := ⟨h.1.launch hq hidle, h.2.1.launch, h.2.2.launch ho₀ hidle⟩
  close ho h hq hend hs hc hg :=
    ⟨h.1.close hend hc, h.2.1.close hs hc, h.2.2.close ho₀ hend hs h.1 hc hg⟩
  convert {e e' q} ho h hq hC hc hg := by
    refine ⟨h.1.convert ho hc, h.2.1.convert hc, ?_⟩
    rcases hC with hend | rfl
    · exact h.2.2.convert ho h.1 hend hc hg
    · exact convert_first ho hc
  begins ho h hq hp ha := ⟨Listed.hosting.begins ho h.1 hq hp ha, h.2.1.begun ho hq.here hp,
    h.2.2.begun ho₀ hq.here hp⟩
  back q n ran h := ⟨Listed.hosting.back q n ran h.1, h.2.1.noted fun m =>
    List.countP_cons_of_neg Bool.false_ne_true, h.2.2.back ho₀ q n ran⟩
  listen n h hend := ⟨h.1.listen _, h.2.1.changeQueue (fun _ => .refl _) fun _ => rfl,
    h.2.2.changeQueue ho₀ hend (fun _ => rfl) fun _ => rfl⟩
  active _ _ ha _ := by
    have running := eq_of_beq (Bool.and_eq_true_iff.1 ha).1
    exact .inl (by rw [running]; rfl)
  registered _ h hid _ := by
    have alive := h.1.alive hid
    refine .inl (Bool.eq_false_iff.2 fun hend => ?_)
    rw [QueueState.isAlive_of_isEnd hend] at alive
    cases alive
  allows {e op} ha := by
    cases op with
    | start q => exact nofun
    | runToCompletion q => exact nofun
    | runScript name options starts => exact nofun
    | runCommands source name options starts => exact nofun
    | forceToTimed q delay => exact ha.2 q delay rfl
    | append q source => exact fun _ => ha.1
    | inject q source => exact fun _ => ha.1
    | _ => trivial
  pause ho h hq ha hs := ⟨Listed.hosting.pause ho h.1 hq trivial hs,
    h.2.1.changeQueue (fun _ => .refl _) fun _ => rfl,
    h.2.2.changeQueue ho₀ (by rw [hs]; rfl) (fun _ => rfl) fun _ => rfl⟩
  resume ho h hq ha hs := ⟨Listed.hosting.resume ho h.1 hq trivial hs,
    h.2.1.changeQueue (fun _ => .refl _) fun _ => rfl,
    h.2.2.changeQueue ho₀ (by rw [hs]; rfl) (fun _ => rfl) fun _ => rfl⟩
  hear ho h hq ha hs := ⟨h.1.listen _, h.2.1.changeQueue (fun _ => .refl _) fun _ => rfl,
    h.2.2.changeQueue ho₀ hs (fun _ => rfl) fun _ => rfl⟩
  late ho h hq ha hs := ⟨⟨h.1.alive, h.1.key, h.1.replaced⟩, h.2.1.noted fun _ => rfl,
    h.2.2.call ho₀ _⟩
  task label count h := ⟨Listed.hosting.task label count h.1, h.2.1.noted fun _ => rfl, h.2.2.call ho₀ _⟩

end Accounted

/-! ## What a replacement gets -/

/-- The second engine has a further queue that is still to be started.  What was pending on the queue is
pending there, in the same order, and definitions, saved entries and determinations are the same. -/
structure HandsOver (e : Engine) (q : QueueRef) (e' : Engine) : Prop where
  idle : (e'.queue e.queues.size).state = .idle
  replaced : (e'.queue q).replacedBy = some e.queues.size
  emptied : (e'.queue q).pending = []
  pending : (e'.queue e.queues.size).pending = (e.queue q).pending
  definitions (name : String) : e'.definition? e.queues.size name = e.definition? q name
  held (name : String) : e'.held? e.queues.size name = e.held? q name
  determinations : e'.determinations? e.queues.size = e.determinations? q

/-- A queue that is replaced hands all its entries over. -/
theorem Replaces.handsOver {e e' : Engine} {q : QueueRef} {d : Option Delay} (h : e.Replaces q d e') :
    e.HandsOver q e' where
  idle := by rw [h.new]
  replaced := by rw [h.old]
  emptied := by rw [h.old]
  pending := by rw [h.new]
  definitions name := by
    unfold definition? Engine.definitions
    rw [h.new, h.books.memory]
  held name := by
    unfold held?
    rw [h.new, h.books.memory]
  determinations := by
    unfold determinations?
    rw [h.new, h.books.lists]

end Engine

/-- A queue that the host replaces hands over what it has before its replacement is started. -/
theorem Operation.forceToTimed_handsOver (fuel : Nat) {q : QueueRef} (delay : Option Host.DelayOption)
    {e : Engine} (hq : q < e.queues.size) :
    ∃ e', (Operation.forceToTimed q delay).act fuel e =
      Drive.start (Drive.calls fuel) fuel e.queues.size e' ∧ e.HandsOver q e' := by
  let d := delay.map fun d => Queues.delayOf e d.millis d.onClock
  obtain ⟨e', replace, replaces⟩ := e.replaceByTimed_replaces d hq
  exact ⟨e', (Operation.forceToTimed_act fuel q delay e).trans (Action.bind_ok replace),
    replaces.handsOver⟩

/-! ## Runs in which queues may be cleared -/

/-- The engines that a host comes to if it puts entries only on queues that were not replaced.  It may
clear queues. -/
inductive Course (e₀ : Engine) : Engine → Prop where
  | first : Course e₀ e₀
  | next {e : Engine} (fuel : Nat) (op : Operation) : Course e₀ e → op.Valid e → op.Spares e →
      (op.act fuel e).1 ≠ .error .exhausted → Course e₀ (op.act fuel e).2
  | clear {e : Engine} (q : QueueRef) : Course e₀ e → q < e.queues.size →
      Course e₀ (Queues.clear q e).2

namespace Engine

/-- What holds between operations: nothing is under way, and entries are where they should be. -/
structure Settled (e : Engine) : Prop where
  orderly : e.Orderly
  underway : e.underway = []
  listed : e.Listed
  placed : e.Placed

namespace Settled

variable {e : Engine} {q : QueueRef}

/-- A new engine is settled. -/
theorem of_new (h : e.IsNew) (hc : e.catalogue.Sound) : e.Settled where
  orderly := h.orderly hc
  underway := h.underway
  listed := h.listed
  placed := by
    have begins (n : EntryRef) : e.begins n = 0 := by
      unfold begins
      rw [h.journal]
      rfl
    refine ⟨fun q => ?_, fun _ => begins _, fun n => ?_, fun {q t} ht => ?_⟩
    · rw [h.queue_eq]
      exact List.nodup_nil
    · rw [begins]
      exact Nat.zero_le _
    · rw [h.queue_eq] at ht
      cases ht

/-- An operation accounts for all entries. -/
theorem act (h : e.Settled) (fuel : Nat) (op : Operation) (hv : op.Valid e) (hs : op.Spares e)
    (hx : (op.act fuel e).1 ≠ .error .exhausted) :
    (op.act fuel e).2.Settled ∧ e.Accounted (op.act fuel e).2 := by
  obtain ⟨⟨orderly, listed, placed, accounted⟩, -, onward⟩ :=
    Discipline.Upheld.step_act (Accounted.hosting h.orderly h.underway) fuel op
      ⟨h.orderly, h.listed, h.placed, .first h.orderly⟩ h.underway hv ⟨hs, fun _ _ _ => .inr rfl⟩ hx
  exact ⟨⟨orderly, onward.underway.trans h.underway, listed, placed⟩, accounted⟩

/-- So do all operations of a run, if none of them replaces a queue that has ended. -/
theorem runs (h : e.Settled) {e' : Engine} (hr : Runs (fun x op => op.Continues x) e e') :
    e'.Settled ∧ e.Accounted e' := by
  induction hr with
  | first => exact ⟨h, .first h.orderly⟩
  | next fuel op _ hv hc hx ih =>
    obtain ⟨settled, accounted⟩ := ih
    obtain ⟨⟨orderly, listed, placed, accounted⟩, -, onward⟩ :=
      Discipline.Upheld.step_act (Accounted.hosting h.orderly h.underway) fuel op
        ⟨settled.orderly, settled.listed, settled.placed, accounted⟩ settled.underway hv
        ⟨hc.1, fun q delay hop => .inl (hc.2 q delay hop)⟩ hx
    exact ⟨⟨orderly, onward.underway.trans settled.underway, listed, placed⟩, accounted⟩

/-- A queue that is cleared leaves the engine settled. -/
theorem clear (h : e.Settled) (hq : q < e.queues.size) : (Queues.clear q e).2.Settled := by
  have healthy : Discipline.healthy.Step e (e.changeQueue q ({ · with pending := [] })) :=
    Discipline.Healthy.blocks.emptying.clear h.orderly.healthy hq
  refine ⟨?_, h.underway, h.listed.same (.of_pending e q fun _ => []),
    h.placed.changeQueue (fun _ => List.nil_sublist _) fun _ => rfl⟩
  refine h.orderly.fewer healthy.1 (e.size_changeQueue q _) (Nat.le_refl _) (fun p n hn => ?_) (fun _ => rfl)
    fun _ => .inl
  have sub : ((e.changeQueue q ({ · with pending := [] })).queue p).pending ⊆ (e.queue p).pending := by
    rw [e.queue_changeQueue]
    split
    · exact List.nil_subset _
    · exact List.Subset.refl _
  exact sub hn

end Settled

end Engine

/-- Between the operations of any run the engine is settled. -/
theorem Course.settled {config : Config} {e : Engine} (h : Course (Host.create config []) e) :
    e.Settled := by
  induction h with
  | first => exact .of_new (Host.create_isNew config []) (Host.create_catalogue_sound config)
  | next fuel op _ hv hs hx ih => exact (ih.act fuel op hv hs hx).1
  | clear q _ hq ih => exact ih.clear hq

/-- As long as the host puts entries only on queues that were not replaced, every entry is pending once
over all queues, and only where it resides and before it is begun, so that it is begun once at most.
Whatever operation comes next, entries that are pending, or are made meanwhile, stay pending on the
queue that theirs leads to, unless they are begun, dropped where a loop is left early, or stopped with
that queue; and clearing a queue leaves other queues alone.  A queue that is replaced, whenever it is,
hands over everything it has. -/
theorem entries_conserved {config : Config} {e : Engine} (h : Course (Host.create config []) e) :
    e.allPending.Nodup ∧ (∀ n, e.begins n ≤ 1) ∧
      (∀ q n, n ∈ (e.queue q).pending → e.begins n = 0 ∧ e.residingQueue n = some q) ∧
      (∀ fuel (op : Operation), op.Valid e → op.Spares e → (op.act fuel e).1 ≠ .error .exhausted →
        ∀ n, e.Watches (op.act fuel e).2 n → e.Fate (op.act fuel e).2 n) ∧
      (∀ q p, p ≠ q → (Queues.clear q e).2.queue p = e.queue p) ∧
      ∀ x : Engine, ∀ q < x.queues.size,
        (∀ d, ∃ y, Queues.replaceByTimed q d x = (.ok x.queues.size, y) ∧ x.HandsOver q y) ∧
        ∀ fuel delay, ∃ y, (Operation.forceToTimed q delay).act fuel x =
          Drive.start (Drive.calls fuel) fuel x.queues.size y ∧ x.HandsOver q y := by
  have settled := h.settled
  refine ⟨settled.placed.nodup_allPending settled.orderly, settled.placed.once, fun q n hn => ?_,
    fun fuel op hv hs hx n hn => ?_, fun q p hp => ?_, fun x q hq => ⟨fun d => ?_, fun fuel delay => ?_⟩⟩
  · exact ⟨settled.placed.unbegun hn, settled.placed.residingQueue settled.orderly hn⟩
  · exact (settled.act fuel op hv hs hx).2.fate hn
  · exact e.queue_changeQueue_of_ne (Ne.symm hp) _
  · obtain ⟨y, replace, replaces⟩ := x.replaceByTimed_replaces d hq
    exact ⟨y, replace, replaces.handsOver⟩
  · exact Operation.forceToTimed_handsOver fuel delay hq

/-- A loop is stopped in its first round, which drops the entry 6, and a `wait` has the queue replaced.
The host puts a further entry on the replacement, and the heart beats. -/
theorem entries_conserved_wait :
    let e₀ := Host.create {} []
    let source := "repeat 2 \x7b\n- repeat stop\n- debug one\n\x7d\nwait 1\ndebug two"
    let e₁ := ((Operation.runCommands source none {} true).act 12 e₀).2
    let e₂ := ((Operation.append 1 "debug three").act 10 e₁).2
    let e₃ := ((Operation.tick (some 2.0)).act 10 e₂).2
    e₀.Fate e₁ 6 ∧ e₁.begins 6 = 0 ∧ e₁.allPending = [4] ∧
      e₂.allPending = [4, 8] ∧ e₂.allPending.Nodup ∧ e₂.residingQueue 4 = some 1 ∧
        e₂.Fate e₃ 4 ∧ e₃.allPending = [8] ∧ e₃.begins 4 = 1 := by
  intro e₀ source e₁ e₂ e₃
  obtain ⟨⟨ok₁, ok₂, ok₃⟩, ⟨valid₂, spares₂, pending₂⟩, ⟨made₁, residing₁, made₃, residing₃⟩,
      unbegun, all₁, all₂, all₃, begun⟩ :
      (((Operation.runCommands source none {} true).act 12 e₀).1.toBool = true ∧
        ((Operation.append 1 "debug three").act 10 e₁).1.toBool = true ∧
        ((Operation.tick (some 2.0)).act 10 e₂).1.toBool = true) ∧
      (1 < e₁.queues.size ∧ (e₁.queue 1).replacedBy = none ∧ 4 ∈ (e₂.queue 1).pending) ∧
      (6 < e₁.entries.size ∧ (e₁.entry 6).residing = some 0 ∧
        4 < e₃.entries.size ∧ (e₃.entry 4).residing = some 1) ∧
      e₁.begins 6 = 0 ∧ e₁.allPending = [4] ∧ e₂.allPending = [4, 8] ∧ e₃.allPending = [8] ∧
      e₃.begins 4 = 1 := by decide +kernel
  have cut {r : Except Failure Unit} (h : r.toBool = true) : r ≠ .error .exhausted := by
    rintro rfl
    cases h
  have run₁ : Course e₀ e₁ := .next 12 (.runCommands source none {} true) .first trivial trivial (cut ok₁)
  have run₂ : Course e₀ e₂ := .next 10 (.append 1 "debug three") run₁ valid₂ spares₂ (cut ok₂)
  have run₃ : Course e₀ e₃ := .next 10 (.tick (some 2.0)) run₂ trivial trivial (cut ok₃)
  have live₁ : e₁.Live 6 := run₁.settled.orderly.healthy.tidy.based.live_of_residing made₁ residing₁
  have live₃ : e₃.Live 4 := run₃.settled.orderly.healthy.tidy.based.live_of_residing made₃ residing₃
  obtain ⟨-, -, -, fates₀, -⟩ := entries_conserved (.first : Course (Host.create {} []) e₀)
  obtain ⟨nodup, -, places, fates₂, -⟩ := entries_conserved run₂
  refine ⟨?_, unbegun, all₁, all₂, nodup, (places 1 4 pending₂).2, ?_, all₃, begun⟩
  · exact fates₀ 12 (.runCommands source none {} true) trivial trivial (cut ok₁) 6 ⟨live₁, nofun⟩
  · exact fates₂ 10 (.tick (some 2.0)) trivial trivial (cut ok₃) 4 ⟨live₃, fun _ => ⟨1, pending₂⟩⟩

/-- A host that puts an entry on a queue that was replaced has it pending there, though it resides on the
replacement. -/
theorem pending_apart_from_residence :
    let e₁ := ((Operation.runCommands "wait 1\ndebug one" none {} true).act 10 (Host.create {} [])).2
    let e₂ := ((Operation.append 0 "debug two").act 10 e₁).2
    Reachable (Host.create {} []) e₂ ∧ 2 ∈ (e₂.queue 0).pending ∧ e₂.residingQueue 2 = some 1 := by
  intro e₁ e₂
  obtain ⟨ok₁, size, ok₂, pending, residing⟩ :
      ((Operation.runCommands "wait 1\ndebug one" none {} true).act 10
        (Host.create {} [])).1.toBool = true ∧
      0 < e₁.queues.size ∧ ((Operation.append 0 "debug two").act 10 e₁).1.toBool = true ∧
      2 ∈ (e₂.queue 0).pending ∧ e₂.residingQueue 2 = some 1 := by decide +kernel
  have run₁ : Reachable (Host.create {} []) e₁ := .ok .first 10 (.runCommands _ none {} true) trivial ok₁
  exact ⟨run₁.ok 10 (.append 0 "debug two") size ok₂, pending, residing⟩

end QueueScript
