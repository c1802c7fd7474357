import QueueScript.Proofs.Procedures
import QueueScript.Proofs.Replacement

/-!
# What moves queues and their entries

Most of what an engine does is quiet: no queue changes its state, its place in the registry, its
listeners or its pending entries (`Engine.Quiet`).  The few moments that are not are described here, as
relations of the engines before and after: a queue is launched (`Engine.launched`), it ends
(`Engine.Closes`), it is replaced by a timed queue that is launched at once (`Engine.Converts`), or it
begins its first pending entry (`Engine.begun`).

In an orderly engine every pending entry resides on the queue that it is pending on, so it is pending on
no other.
-/

namespace QueueScript

/-- Two queues that differ at most in what their entries share and in what holds them back. -/
structure Queue.Alike (x y : Queue) : Prop where
  id : y.id = x.id
  pace : y.pace = x.pace
  state : y.state = x.state
  pending : y.pending = x.pending
  listeners : y.listeners = x.listeners
  replacedBy : y.replacedBy = x.replacedBy

/-- A queue is alike to itself. -/
theorem Queue.Alike.refl (x : Queue) : x.Alike x :=
  ⟨rfl, rfl, rfl, rfl, rfl, rfl⟩

/-- Alike queues have alike queues. -/
theorem Queue.Alike.trans {x y z : Queue} (h : x.Alike y) (h' : y.Alike z) : x.Alike z where
  id := h'.id.trans h.id
  pace := h'.pace.trans h.pace
  state := h'.state.trans h.state
  pending := h'.pending.trans h.pending
  listeners := h'.listeners.trans h.listeners
  replacedBy := h'.replacedBy.trans h.replacedBy

namespace Engine

/-! ## Quiet changes -/

/-- No queue is made or moves on, nobody is told anything, and entries stay where they are.  Only base
entries may be made. -/
structure Quiet (e e' : Engine) : Prop where
  queues : e'.queues.size = e.queues.size
  queue (q : QueueRef) : (e.queue q).Alike (e'.queue q)
  entries : e.entries.size ≤ e'.entries.size
  code {n : EntryRef} : n < e.entries.size → (e'.entry n).code = (e.entry n).code
  residing {n : EntryRef} : n < e.entries.size → (e'.entry n).residing = (e.entry n).residing
  made {n : EntryRef} : e.entries.size ≤ n → ¬ e'.Live n
  registry : e'.registry = e.registry
  fired : e'.fired = e.fired
  journal : e'.journal = e.journal

namespace Quiet

variable {e e' e'' : Engine}

/-- Quiet changes follow one another. -/
theorem trans (h : e.Quiet e') (h' : e'.Quiet e'') (hg : e'.Grows e'') : e.Quiet e'' where
  queues := h'.queues.trans h.queues
  queue q := (h.queue q).trans (h'.queue q)
  entries := Nat.le_trans h.entries h'.entries
  code hn := (h'.code (Nat.lt_of_lt_of_le hn h.entries)).trans (h.code hn)
  residing hn := (h'.residing (Nat.lt_of_lt_of_le hn h.entries)).trans (h.residing hn)
  made {n} hn live := by
    rcases Nat.lt_or_ge n e'.entries.size with hlt | hge
    · exact h.made hn ⟨hlt, fun hb => live.2 (hg.kept hb)⟩
    · exact h'.made hge live
  registry := h'.registry.trans h.registry
  fired := h'.fired.trans h.fired
  journal := h'.journal.trans h.journal

/-- Nothing changes in the tables that are looked at. -/
theorem of_tables (hq : e'.queues = e.queues) (hn : e'.entries = e.entries)
    (hr : e'.registry = e.registry) (hf : e'.fired = e.fired) (hj : e'.journal = e.journal) :
    e.Quiet e' := by
  refine ⟨by rw [hq], fun q => ?_, Nat.le_of_eq (by rw [hn]), fun _ => by rw [entry_congr hn],
    fun _ => by rw [entry_congr hn], fun {n} hle live => ?_, hr, hf, hj⟩
  · rw [queue_congr hq]
    exact .refl _
  · exact absurd live.1 (Nat.not_lt.2 (by rwa [hn]))

/-- A report is quiet. -/
theorem emit (e : Engine) (event : Event) (s : Scope) : e.Quiet (e.emit event s) := by
  obtain ⟨events, h⟩ := e.emit_eq event s
  rw [h]
  exact of_tables rfl rfl rfl rfl rfl

/-- The change of an entry that keeps its line and its place is quiet. -/
theorem changeEntry (e : Engine) (n : EntryRef) {f : Entry → Entry} (hc : ∀ x, (f x).code = x.code)
    (hr : ∀ x, (f x).residing = x.residing) : e.Quiet (e.changeEntry n f) where
  queues := rfl
  queue _ := .refl _
  entries := Nat.le_of_eq (e.size_changeEntry n f).symm
  code _ := e.entry_changeEntry_keep hc n _
  residing _ := e.entry_changeEntry_keep hr n _
  made hle live := absurd live.1 (Nat.not_lt.2 (by rwa [e.size_changeEntry]))
  registry := rfl
  fired := rfl
  journal := rfl

/-- The change of a queue to an alike one is quiet. -/
theorem changeQueue (e : Engine) (q : QueueRef) {f : Queue → Queue} (hf : ∀ x : Queue, x.Alike (f x)) :
    e.Quiet (e.changeQueue q f) where
  queues := e.size_changeQueue q f
  queue p := by
    rw [queue_changeQueue]
    split
    · exact hf _
    · exact .refl _
  entries := Nat.le_refl _
  code _ := rfl
  residing _ := rfl
  made hle live := absurd live.1 (Nat.not_lt.2 hle)
  registry := rfl
  fired := rfl
  journal := rfl

/-- A script is made into entries, which become base entries at once. -/
theorem keepBase {xs ys : List Entry} {i : Nat}
    (hi : (e.script i).base = none) (ready : e.Prepares (e.compiled i) xs ys) :
    e.Quiet ((e.grown (xs ++ ys)).keepBase i (List.range' (e.grown xs).entries.size ys.length)) where
  queues := rfl
  queue _ := .refl _
  entries := by
    show _ ≤ (e.grown (xs ++ ys)).entries.size
    rw [size_grown]
    exact Nat.le_add_right _ _
  code hn := congrArg Entry.code (e.entry_grown_of_lt hn)
  residing hn := congrArg Entry.residing (e.entry_grown_of_lt hn)
  made {n} hle live := by
    by_cases hn : n ∈ List.range' (e.grown xs).entries.size ys.length
    · exact live.2 (ready.isBase_kept n hn)
    · exact live.2 ((ready.brings.others n ⟨hle, live.1⟩ hn).keepBase hi)
  registry := rfl
  fired := rfl
  journal := rfl

/-- An outcome is quiet. -/
theorem determine (e : Engine) (q : QueueRef) (v : Value) : e.Quiet (Queues.determine q v e).2 := by
  rcases Queues.determine_cases q v e with ⟨i, -, done⟩ | ⟨-, done⟩ <;> rw [done]
  · exact of_tables rfl rfl rfl rfl rfl
  · have grown : e.Quiet { e with lists := e.lists.push [v] } := of_tables rfl rfl rfl rfl rfl
    exact grown.trans (.changeQueue _ q fun _ => ⟨rfl, rfl, rfl, rfl, rfl, rfl⟩)
      (grows_changeQueue _ q fun _ => rfl)

end Quiet

/-! ## Orderly engines -/

/-- The engine is healthy, pending entries reside where they are pending, and the history is about
queues and entries that there are. -/
structure Orderly (e : Engine) : Prop where
  healthy : e.Healthy
  settled {q : QueueRef} {n : EntryRef} : n ∈ (e.queue q).pending → (e.entry n).residing = some q
  traced {x : Step} : x ∈ e.journal → x.queue < e.queues.size ∧ x.entry < e.entries.size

namespace Orderly

variable {e e' : Engine}

/-- An entry is pending on one queue at most. -/
theorem pending_unique (h : e.Orderly) {p q : QueueRef} {n : EntryRef}
    (hp : n ∈ (e.queue p).pending) (hq : n ∈ (e.queue q).pending) : p = q :=
  Option.some.inj ((h.settled hp).symm.trans (h.settled hq))

/-- Entries that are still pending are still where they were. -/
theorem fewer (h : e.Orderly) (hh : e'.Healthy) (hq : e'.queues.size = e.queues.size)
    (hn : e.entries.size ≤ e'.entries.size)
    (hp : ∀ q, ∀ n ∈ (e'.queue q).pending, n ∈ (e.queue q).pending)
    (hr : ∀ {n}, n < e.entries.size → (e'.entry n).residing = (e.entry n).residing)
    (hj : ∀ x ∈ e'.journal, x ∈ e.journal ∨ x.queue < e.queues.size ∧ x.entry < e.entries.size) :
    e'.Orderly := by
  refine ⟨hh, fun {q n} hn => ?_, fun {x} hx => ?_⟩
  · have pending := hp q n hn
    rw [hr (h.healthy.tidy.pending q n pending).1]
    exact h.settled pending
  · obtain ⟨here, made⟩ := (hj x hx).elim h.traced id
    exact ⟨hq ▸ here, Nat.lt_of_lt_of_le made hn⟩

/-- A quiet change keeps an engine orderly. -/
theorem quiet (h : e.Orderly) (hh : e'.Healthy) (hq : e.Quiet e') : e'.Orderly := by
  refine h.fewer hh hq.queues hq.entries (fun p n hn => ?_) hq.residing fun x hx => .inl ?_
  · rwa [(hq.queue p).pending] at hn
  · rwa [hq.journal] at hx

/-- A queue changes in other things than its pending entries. -/
theorem changeQueue (h : e.Orderly) {q : QueueRef} {f : Queue → Queue} (hh : (e.changeQueue q f).Healthy)
    (hp : ∀ p, ((e.changeQueue q f).queue p).pending = (e.queue p).pending) :
    (e.changeQueue q f).Orderly :=
  h.fewer hh (e.size_changeQueue q f) (Nat.le_refl _) (fun p _ hn => by rwa [← hp p]) (fun _ => rfl) fun _ => .inl

/-- An engine is orderly with a new queue. -/
theorem make (h : e.Orderly) {x : Queue} (hh : (e.withQueue x).Healthy) (hx : x.IsNew) :
    (e.withQueue x).Orderly := by
  refine ⟨hh, fun {p n} hn => ?_, fun hs => ?_⟩
  · rw [e.queue_withQueue] at hn
    split at hn
    · rw [hx.pending] at hn
      cases hn
    · exact h.settled hn
  · obtain ⟨hq, hn⟩ := h.traced hs
    rw [e.size_withQueue]
    exact ⟨Nat.lt_succ_of_lt hq, hn⟩

end Orderly

/-! ## A queue is filled -/

/-- The entries `ys` are put on a queue, each once, and the entries `xs` that were made for their blocks
are base entries. -/
structure Fills (e : Engine) (q : QueueRef) (xs ys : List Entry) (f : List EntryRef → List EntryRef) :
    Prop where
  residing : ∀ y ∈ ys, y.residing = some q
  perm : (f (e.queue q).pending).Perm
    ((e.queue q).pending ++ List.range' (e.grown xs).entries.size ys.length)
  stock {n : EntryRef} : e.entries.size ≤ n → ((e.grown xs).put q ys f).Live n →
    (e.grown xs).entries.size ≤ n

namespace Fills

variable {e : Engine} {q : QueueRef} {n : EntryRef} {xs ys : List Entry}
  {f : List EntryRef → List EntryRef}

/-- A queue that is filled has the entries that it had, and new ones. -/
theorem mem (h : e.Fills q xs ys f) (hn : n ∈ f (e.queue q).pending) :
    n ∈ (e.queue q).pending ∨ ∃ i y, n = (e.grown xs).entries.size + i ∧ ys[i]? = some y := by
  refine (List.mem_append.1 (h.perm.mem_iff.1 hn)).imp id fun hn => ?_
  obtain ⟨hlow, hhigh⟩ := List.mem_range'_1.1 hn
  obtain ⟨i, rfl⟩ := Nat.exists_eq_add_of_le hlow
  exact ⟨i, _, rfl, List.getElem?_eq_getElem (Nat.lt_of_add_lt_add_left hhigh)⟩

/-- All the new entries that may be put on a queue are on it. -/
theorem pending_of_live (h : e.Fills q xs ys f) (hle : e.entries.size ≤ n)
    (live : ((e.grown xs).put q ys f).Live n) :
    n ∈ f (e.queue q).pending ∧ (((e.grown xs).put q ys f).entry n).residing = some q := by
  have hlow := h.stock hle live
  obtain ⟨i, rfl⟩ := Nat.exists_eq_add_of_le hlow
  have hi : i < ys.length := Nat.lt_of_add_lt_add_left ((e.grown xs).size_put q ys f ▸ live.1)
  refine ⟨h.perm.mem_iff.2 (List.mem_append_right _ (List.mem_range'_1.2 ⟨hlow, ?_⟩)), ?_⟩
  · exact Nat.add_lt_add_left hi _
  · rw [(e.grown xs).entry_put q ys f (List.getElem?_eq_getElem hi)]
    exact h.residing _ (List.getElem_mem hi)

/-- Entries that there were are as they were. -/
theorem entry_old (xs ys : List Entry) (f : List EntryRef → List EntryRef) (hn : n < e.entries.size) :
    ((e.grown xs).put q ys f).entry n = e.entry n := by
  rw [(e.grown xs).entry_put_of_lt q ys f (by rw [size_grown]; exact Nat.lt_add_right _ hn),
    e.entry_grown_of_lt hn]

/-- There are no fewer entries. -/
theorem entries (q : QueueRef) (xs ys : List Entry) (f : List EntryRef → List EntryRef) :
    e.entries.size ≤ ((e.grown xs).put q ys f).entries.size := by
  rw [size_put, size_grown, Nat.add_assoc]
  exact Nat.le_add_right _ _

end Fills

/-- Further entries are put on a queue. -/
theorem Orderly.put {e : Engine} (h : e.Orderly) {q : QueueRef} {xs ys : List Entry}
    {f : List EntryRef → List EntryRef} (hh : ((e.grown xs).put q ys f).Healthy)
    (hf : e.Fills q xs ys f) : ((e.grown xs).put q ys f).Orderly := by
  let x := e.grown xs
  refine ⟨hh, fun {p n} hn => ?_, fun hs => ?_⟩
  rotate_left
  · obtain ⟨hq, hn⟩ := h.traced hs
    exact ⟨Nat.lt_of_lt_of_eq hq (x.size_changeQueue q _).symm,
      Nat.lt_of_lt_of_le hn (Fills.entries q xs ys f)⟩
  have old (hn : n ∈ (e.queue p).pending) : ((x.put q ys f).entry n).residing = some p := by
    rw [Fills.entry_old xs ys f (h.healthy.tidy.pending p n hn).1]
    exact h.settled hn
  by_cases hqp : q = p ∧ p < e.queues.size
  · obtain ⟨rfl, hsize⟩ := hqp
    rw [x.queue_put q ys f hsize] at hn
    rcases hf.mem hn with hn | ⟨i, y, rfl, hy⟩
    · exact old hn
    · rw [x.entry_put q ys f hy]
      exact hf.residing y (List.mem_of_getElem? hy)
  · have same : (x.put q ys f).queue p = e.queue p := (x.queue_changeQueue q p _).trans (if_neg hqp)
    rw [same] at hn
    exact old hn

/-! ## A queue is launched -/

/-- The queue runs and is registered under its id. -/
def launched (e : Engine) (q : QueueRef) : Engine :=
  (e.changeQueue q ({ · with state := .running })).setRegistry
    (e.registry.put (Text.lower (e.queue q).id) q)

/-- A queue that is launched starts, and nothing else but reports is made. -/
theorem launch_eq (e : Engine) (q : QueueRef) :
    ∃ events, Queues.launch q e = (.ok (), { e.launched q with events }) := by
  have id : ((e.changeQueue q ({ · with state := .running })).queue q).id = (e.queue q).id :=
    e.queue_changeQueue_keep (f := ({ · with state := .running })) (g := Queue.id) (fun _ => rfl) q q
  let x : Engine := (e.changeQueue q ({ · with state := .running })).setRegistry (e.registry.put
    (Text.lower ((e.changeQueue q ({ · with state := .running })).queue q).id) q)
  have same : x = e.launched q := by
    show Engine.setRegistry _ _ = _
    rw [id]
    rfl
  let started := x.queue q
  let scope : Scope := { queue := some started.id }
  obtain ⟨events, h⟩ := x.emit_eq (.trace ("Starting " ++ started.pace.name ++ " queue '" ++
    started.id ++ "' with " ++ Number.natText started.pending.length ++ " entries") scope) scope
  refine ⟨events, ?_⟩
  rw [← same, ← h]
  rfl

/-- The queue that starts runs. -/
theorem queue_launched (e : Engine) {q : QueueRef} (hq : q < e.queues.size) :
    (e.launched q).queue q = { e.queue q with state := .running } :=
  e.queue_changeQueue_self hq _

/-- Other queues stay as they are. -/
theorem queue_launched_of_ne (e : Engine) {q p : QueueRef} (h : p ≠ q) :
    (e.launched q).queue p = e.queue p :=
  e.queue_changeQueue_of_ne (Ne.symm h) _

/-! ## A queue ends -/

end Engine

/-- The calls of listeners of the host that a queue makes when it ends in a state, in order.  The first
one that fails is the last one. -/
def Listener.firings (q : QueueRef) (s : QueueState) : List Listener → List Firing
  | [] => []
  | .finish _ :: rest => firings q s rest
  | .notify label none :: rest => ⟨label, q + 1, s.name⟩ :: firings q s rest
  | .notify label (some _) :: _ => [⟨label, q + 1, s.name⟩]

/-- Whether a listener does not fail when it is told. -/
def Listener.isCalm : Listener → Bool
  | .notify _ (some _) => false
  | _ => true

namespace Engine

/-- The second engine has told listeners of a queue in a state that the queue has ended. -/
structure Told (q : QueueRef) (s : QueueState) (ls : List Listener) (e e' : Engine) : Prop where
  queues : e'.queues = e.queues
  entries : e'.entries.size = e.entries.size
  code (n : EntryRef) : (e'.entry n).code = (e.entry n).code
  residing (n : EntryRef) : (e'.entry n).residing = (e.entry n).residing
  registry : e'.registry = e.registry
  registries : e'.registries = e.registries
  fired : e'.fired = (Listener.firings q s ls).reverse ++ e.fired
  journal : e'.journal = e.journal
  lasting {n : EntryRef} : (e.entry n).isFinished = true → (e'.entry n).isFinished = true
  finished {n : EntryRef} : (∀ l ∈ ls, l.isCalm = true) → .finish n ∈ ls → n < e.entries.size →
    (e'.entry n).isFinished = true

/-- Listeners are told one after another. -/
theorem told (e : Engine) {q : QueueRef} {s : QueueState} (ls : List Listener)
    (hs : (e.queue q).state = s) : e.Told q s ls (Action.each (Queues.tell q) ls e).2 := by
  induction ls generalizing e with
  | nil =>
    exact ⟨rfl, rfl, fun _ => rfl, fun _ => rfl, rfl, rfl, rfl, rfl, id, fun _ h => absurd h List.not_mem_nil⟩
  | cons l rest ih =>
    have calm (h : ∀ k ∈ l :: rest, k.isCalm = true) : ∀ k ∈ rest, k.isCalm = true :=
      fun k hk => h k (List.mem_cons_of_mem _ hk)
    cases l with
    | finish n =>
      let x := e.changeEntry n ({ · with isFinished := true })
      have rest := ih x hs
      have size : x.entries.size = e.entries.size := e.size_changeEntry n _
      have keep {β : Type} (g : Entry → β) (hg : ∀ z : Entry, g { z with isFinished := true } = g z)
          (m : EntryRef) : g (x.entry m) = g (e.entry m) := e.entry_changeEntry_keep hg n m
      refine ⟨rest.queues, rest.entries.trans size,
        fun m => (rest.code m).trans (keep Entry.code (fun _ => rfl) m),
        fun m => (rest.residing m).trans (keep Entry.residing (fun _ => rfl) m), rest.registry, rest.registries,
        rest.fired, rest.journal, fun {m} hm => rest.lasting ?_, fun {m} hc hm hsize => ?_⟩
      · rw [e.entry_changeEntry]
        split
        · rfl
        · exact hm
      · rcases List.mem_cons.1 hm with hm | hm
        · cases hm
          exact rest.lasting (congrArg Entry.isFinished (e.entry_changeEntry_self hsize _))
        · exact rest.finished (calm hc) hm (Nat.lt_of_lt_of_eq hsize size.symm)
    | notify label error =>
      cases error with
      | none =>
        have rest := ih { e with fired := ⟨label, q + 1, (e.queue q).state.name⟩ :: e.fired } hs
        refine ⟨rest.queues, rest.entries, rest.code, rest.residing, rest.registry, rest.registries, ?_,
          rest.journal, rest.lasting,
          fun hc hm hsize => rest.finished (calm hc) ((List.mem_cons.1 hm).resolve_left nofun) hsize⟩
        refine rest.fired.trans ?_
        rw [hs, Listener.firings, List.reverse_cons, List.append_assoc]
        rfl
      | some message =>
        refine ⟨rfl, rfl, fun _ => rfl, fun _ => rfl, rfl, rfl, ?_, rfl, id,
          fun hc => absurd (hc _ List.mem_cons_self) nofun⟩
        show (⟨label, q + 1, (e.queue q).state.name⟩ :: e.fired : List Firing) = _
        rw [hs]
        rfl

/-- In the second engine the queue has ended in a state: it is not registered any more, and its
listeners were told. -/
structure Closes (q : QueueRef) (s : QueueState) (e e' : Engine) : Prop where
  queues : e'.queues.size = e.queues.size
  id : (e'.queue q).id = (e.queue q).id
  pace : (e'.queue q).pace = (e.queue q).pace
  state : (e'.queue q).state = s
  kept : s = .finished → (e'.queue q).pending = (e.queue q).pending
  dropped : s = .stopped → (e'.queue q).pending = []
  listeners : (e'.queue q).listeners = []
  replacedBy : (e'.queue q).replacedBy = (e.queue q).replacedBy
  other {p : QueueRef} : p ≠ q → e'.queue p = e.queue p
  entries : e'.entries.size = e.entries.size
  code (n : EntryRef) : (e'.entry n).code = (e.entry n).code
  residing (n : EntryRef) : (e'.entry n).residing = (e.entry n).residing
  registry : e'.registry = (Queues.unregistered q e).registry
  registries : e'.registries = (Queues.unregistered q e).registries
  fired : e'.fired = (Listener.firings q s (e.queue q).listeners).reverse ++ e.fired
  journal : e'.journal = e.journal
  finished {n : EntryRef} : (∀ l ∈ (e.queue q).listeners, l.isCalm = true) →
    .finish n ∈ (e.queue q).listeners → n < e.entries.size → (e'.entry n).isFinished = true

namespace Closes

variable {q : QueueRef} {s : QueueState} {e e' : Engine}

/-- The pending entries of a queue that ends are all left or all dropped. -/
theorem pending (h : e.Closes q s e') (hs : s.isEnd = true) :
    (e'.queue q).pending = (e.queue q).pending ∨ s = .stopped ∧ (e'.queue q).pending = [] := by
  cases s with
  | finished => exact .inl (h.kept rfl)
  | stopped => exact .inr ⟨rfl, h.dropped rfl⟩
  | idle | running | paused => cases hs

/-- A queue that ends is replaced by none. -/
theorem replaced (h : e.Closes q s e') (p : QueueRef) :
    (e'.queue p).replacedBy = (e.queue p).replacedBy := by
  by_cases hp : p = q
  · rw [hp]
    exact h.replacedBy
  · rw [h.other hp]

/-- What is pending when a queue has ended was pending before. -/
theorem mem_pending (h : e.Closes q s e') (hs : s.isEnd = true) {p : QueueRef} {n : EntryRef}
    (hn : n ∈ (e'.queue p).pending) : n ∈ (e.queue p).pending := by
  by_cases hp : p = q
  · rw [hp] at hn ⊢
    rcases h.pending hs with same | ⟨-, none⟩
    · rwa [same] at hn
    · rw [none] at hn
      cases hn
  · rwa [h.other hp] at hn

/-- An engine is orderly when a queue has ended. -/
theorem orderly (h : e.Closes q s e') (hs : s.isEnd = true) (he : e.Orderly) (hh : e'.Healthy) :
    e'.Orderly := by
  refine he.fewer hh h.queues (Nat.le_of_eq h.entries.symm) (fun p n hn => h.mem_pending hs hn)
    (fun _ => h.residing _) fun x hx => .inl ?_
  rwa [h.journal] at hx

/-- A queue that has not ended is ended in either way. -/
theorem of_end (hq : q < e.queues.size) (hend : (e.queue q).state.isEnd = false) {f : Queue → Queue}
    {ns : List EntryRef} (hkeep : s = .finished → ns = (e.queue q).pending)
    (hdrop : s = .stopped → ns = [])
    (hf : f (e.queue q) = { e.queue q with state := s, pending := ns }) :
    e.Closes q s ((do
      unless (← Action.queue q).state.isEnd do
        Action.changeQueue q f
        Queues.complete q : Action Unit) e).2 := by
  let x := e.changeQueue q f
  obtain ⟨events, complete⟩ := Queues.complete_eq q x
  rw [Queues.end_eq hend f, complete, Queues.queue_unregistered]
  have here : x.queue q = { e.queue q with state := s, pending := ns } :=
    (e.queue_changeQueue_self hq f).trans hf
  let y := Engine.changeQueue { Queues.unregistered q x with events } q ({ · with listeners := [] })
  have ysize : y.queues.size = e.queues.size := by
    refine (Engine.size_changeQueue _ q _).trans ?_
    show (Queues.unregistered q x).queues.size = _
    rw [Queues.queues_unregistered]
    exact e.size_changeQueue q f
  have yself : y.queue q = { e.queue q with state := s, pending := ns, listeners := [] } := by
    refine (Engine.queue_changeQueue_self _ ?_ _).trans ?_
    · show q < (Queues.unregistered q x).queues.size
      rw [Queues.queues_unregistered]
      exact Nat.lt_of_lt_of_eq hq (e.size_changeQueue q f).symm
    · show ({ (Queues.unregistered q x).queue q with listeners := [] } : Queue) = _
      rw [Queues.queue_unregistered, here]
  have yother {p : QueueRef} (hp : p ≠ q) : y.queue p = e.queue p := by
    refine (Engine.queue_changeQueue_of_ne _ (Ne.symm hp) _).trans ?_
    exact (Queues.queue_unregistered q x p).trans (e.queue_changeQueue_of_ne (Ne.symm hp) f)
  have rest : y.Told q s (e.queue q).listeners _ := y.told _ (by rw [yself])
  rw [here]
  have told (p : QueueRef) : (Action.each (Queues.tell q) (e.queue q).listeners y).2.queue p =
      y.queue p := queue_congr rest.queues p
  have entries : y.entries = e.entries := Queues.entries_unregistered q x
  exact {
    queues := (congrArg Array.size rest.queues).trans ysize
    id := by rw [told, yself]
    pace := by rw [told, yself]
    state := by rw [told, yself]
    kept := by
      rw [told, yself]
      exact hkeep
    dropped := by
      rw [told, yself]
      exact hdrop
    listeners := by rw [told, yself]
    replacedBy := by rw [told, yself]
    other := fun hp => by rw [told, yother hp]
    entries := rest.entries.trans (by rw [entries])
    code := fun n => (rest.code n).trans (by rw [entry_congr entries])
    residing := fun n => (rest.residing n).trans (by rw [entry_congr entries])
    registry := by
      refine rest.registry.trans ?_
      show (Queues.unregistered q x).registry = _
      rw [Queues.registry_unregistered, Queues.registry_unregistered, here]
      rfl
    registries := by
      refine rest.registries.trans ?_
      show (Queues.unregistered q x).registries = _
      unfold Queues.unregistered
      rw [here]
      dsimp only
      show (if e.registry.get? _ = some q then _ else _ : Engine).registries = _
      split <;> rfl
    fired := rest.fired.trans (congrArg _ (Queues.fired_unregistered q x))
    journal := rest.journal.trans (Queues.journal_unregistered q x)
    finished := fun hc hm hsize => rest.finished hc hm (by rwa [entries]) }

/-- A queue that is stopped ends. -/
theorem of_stop (hq : q < e.queues.size) (hend : (e.queue q).state.isEnd = false) :
    e.Closes q .stopped (Queues.stop q e).2 :=
  of_end hq hend nofun (fun _ => rfl) rfl

/-- A queue that has nothing left to run ends. -/
theorem of_finish (hq : q < e.queues.size) (hend : (e.queue q).state.isEnd = false) :
    e.Closes q .finished (Queues.finish q e).2 :=
  of_end hq hend (fun _ => rfl) nofun rfl

end Closes

/-! ## A queue is replaced -/

/-- In the second engine a timed queue has taken the place of the queue `q` and runs. -/
structure Converts (q : QueueRef) (e e' : Engine) : Prop where
  queues : e'.queues.size = e.queues.size + 1
  newId : (e'.queue e.queues.size).id = (e.queue q).id
  newState : (e'.queue e.queues.size).state = .running
  newPending : (e'.queue e.queues.size).pending = (e.queue q).pending
  newListeners : (e'.queue e.queues.size).listeners = (e.queue q).listeners
  newReplacedBy : (e'.queue e.queues.size).replacedBy = none
  old : e'.queue q = { e.queue q with
    pending := [], listeners := [], replacedBy := some e.queues.size, state := .stopped }
  other {p : QueueRef} : p ≠ q → p ≠ e.queues.size → e'.queue p = e.queue p
  moved : Moved (e.queue q).pending e.queues.size e e'
  registry : e'.registry = e.registry.put (Text.lower (e.queue q).id) e.queues.size
  registries : e'.registries = e.registry :: e.registries
  fired : e'.fired = e.fired
  journal : e'.journal = e.journal

namespace Converts

variable {q : QueueRef} {e e' : Engine}

/-- A queue that is replaced by one that is launched is converted. -/
theorem of_replaces {d : Option Delay} {y : Engine} (h : e.Replaces q d y) (hq : q < e.queues.size)
    (events : List Event) : e.Converts q { y.launched e.queues.size with events } := by
  let x : Engine := { y.launched e.queues.size with events }
  have new : x.queue e.queues.size = { y.queue e.queues.size with state := .running } :=
    y.queue_launched (by rw [h.queues]; exact Nat.lt_succ_self _)
  have other {p : QueueRef} (hp : p ≠ e.queues.size) : x.queue p = y.queue p :=
    y.queue_launched_of_ne hp
  have id : (y.queue e.queues.size).id = (e.queue q).id := by rw [h.new]
  exact {
    queues := (y.size_changeQueue _ _).trans h.queues
    newId := by rw [new, h.new]
    newState := by rw [new]
    newPending := by rw [new, h.new]
    newListeners := by rw [new, h.new]
    newReplacedBy := by rw [new, h.new]
    old := (other (Nat.ne_of_lt hq)).trans h.old
    other := fun hp ht => (other ht).trans (h.other hp ht)
    moved := h.moved.congr rfl rfl
    registry := by
      show y.registry.put (Text.lower (y.queue e.queues.size).id) _ = _
      rw [id, h.books.registry]
    registries := by
      show y.registry :: y.registries = _
      rw [h.books.registry, h.books.registries]
    fired := h.books.fired
    journal := h.books.journal }

/-- Where entries are pending now. -/
theorem pending (h : e.Converts q e') {p : QueueRef} {n : EntryRef} (hn : n ∈ (e'.queue p).pending) :
    p = e.queues.size ∧ n ∈ (e.queue q).pending ∨ p ≠ q ∧ p ≠ e.queues.size ∧ n ∈ (e.queue p).pending := by
  by_cases ht : p = e.queues.size
  · rw [ht, h.newPending] at hn
    exact .inl ⟨ht, hn⟩
  · by_cases hp : p = q
    · rw [hp, h.old] at hn
      cases hn
    · rw [h.other hp ht] at hn
      exact .inr ⟨hp, ht, hn⟩

/-- An engine is orderly when a queue was converted. -/
theorem orderly (h : e.Converts q e') (he : e.Orderly) (hh : e'.Healthy) : e'.Orderly := by
  refine ⟨hh, fun {p n} hn => ?_, fun {x} hx => ?_⟩
  · rcases h.pending hn with ⟨rfl, hm⟩ | ⟨hp, -, hn⟩
    · exact h.moved.residing hm (he.healthy.tidy.pending q n hm).1
    · rw [h.moved.other fun hm => hp (he.pending_unique hn hm)]
      exact he.settled hn
  · rw [h.journal] at hx
    obtain ⟨hq, hn⟩ := he.traced hx
    rw [h.queues, h.moved.size]
    exact ⟨Nat.lt_succ_of_lt hq, hn⟩

end Converts

/-- A queue is replaced by a timed queue that is launched at once. -/
theorem convert_eq (e : Engine) {q : QueueRef} (hq : q < e.queues.size) (d : Option Delay) :
    ∃ e', (do
      let t ← Queues.replaceByTimed q d
      Queues.launch t
      pure t : Action QueueRef) e = (.ok e.queues.size, e') ∧ e.Converts q e' ∧
        ∃ y, Queues.replaceByTimed q d e = (.ok e.queues.size, y) ∧
          (y.queue e.queues.size).state = .idle ∧ Queues.launch e.queues.size y = (.ok (), e') := by
  obtain ⟨y, replace, replaces⟩ := e.replaceByTimed_replaces d hq
  obtain ⟨events, launch⟩ := y.launch_eq e.queues.size
  refine ⟨_, ?_, .of_replaces replaces hq events, y, replace, ?_, launch⟩
  · exact (Action.bind_ok replace).trans (Action.bind_ok launch)
  · rw [replaces.new]

/-! ## A queue begins an entry -/

/-- The first pending entry of a queue was taken off, and the queue begins it. -/
def begun (e : Engine) (q : QueueRef) (n : EntryRef) (rest : List EntryRef) : Engine :=
  let x := e.changeQueue q ({ · with pending := rest })
  let step := Step.began q n (x.queue q) ((x.queue q).last.map x.entry)
  Engine.changeQueue { x with journal := step :: x.journal } q ({ · with last := some n })

/-- A queue that begins an entry takes it off its pending ones. -/
theorem queue_begun (e : Engine) {q : QueueRef} (hq : q < e.queues.size) (n : EntryRef)
    (rest : List EntryRef) :
    (e.begun q n rest).queue q = { e.queue q with pending := rest, last := some n } := by
  let x := e.changeQueue q ({ · with pending := rest })
  have here : x.queue q = { e.queue q with pending := rest } := e.queue_changeQueue_self hq _
  have size : q < x.queues.size := by
    rw [Engine.size_changeQueue]
    exact hq
  refine (Engine.queue_changeQueue_self _ size _).trans ?_
  show ({ x.queue q with last := some n } : Queue) = _
  rw [here]

/-- What depends neither on pending entries nor on the entry that ran last stays the same. -/
theorem queue_begun_keep {α : Type} (e : Engine) (q : QueueRef) (n : EntryRef) (rest : List EntryRef)
    {g : Queue → α} (h : ∀ (x : Queue) (ns : List EntryRef), g { x with pending := ns } = g x)
    (h' : ∀ (x : Queue) (n : Option EntryRef), g { x with last := n } = g x) (p : QueueRef) :
    g ((e.begun q n rest).queue p) = g (e.queue p) :=
  (Engine.queue_changeQueue_keep _ (fun x => h' x _) q p).trans
    (e.queue_changeQueue_keep (fun x => h x _) q p)

/-- Other queues stay as they are. -/
theorem queue_begun_of_ne (e : Engine) {q p : QueueRef} (h : p ≠ q) (n : EntryRef)
    (rest : List EntryRef) : (e.begun q n rest).queue p = e.queue p :=
  (Engine.queue_changeQueue_of_ne _ (Ne.symm h) _).trans (e.queue_changeQueue_of_ne (Ne.symm h) _)

end Engine

end QueueScript
