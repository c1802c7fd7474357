import QueueScript.Proofs.Spawning
import QueueScript.Proofs.Structured.Apart

/-!
# The queue that takes the place of another one

A queue is replaced by a timed queue that gets all it had: its pending entries, which are moved one by
one, what they share, the entry that ran last and the listeners.  The old queue is stopped and points to
the new one.  Nothing else changes (`Engine.Replaces`).
-/

namespace QueueScript

namespace Engine

/-! ## Books -/

/-- The registry, what was told, the history, the time, the commands, the scripts and what queues hold are
the same. -/
structure SameBooks (e e' : Engine) : Prop where
  heartbeatTime : e'.heartbeatTime = e.heartbeatTime
  clock : e'.clock = e.clock
  registry : e'.registry = e.registry
  registries : e'.registries = e.registries
  fired : e'.fired = e.fired
  journal : e'.journal = e.journal
  catalogue : e'.catalogue = e.catalogue
  scripts : e'.scripts = e.scripts
  lists : e'.lists = e.lists
  memories : e.memories.size ≤ e'.memories.size
  memory (m : MemoryRef) : e'.memory m = e.memory m

/-- The memory of a new queue is empty, as are those that are not there. -/
theorem memory_withQueue (e : Engine) (x : Queue) (m : MemoryRef) :
    (e.withQueue x).memory m = e.memory m := by
  unfold withQueue memory
  rw [Array.getD_eq_getD_getElem?, Array.getD_eq_getD_getElem?, Array.getElem?_push]
  split
  · rename_i hm
    rw [hm, Array.getElem?_eq_none (Nat.le_refl _)]
    rfl
  · rfl

namespace SameBooks

variable {e e' e'' : Engine}

theorem trans (h : e.SameBooks e') (h' : e'.SameBooks e'') : e.SameBooks e'' where
  heartbeatTime := h'.heartbeatTime.trans h.heartbeatTime
  clock := h'.clock.trans h.clock
  registry := h'.registry.trans h.registry
  registries := h'.registries.trans h.registries
  fired := h'.fired.trans h.fired
  journal := h'.journal.trans h.journal
  catalogue := h'.catalogue.trans h.catalogue
  scripts := h'.scripts.trans h.scripts
  lists := h'.lists.trans h.lists
  memories := Nat.le_trans h.memories h'.memories
  memory m := (h'.memory m).trans (h.memory m)

theorem changeQueue (e : Engine) (q : QueueRef) (f : Queue → Queue) : e.SameBooks (e.changeQueue q f) :=
  ⟨rfl, rfl, rfl, rfl, rfl, rfl, rfl, rfl, rfl, Nat.le_refl _, fun _ => rfl⟩

theorem withQueue (e : Engine) (x : Queue) : e.SameBooks (e.withQueue x) := by
  refine ⟨rfl, rfl, rfl, rfl, rfl, rfl, rfl, rfl, rfl, ?_, e.memory_withQueue x⟩
  show _ ≤ (e.memories.push {}).size
  rw [Array.size_push]
  exact Nat.le_succ _

end SameBooks

/-! ## Entries that move -/

/-- Some entries were put on a queue, and no other entry was. -/
structure Moved (ns : List EntryRef) (t : QueueRef) (e e' : Engine) : Prop where
  size : e'.entries.size = e.entries.size
  code (n : EntryRef) : (e'.entry n).code = (e.entry n).code
  owner (n : EntryRef) : (e'.entry n).owner = (e.entry n).owner
  loop (n : EntryRef) : (e'.entry n).loop = (e.entry n).loop
  residing {n : EntryRef} : n ∈ ns → n < e.entries.size → (e'.entry n).residing = some t
  other {n : EntryRef} : n ∉ ns → (e'.entry n).residing = (e.entry n).residing

theorem Moved.congr {ns : List EntryRef} {t : QueueRef} {e e' x y : Engine} (h : Moved ns t e e')
    (hx : x.entries = e.entries) (hy : y.entries = e'.entries) : Moved ns t x y where
  size := by rw [hx, hy, h.size]
  code n := by rw [entry_congr hx, entry_congr hy, h.code]
  owner n := by rw [entry_congr hx, entry_congr hy, h.owner]
  loop n := by rw [entry_congr hx, entry_congr hy, h.loop]
  residing hn hs := by
    rw [hx] at hs
    rw [entry_congr hy, h.residing hn hs]
  other hn := by rw [entry_congr hx, entry_congr hy, h.other hn]

/-- The engine with another table of entries. -/
def withEntries (e : Engine) (entries : Array Entry) : Engine :=
  { e with entries }

theorem SameBooks.withEntries (e : Engine) (entries : Array Entry) : e.SameBooks (e.withEntries entries) :=
  ⟨rfl, rfl, rfl, rfl, rfl, rfl, rfl, rfl, rfl, Nat.le_refl _, fun _ => rfl⟩

theorem withEntries_changeEntry (e : Engine) (n : EntryRef) (f : Entry → Entry) (entries : Array Entry) :
    (e.changeEntry n f).withEntries entries = e.withEntries entries :=
  rfl

/-- An entry is put on a queue. -/
theorem moved_place (n : EntryRef) (t : QueueRef) (e : Engine) :
    ∃ y, Entries.place n (some t) e = (.ok (), y) ∧ Moved [n] t e y ∧
      ∀ entries, y.withEntries entries = e.withEntries entries := by
  let x := e.changeEntry n ({ · with residing := some t })
  let y := x.changeEntry n ({ · with context := x.residingQueue n })
  have keep {β : Type} (g : Entry → β) (h₁ : ∀ z : Entry, g { z with residing := some t } = g z)
      (h₂ : ∀ z : Entry, g { z with context := x.residingQueue n } = g z) (m : EntryRef) :
      g (y.entry m) = g (e.entry m) :=
    (x.entry_changeEntry_keep h₂ n m).trans (e.entry_changeEntry_keep h₁ n m)
  have residing (m : EntryRef) : (y.entry m).residing = (x.entry m).residing :=
    x.entry_changeEntry_keep (f := ({ · with context := x.residingQueue n }))
      (g := Entry.residing) (fun _ => rfl) n m
  refine ⟨y, rfl, ⟨by simp [y, x], keep (·.code) (fun _ => rfl) (fun _ => rfl),
    keep (·.owner) (fun _ => rfl) (fun _ => rfl), keep (·.loop) (fun _ => rfl) (fun _ => rfl),
    fun {m} hm hsize => ?_, fun {m} hm => ?_⟩, fun entries => ?_⟩
  · obtain rfl := List.mem_singleton.1 hm
    rw [residing]
    exact congrArg Entry.residing (e.entry_changeEntry_self hsize _)
  · rw [residing]
    refine congrArg Entry.residing (e.entry_changeEntry_of_ne ?_ _)
    rintro rfl
    exact hm (List.mem_singleton_self _)
  · rw [withEntries_changeEntry, withEntries_changeEntry]

theorem Moved.cons {n : EntryRef} {ns : List EntryRef} {t : QueueRef} {e y e' : Engine}
    (h : Moved [n] t e y) (h' : Moved ns t y e') : Moved (n :: ns) t e e' where
  size := h'.size.trans h.size
  code m := (h'.code m).trans (h.code m)
  owner m := (h'.owner m).trans (h.owner m)
  loop m := (h'.loop m).trans (h.loop m)
  residing {m} hm hsize := by
    by_cases hrest : m ∈ ns
    · exact h'.residing hrest (by rwa [h.size])
    · rw [h'.other hrest]
      exact h.residing (List.mem_singleton.2 ((List.mem_cons.1 hm).resolve_right hrest)) hsize
  other {m} hm := by
    rw [h'.other fun hr => hm (List.mem_cons_of_mem _ hr)]
    exact h.other fun hn => hm (List.mem_cons.2 (.inl (List.mem_singleton.1 hn)))

/-- Entries are put on a queue one after the other, and nothing but entries changes. -/
theorem placeAll_eq (ns : List EntryRef) (t : QueueRef) (e : Engine) :
    ∃ entries, Action.each (Entries.place · (some t)) ns e = (.ok (), e.withEntries entries) ∧
      Moved ns t e (e.withEntries entries) := by
  induction ns generalizing e with
  | nil =>
    exact ⟨e.entries, rfl, rfl, fun _ => rfl, fun _ => rfl, fun _ => rfl,
      fun h => absurd h List.not_mem_nil, fun _ => rfl⟩
  | cons n rest ih =>
    obtain ⟨y, first, moved, same⟩ := moved_place n t e
    obtain ⟨entries, next, h⟩ := ih y
    rw [same] at next h
    exact ⟨entries, (Action.bind_ok first).trans next, moved.cons h⟩

/-! ## Replacement -/

/-- The second engine has a timed queue in the place of the queue `q`. -/
structure Replaces (q : QueueRef) (d : Option Delay) (e e' : Engine) : Prop where
  queues : e'.queues.size = e.queues.size + 1
  new : e'.queue e.queues.size =
    { e.queue q with pace := .timed, state := .idle, replacedBy := none, speed := 0.0, delay := d }
  old : e'.queue q = { e.queue q with
    pending := [], listeners := [], replacedBy := some e.queues.size, state := .stopped }
  other {p : QueueRef} : p ≠ q → p ≠ e.queues.size → e'.queue p = e.queue p
  moved : Moved (e.queue q).pending e.queues.size e e'
  books : e.SameBooks e'

theorem Replaces.withEvents {q : QueueRef} {d : Option Delay} {e x : Engine} (h : e.Replaces q d x)
    (events : List Event) : e.Replaces q d { x with events } :=
  ⟨h.queues, h.new, h.old, h.other, h.moved.congr rfl rfl,
    h.books.trans ⟨rfl, rfl, rfl, rfl, rfl, rfl, rfl, rfl, rfl, Nat.le_refl _, fun _ => rfl⟩⟩

/-- The new queue is held back. -/
theorem Replaces.delayed {q : QueueRef} {e x : Engine} (h : e.Replaces q none x) (hq : q ≠ e.queues.size)
    (d : Option Delay) : e.Replaces q d (x.changeQueue e.queues.size ({ · with delay := d })) where
  queues := (x.size_changeQueue _ _).trans h.queues
  new := by
    rw [x.queue_changeQueue_self (by rw [h.queues]; exact Nat.lt_succ_self _), h.new]
  old := (x.queue_changeQueue_of_ne (Ne.symm hq) _).trans h.old
  other hp ht := (x.queue_changeQueue_of_ne (Ne.symm ht) _).trans (h.other hp ht)
  moved := h.moved.congr rfl rfl
  books := h.books.trans (.changeQueue x _ _)

/-- The delay is set if there is one, and the conversion is reported. -/
theorem conclude_replaces {q : QueueRef} {e x : Engine} (h : e.Replaces q none x)
    (hq : q ≠ e.queues.size) (id : String) (d : Option Delay) :
    ∃ e', Discipline.Wakeful.conclude q e.queues.size id d x = (.ok e.queues.size, e') ∧
      e.Replaces q d e' := by
  have report (y : Engine) (hy : e.Replaces q d y) : ∃ e', (do
      Action.trace ("Converted instant queue '" ++ id ++ "' to a timed queue") (← Queues.scope q)
      pure e.queues.size : Action QueueRef) y = (.ok e.queues.size, e') ∧ e.Replaces q d e' := by
    let scope : Scope := { queue := some (y.queue q).id }
    obtain ⟨events, emit⟩ := y.emit_eq
      (.trace ("Converted instant queue '" ++ id ++ "' to a timed queue") scope) scope
    refine ⟨_, ?_, hy.withEvents events⟩
    rw [← emit]
    rfl
  cases d with
  | none => exact report x h
  | some d => exact report _ (h.delayed hq (some d))

theorem replaceByTimed_replaces (d : Option Delay) (e : Engine) {q : QueueRef}
    (hq : q < e.queues.size) :
    ∃ e', Queues.replaceByTimed q d e = (.ok e.queues.size, e') ∧ e.Replaces q d e' := by
  let t := e.queues.size
  let z := e.withQueue (Discipline.Wakeful.replacement e q)
  obtain ⟨y, append, replace⟩ := Discipline.Wakeful.replaceByTimed_parts d e q
  rw [e.queue_withQueue_of_lt hq] at append
  obtain ⟨entries, place, moved⟩ := placeAll_eq (e.queue q).pending t z
  let w := z.withEntries entries
  obtain rfl : w.changeQueue t (fun p => { p with pending := p.pending ++ (e.queue q).pending }) = y :=
    (Prod.mk.inj ((Action.bind_ok place).symm.trans append)).2
  let y := w.changeQueue t fun p => { p with pending := p.pending ++ (e.queue q).pending }
  let v := Discipline.Wakeful.swapped y q t
  have hqt : q ≠ t := Nat.ne_of_lt hq
  have wsize : w.queues.size = e.queues.size + 1 := e.size_withQueue _
  have ysize : y.queues.size = e.queues.size + 1 := (w.size_changeQueue _ _).trans wsize
  have vsize : v.queues.size = e.queues.size + 1 :=
    ((Engine.size_changeQueue _ _ _).trans (Engine.size_changeQueue _ _ _)).trans ysize
  have yold : y.queue q = e.queue q :=
    (w.queue_changeQueue_of_ne (Ne.symm hqt) _).trans (e.queue_withQueue_of_lt hq)
  have ynew : y.queue t =
      { Discipline.Wakeful.replacement e q with pending := (e.queue q).pending } := by
    have made : w.queue t = Discipline.Wakeful.replacement e q :=
      (e.queue_withQueue _ _).trans (if_pos rfl)
    refine (w.queue_changeQueue_self (by rw [wsize]; exact Nat.lt_succ_self _) _).trans ?_
    rw [made]
    rfl
  have yother {p : QueueRef} (ht : p ≠ t) : y.queue p = e.queue p :=
    (w.queue_changeQueue_of_ne (Ne.symm ht) _).trans ((e.queue_withQueue _ p).trans (if_neg ht))
  have vnew : v.queue t =
      { e.queue q with pace := .timed, state := .idle, replacedBy := none, speed := 0.0, delay := none } := by
    refine (Engine.queue_changeQueue_of_ne _ hqt _).trans ?_
    refine (y.queue_changeQueue_self (by rw [ysize]; exact Nat.lt_succ_self _) _).trans ?_
    rw [ynew, yold]
    rfl
  have vold : v.queue q = { e.queue q with
      pending := [], listeners := [], replacedBy := some t, state := .stopped } := by
    refine (Engine.queue_changeQueue_self _ ?_ _).trans ?_
    · rw [Engine.size_changeQueue, ysize]
      exact Nat.lt_succ_of_lt hq
    · rw [y.queue_changeQueue_of_ne (Ne.symm hqt), yold]
  have vother {p : QueueRef} (hp : p ≠ q) (ht : p ≠ t) : v.queue p = e.queue p :=
    (Discipline.Wakeful.queue_swapped_other hp ht).trans (yother ht)
  have books : e.SameBooks v :=
    ((((SameBooks.withQueue e _).trans (.withEntries z entries)).trans (.changeQueue w _ _)).trans
      (.changeQueue y _ _)).trans (.changeQueue _ _ _)
  have swapped : e.Replaces q none v := ⟨vsize, vnew, vold, vother, moved.congr rfl rfl, books⟩
  obtain ⟨e', conclude, replaces⟩ := conclude_replaces swapped hqt (e.queue q).id d
  exact ⟨e', replace.trans conclude, replaces⟩

end Engine

end QueueScript
