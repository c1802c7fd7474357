import QueueScript.Proofs.Paired.Procedures

/-!
# An entry that its queue waits for, or not

Two engines are run side by side that differ in the mark of one entry: in the second engine its queue
waits for it.  Whatever does not look at the mark goes the same way on both, apart from diagnostics,
which show the mark.

The engines differ in the mark and in diagnostics only, and no queue from a number on has run the entry
last (`Engine.Abreast`): a queue whose last entry it is would be held by it.  So commands that touch nothing
but their queue, and all that comes before a command, go alike on both (`Paired.owning_abreast`).
-/

namespace QueueScript

namespace Engine

/-- The engine with its queue waiting for the entry. -/
def awaiting (e : Engine) (n : EntryRef) : Engine :=
  e.changeEntry n (·.waiting true)

/-- In the second engine the queue of the entry `n` waits for it; else only diagnostics differ.  No queue
from `k` on has run the entry last. -/
structure Abreast (k : QueueRef) (n : EntryRef) (e e' : Engine) : Prop where
  same : e' = { e.awaiting n with events := e'.events }
  size : n < e.entries.size
  last {q : QueueRef} : k ≤ q → (e.queue q).last ≠ some n

namespace Abreast

variable {k : QueueRef} {n : EntryRef} {e e' : Engine} {α : Type}

theorem refl (hn : n < e.entries.size) (hk : ∀ {q}, k ≤ q → (e.queue q).last ≠ some n) :
    Abreast k n e (e.awaiting n) :=
  ⟨rfl, hn, hk⟩

/-- What does not depend on entries and diagnostics is seen alike. -/
theorem see {f : Engine → α} (h : Abreast k n e e')
    (hf : ∀ (e : Engine) entries events, f { e with entries, events } = f e) : f e' = f e := by
  rw [h.same]
  exact hf e _ _

theorem sizes (h : Abreast k n e e') : e'.entries.size = e.entries.size := by
  rw [h.same]
  exact Array.size_modify

theorem entry (h : Abreast k n e e') (m : EntryRef) : ∃ w, e'.entry m = (e.entry m).waiting w := by
  rw [h.same]
  show ∃ w, (e.awaiting n).entry m = _
  rw [awaiting, entry_changeEntry]
  split
  · exact ⟨true, rfl⟩
  · exact ⟨(e.entry m).code.waits, (Entry.waiting_self _).symm⟩

theorem entry_of_ne (h : Abreast k n e e') {m : EntryRef} (hm : m ≠ n) : e'.entry m = e.entry m := by
  rw [h.same]
  exact e.entry_changeEntry_of_ne (Ne.symm hm) _

theorem entry_self (h : Abreast k n e e') : e'.entry n = (e.entry n).waiting true := by
  rw [h.same]
  exact e.entry_changeEntry_self h.size _

/-- What an entry has besides its mark is seen alike. -/
theorem seeEntry (h : Abreast k n e e') {f : Entry → α} (hf : ∀ x w, f (x.waiting w) = f x) (m : EntryRef) :
    f (e'.entry m) = f (e.entry m) := by
  obtain ⟨w, hw⟩ := h.entry m
  rw [hw, hf]

theorem queue (h : Abreast k n e e') (q : QueueRef) : e'.queue q = e.queue q :=
  h.see (f := fun e => e.queue q) fun _ _ _ => rfl

/-- A change of anything but entries and the last entries of queues. -/
theorem aside (h : Abreast k n e e') {f : Engine → Engine}
    (hf : ∀ (e : Engine) entries events, f { e with entries, events } = { f e with entries, events })
    (hn : ∀ e, (f e).entries = e.entries) (hl : ∀ {q}, k ≤ q → ((f e).queue q).last = some n →
      (e.queue q).last = some n) : Abreast k n (f e) (f e') := by
  have changed : f e' = { f e with entries := (e.awaiting n).entries, events := e'.events } := by
    rw [h.same]
    exact hf e _ _
  refine ⟨?_, (hn e).symm ▸ h.size, fun hq last => h.last hq (hl hq last)⟩
  rw [changed, awaiting, awaiting, Engine.changeEntry, Engine.changeEntry, hn]

/-- A change of a queue that does not say which entry ran last. -/
theorem changeQueue (h : Abreast k n e e') (q : QueueRef) {f : Queue → Queue}
    (hf : ∀ z, (f z).last = z.last) : Abreast k n (e.changeQueue q f) (e'.changeQueue q f) := by
  refine h.aside (f := (·.changeQueue q f)) (fun _ _ _ => rfl) (fun _ => rfl) fun _ last => ?_
  rwa [e.queue_changeQueue_keep hf] at last

/-- The same is written on an entry. -/
theorem changeEntry (h : Abreast k n e e') (m : EntryRef) {f : Entry → Entry}
    (hf : ∀ x w, f (x.waiting w) = (f x).waiting w) : Abreast k n (e.changeEntry m f) (e'.changeEntry m f) := by
  have comm : (e.entries.modify n (·.waiting true)).modify m f =
      (e.entries.modify m f).modify n (·.waiting true) := by
    refine Array.ext (by simp) fun i _ _ => ?_
    simp only [Array.getElem_modify]
    split <;> split <;> simp [hf]
  refine ⟨?_, ?_, h.last⟩
  · rw [h.same]
    show ({ e with entries := (e.entries.modify n _).modify m f, events := e'.events } : Engine) = _
    rw [comm]
    rfl
  · simpa [Engine.changeEntry] using h.size

/-- A new entry. -/
theorem push (h : Abreast k n e e') (x : Entry) :
    Abreast k n { e with entries := e.entries.push x } { e' with entries := e'.entries.push x } := by
  have comm : (e.entries.modify n (·.waiting true)).push x =
      (e.entries.push x).modify n (·.waiting true) := by
    have size := h.size
    refine Array.ext (by simp) fun i _ _ => ?_
    grind
  refine ⟨?_, ?_, h.last⟩
  · rw [h.same]
    show ({ e with entries := (e.entries.modify n _).push x, events := e'.events } : Engine) = _
    rw [comm]
    rfl
  · simpa using Nat.lt_succ_of_lt h.size

/-- Different diagnostics are shown. -/
theorem emit (h : Abreast k n e e') (event event' : Event) (s s' : Scope) :
    Abreast k n (e.emit event s) (e'.emit event' s') := by
  obtain ⟨events, shown⟩ := e.emit_eq event s
  obtain ⟨events', shown'⟩ := e'.emit_eq event' s'
  rw [shown, shown']
  refine ⟨?_, h.size, h.last⟩
  have same := h.same
  rw [same]
  rfl

/-- The engines look alike. -/
theorem resembles (h : Abreast k n e e') : e.Resembles e' where
  same := ⟨e'.veil, by rw [h.same]; rfl⟩
  settings := ⟨e.config.debug, h.see (f := Engine.config) fun _ _ _ => rfl⟩
  script i := ⟨(e.script i).traced, h.see (f := (·.script i)) fun _ _ _ => rfl⟩
  entries := h.sizes
  entry := h.entry
  queues := h.see (f := fun e => e.queues.size) fun _ _ _ => rfl
  queue q := ⟨(e.queue q).tempo, by rw [h.queue q, Queue.paced_tempo]⟩

end Abreast

end Engine

namespace Paired

variable {k : QueueRef} {n : EntryRef}

/-- Any diagnostics may be shown. -/
theorem seen_abreast (k : QueueRef) (n : EntryRef) (s s' : Scope) : Seen (Engine.Abreast k n) s s' where
  emit event _ h := h.emit (event s) (event s') s s'

/-- What touches nothing but its queue may be done on engines that differ in the mark and in diagnostics. -/
theorem owning_abreast (k : QueueRef) (n : EntryRef) : Owning (Engine.Abreast k n) k [n] where
  resembles h := h.resembles
  scope _ _ := seen_abreast k n _ _
  emit event s h := h.emit event event s s
  announce _ _ h := h.emit _ _ _ _
  trace _ _ s h := h.emit _ _ s s
  changeEntry m _ hf h := h.changeEntry m hf
  changeQueue q _ _ hl h := h.changeQueue q hl
  aside {e e' f} hf _ h := by
    -- What `f` makes of an engine is veiled as the engine is.
    have kept (e : Engine) : f e = (f e).veiled e.veil := hf e e.veil
    have entries (e : Engine) : (f e).entries = e.entries := by rw [kept e]; rfl
    have queues (e : Engine) : (f e).queues = e.queues := by rw [kept e]; rfl
    refine h.aside (fun e entries events => ?_) entries fun {q} _ last => ?_
    · exact (hf e { e.veil with entries, events }).trans
        (congrArg (fun x : Engine => { x with entries, events }) (kept e).symm)
    · rwa [Engine.queue_congr (queues e)] at last
  push x h := h.push x
  base i ns h := by
    let kept (e : Engine) : Engine :=
      { e with scripts := e.scripts.modify i ({ · with base := some ns }) }
    exact h.aside (f := kept) (fun _ _ _ => rfl) (fun _ => rfl) fun _ last => last
  withQueue {e e' x} hx h := by
    refine h.aside (f := (·.withQueue x)) (fun _ _ _ => rfl) (fun _ => rfl) fun {q} _ last => ?_
    rw [e.queue_withQueue] at last
    split at last
    · rw [hx] at last
      cases last
    · exact last
  last q hm h := by
    refine h.aside (f := (·.changeQueue q _)) (fun _ _ _ => rfl) (fun _ => rfl) fun {r} _ last => ?_
    rw [Engine.queue_changeQueue] at last
    split at last
    · exact absurd (List.mem_singleton.2 (Option.some.inj last)) hm
    · exact last
  note step h :=
    h.aside (f := fun e => { e with journal := step :: e.journal }) (fun _ _ _ => rfl) (fun _ => rfl)
      fun _ last => last
  own hk h := ⟨h.queue _, fun m last hm => h.last hk (List.mem_singleton.1 hm ▸ last)⟩
  entry hm h := h.entry_of_ne fun hmn => hm (List.mem_singleton.2 hmn)

end Paired

end QueueScript
