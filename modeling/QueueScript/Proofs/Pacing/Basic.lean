import QueueScript.Proofs.Paired.Procedures

/-!
# Engines up to the pace of a queue

How a queue paces its entries, the heartbeats and the traces are taken away from an engine
(`Engine.unpaced`): the queue becomes an instant one, the heart has not beaten, and of the diagnostics only
output and errors are left.  Two engines of which the same is left are the same but for the pace of the
queue (`Engine.SameButPace`).  Commands that touch nothing but their queue, and all that comes before a
command, go alike on them (`Paired.owning_pace`).
-/

namespace QueueScript

/-- The queue when it runs its entries back to back. -/
def Queue.unpaced (x : Queue) : Queue :=
  x.paced ⟨.instant, 0.0, none⟩

/-- A step of the history, whatever the pace of the queue was when it began the entry. -/
def Step.unpaced : Step → Step
  | .began p n before previous => .began p n before.unpaced previous
  | .returned p n ran => .returned p n ran

namespace Engine

variable {α : Type}

/-- The engine without the pace of the queue `q`, heartbeats and traces. -/
def unpaced (q : QueueRef) (e : Engine) : Engine :=
  { e with
    queues := e.queues.modify q Queue.unpaced
    events := e.events.filter (!·.kind.isTrace)
    journal := e.journal.map Step.unpaced
    heartbeatTime := 0.0
    beats := 0 }

/-- The engines are the same but for the pace of the queue `q`, heartbeats and traces. -/
def SameButPace (q : QueueRef) (e e' : Engine) : Prop :=
  e'.unpaced q = e.unpaced q

/-- Any queue of an engine in which one has lost its pace. -/
theorem queue_unpaced (q : QueueRef) (e : Engine) (p : QueueRef) :
    (e.unpaced q).queue p = if p = q then (e.queue p).unpaced else e.queue p := by
  have changed : (e.unpaced q).queue p = (e.changeQueue q Queue.unpaced).queue p := rfl
  rw [changed, queue_changeQueue]
  by_cases hp : p = q
  · rw [if_pos hp]
    split
    · rfl
    · rename_i hsize
      rw [e.queue_of_size_le (Nat.le_of_not_lt fun h => hsize ⟨hp.symm, h⟩)]
      rfl
  · rw [if_neg hp, if_neg fun h => hp h.1.symm]

/-- There are as many queues. -/
theorem size_unpaced (q : QueueRef) (e : Engine) : (e.unpaced q).queues.size = e.queues.size :=
  Array.size_modify

/-- A trace leaves nothing behind. -/
theorem unpaced_trace (q : QueueRef) (e : Engine) {event : Event} (s : Scope)
    (ht : event.kind.isTrace = true) : (e.emit event s).unpaced q = e.unpaced q := by
  unfold emit
  split
  · have dropped : (event :: e.events).filter (!·.kind.isTrace) = e.events.filter (!·.kind.isTrace) :=
      List.filter_cons_of_neg (by simp [ht])
    exact congrArg (fun events => { e.unpaced q with events }) dropped
  · rfl

/-- Output and errors are always shown, and kept. -/
theorem unpaced_emit (q : QueueRef) (e : Engine) {event : Event} (s : Scope)
    (ht : event.kind.isTrace = false) :
    (e.emit event s).unpaced q = { e.unpaced q with events := event :: (e.unpaced q).events } := by
  have shown : event.isShown e.tracing s = true := by
    unfold Event.isShown
    rw [ht]
    rfl
  have kept : (event :: e.events).filter (!·.kind.isTrace) =
      event :: e.events.filter (!·.kind.isTrace) := List.filter_cons_of_pos (by simp [ht])
  unfold emit
  rw [if_pos shown]
  exact congrArg (fun events => { e.unpaced q with events }) kept

/-- A queue may be made before or after another one loses its pace. -/
theorem unpaced_withQueue (q : QueueRef) (e : Engine) (x : Queue) : (e.withQueue x).unpaced q =
    (e.unpaced q).withQueue (if q = e.queues.size then x.unpaced else x) := by
  have comm : (e.queues.push x).modify q Queue.unpaced = (e.queues.modify q Queue.unpaced).push
      (if q = e.queues.size then x.unpaced else x) := by
    refine Array.ext (by simp) fun i _ _ => ?_
    grind
  exact congrArg (fun queues => { (e.unpaced q).withQueue x with queues }) comm

namespace SameButPace

variable {q : QueueRef} {e e' e'' : Engine}

/-- An engine is the same but for the pace. -/
theorem refl (q : QueueRef) (e : Engine) : SameButPace q e e :=
  rfl

/-- What is the same but for the pace twice is so. -/
theorem trans (h : SameButPace q e e') (h' : SameButPace q e' e'') : SameButPace q e e'' :=
  Eq.trans h' h

/-- It does not matter which engine is looked at first. -/
theorem symm (h : SameButPace q e e') : SameButPace q e' e :=
  Eq.symm h

/-- What is left of the engines is seen alike. -/
theorem see (h : SameButPace q e e') {f : Engine → α} (hf : ∀ e, f (e.unpaced q) = f e) : f e' = f e := by
  rw [← hf e', h, hf]

/-- A change that may as well be made of what is left. -/
theorem change (h : SameButPace q e e') {f : Engine → Engine}
    (hf : ∀ e, (f e).unpaced q = f (e.unpaced q)) : SameButPace q (f e) (f e') := by
  unfold SameButPace
  rw [hf, hf, h]

/-- The entries are the same. -/
theorem entries (h : SameButPace q e e') : e'.entries = e.entries :=
  h.see (f := Engine.entries) fun _ => rfl

/-- Each entry is the same. -/
theorem entry (h : SameButPace q e e') (n : EntryRef) : e'.entry n = e.entry n :=
  entry_congr h.entries n

/-- The queue itself is the same but for its pace. -/
theorem unpacedQueue (h : SameButPace q e e') : (e'.queue q).unpaced = (e.queue q).unpaced := by
  have left := congrArg (fun e => Engine.queue e q) h
  simpa only [queue_unpaced, if_pos] using left

/-- Other queues are the same. -/
theorem queue_of_ne (h : SameButPace q e e') {p : QueueRef} (hp : p ≠ q) : e'.queue p = e.queue p := by
  have left := congrArg (fun e => Engine.queue e p) h
  simpa only [queue_unpaced, if_neg hp] using left

/-- The queue differs in its tempo. -/
theorem queue (h : SameButPace q e e') : e'.queue q = (e.queue q).paced (e'.queue q).tempo :=
  congrArg (·.paced (e'.queue q).tempo) h.unpacedQueue

/-- The engines look alike. -/
theorem resembles (h : SameButPace q e e') : e.Resembles e' where
  same := ⟨e'.veil, congrArg (·.veiled e'.veil) h⟩
  settings := ⟨e.config.debug, h.see (f := Engine.config) fun _ => rfl⟩
  script i := ⟨(e.script i).traced, h.see (f := (·.script i)) fun _ => rfl⟩
  entries := congrArg Array.size h.entries
  entry n := ⟨(e.entry n).code.waits, (h.entry n).trans (Entry.waiting_self _).symm⟩
  queues := h.see (f := fun e => e.queues.size) (size_unpaced q)
  queue p := by
    by_cases hp : p = q
    · exact hp ▸ ⟨_, h.queue⟩
    · exact ⟨(e.queue p).tempo, h.queue_of_ne hp⟩

/-- Entries report in the same place. -/
theorem scope (h : SameButPace q e e') (n : EntryRef) : e'.scope n = e.scope n := by
  have script : e'.script = e.script := h.see fun _ => rfl
  have id : (fun p => (e'.queue p).id) = fun p => (e.queue p).id :=
    funext (h.resembles.seeQueue (f := Queue.id) fun _ _ => rfl)
  unfold Engine.scope
  rw [h.entry n, h.resembles.residingQueue n, script, id]

/-- The same report on both sides. -/
theorem emit (h : SameButPace q e e') (event : Event) (s : Scope) :
    SameButPace q (e.emit event s) (e'.emit event s) := by
  unfold SameButPace
  cases ht : event.kind.isTrace with
  | true => rw [unpaced_trace q e' s ht, unpaced_trace q e s ht, h]
  | false => rw [unpaced_emit q e' s ht, unpaced_emit q e s ht, h]

/-- A trace on both sides, which may say different things. -/
theorem trace (h : SameButPace q e e') {event event' : Event} (s s' : Scope)
    (ht : event.kind.isTrace = true) (ht' : event'.kind.isTrace = true) :
    SameButPace q (e.emit event s) (e'.emit event' s') := by
  unfold SameButPace
  rw [unpaced_trace q e' s' ht', unpaced_trace q e s ht, h]

/-- The same is done to a queue, which does not say its tempo. -/
theorem changeQueue (h : SameButPace q e e') (p : QueueRef) {f : Queue → Queue}
    (hf : ∀ x t, f (x.paced t) = (f x).paced t) :
    SameButPace q (e.changeQueue p f) (e'.changeQueue p f) := by
  refine h.change (f := (·.changeQueue p f)) fun e => ?_
  have comm : (e.queues.modify p f).modify q Queue.unpaced = (e.queues.modify q Queue.unpaced).modify p f := by
    refine Array.ext (by simp) fun i _ _ => ?_
    simp only [Array.getElem_modify]
    split <;> split <;> simp [Queue.unpaced, hf]
  exact congrArg (fun queues => { e.unpaced q with queues }) comm

/-- Something is changed that does not look another way in one of the engines. -/
theorem aside (h : SameButPace q e e') {f : Engine → Engine}
    (hf : ∀ (e : Engine) v, f (e.veiled v) = (f e).veiled v) : SameButPace q (f e) (f e') := by
  refine h.change fun e => ?_
  have kept : f e = (f e).veiled e.veil := hf e e.veil
  exact (congrArg (Engine.unpaced q) kept).trans (hf e (e.unpaced q).veil).symm

/-- Another queue is made, of the same tempo. -/
theorem withQueue (h : SameButPace q e e') (x : Queue) :
    SameButPace q (e.withQueue x) (e'.withQueue x) := by
  unfold SameButPace
  rw [unpaced_withQueue, unpaced_withQueue, h, h.resembles.queues]

/-- The same is noted, whatever the pace was. -/
theorem note (h : SameButPace q e e') {s s' : Step} (hs : s'.unpaced = s.unpaced) :
    SameButPace q { e with journal := s :: e.journal } { e' with journal := s' :: e'.journal } := by
  have noted (e : Engine) (s : Step) : unpaced q { e with journal := s :: e.journal } =
      { e.unpaced q with journal := s.unpaced :: (e.unpaced q).journal } := rfl
  unfold SameButPace
  rw [noted, noted, h, hs]

/-- The queue begins an entry. -/
theorem begun (h : SameButPace q e e') (n : EntryRef) (rest : List EntryRef) :
    SameButPace q (e.begun q n rest) (e'.begun q n rest) := by
  have taken := h.changeQueue q (f := ({ · with pending := rest })) fun _ _ => rfl
  refine (taken.note ?_).changeQueue q (f := ({ · with last := some n })) fun _ _ => rfl
  let x := e.changeQueue q ({ · with pending := rest })
  let x' := e'.changeQueue q ({ · with pending := rest })
  have last : (x'.queue q).last = (x.queue q).last := congrArg (·.last) taken.unpacedQueue
  have entry : x'.entry = x.entry := funext taken.entry
  show Step.began q n (x'.queue q).unpaced ((x'.queue q).last.map x'.entry) =
    Step.began q n (x.queue q).unpaced ((x.queue q).last.map x.entry)
  rw [taken.unpacedQueue, last, entry]

/-- The queue is made at another pace. -/
theorem made (e : Engine) {x x' : Queue} (h : x'.unpaced = x.unpaced) :
    SameButPace e.queues.size (e.withQueue x) (e.withQueue x') := by
  unfold SameButPace
  rw [unpaced_withQueue, unpaced_withQueue, if_pos rfl, if_pos rfl, h]

/-- A queue is held back otherwise. -/
theorem delay (q : QueueRef) (e : Engine) (d : Option Delay) :
    SameButPace q e (e.changeQueue q ({ · with delay := d })) := by
  have same : (e.queues.modify q ({ · with delay := d })).modify q Queue.unpaced =
      e.queues.modify q Queue.unpaced := by
    refine Array.ext (by simp) fun i _ _ => ?_
    simp only [Array.getElem_modify]
    split <;> rfl
  exact congrArg (fun queues => { e.unpaced q with queues }) same

end SameButPace

end Engine

namespace Paired

/-- What touches nothing but its queue may be done on engines that are the same but for a pace. -/
theorem owning_pace (q : QueueRef) : Owning (Engine.SameButPace q) (q + 1) [] where
  resembles h := h.resembles
  scope n h := h.scope n ▸ ⟨fun event _ h => h.emit (event _) _⟩
  emit event s h := h.emit event s
  announce n command h := h.trace _ _ rfl rfl
  trace p message s h := h.trace s s rfl rfl
  changeEntry n f _ h := h.change (f := (·.changeEntry n f)) fun _ => rfl
  changeQueue p _ hf _ h := h.changeQueue p hf
  aside hf _ h := h.aside hf
  push x h := h.change (f := fun e => { e with entries := e.entries.push x }) fun _ => rfl
  base i ns h := by
    let kept (e : Engine) : Engine :=
      { e with scripts := e.scripts.modify i ({ · with base := some ns }) }
    exact h.change (f := kept) fun _ => rfl
  withQueue _ h := h.withQueue _
  last p _ h := h.changeQueue p fun _ _ => rfl
  note _ h := h.note rfl
  own hp h := ⟨h.queue_of_ne (Nat.ne_of_gt hp), fun _ _ => List.not_mem_nil⟩
  entry _ h := h.entry _

end Paired

end QueueScript
