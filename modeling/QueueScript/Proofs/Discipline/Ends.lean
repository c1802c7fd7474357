import QueueScript.Proofs.Discipline.Blocks

/-!
# The ends of queues keep a discipline

A queue that ends leaves the registry and tells its listeners, and a queue that starts enters it.  These
are made of small changes of the queue, of the books of the engine and of the entries that waited, so a
discipline that allows these (`Discipline.Closing`) allows queues to start, to end and to be listened
to.
-/

namespace QueueScript

/-- The change of a queue keeps its pace and brings in no references. -/
structure Queue.Soft (f : Queue → Queue) : Prop where
  pace (x : Queue) : (f x).pace = x.pace
  pending (x : Queue) : (f x).pending = x.pending ∨ (f x).pending = []
  last (x : Queue) : (f x).last = x.last
  listeners (x : Queue) : ∀ l ∈ (f x).listeners, l ∈ x.listeners
  replacedBy (x : Queue) : (f x).replacedBy = x.replacedBy

/-- What is not about the entries and the listeners of a queue is softly changed. -/
theorem Queue.Soft.of_same {f : Queue → Queue} (hf : ∀ x : Queue,
    (f x).pace = x.pace ∧ (f x).pending = x.pending ∧ (f x).last = x.last ∧
      (f x).listeners = x.listeners ∧ (f x).replacedBy = x.replacedBy) : Queue.Soft f where
  pace x := (hf x).1
  pending x := .inl (hf x).2.1
  last x := (hf x).2.2.1
  listeners x _ h := (hf x).2.2.2.1 ▸ h
  replacedBy x := (hf x).2.2.2.2

namespace Discipline

/-- The entry may be marked as done, from now on. -/
def MayFinish (D : Discipline) (e : Engine) (n : EntryRef) : Prop :=
  ∀ x, D.inv x → D.le e x → D.Step x (x.changeEntry n ({ · with isFinished := true }))

/-- An entry of its own may be finished. -/
theorem Noting.mayFinish {D : Discipline} (hb : D.Noting) {e : Engine} {n : EntryRef} (hn : D.own e n) :
    D.MayFinish e n :=
  fun _ hx hl => (hb.finish hx (D.own_mono hl hn)).1

/-- The small changes that the life of a queue is made of, besides running its entries. -/
structure Closing (D : Discipline) : Prop extends Bookkeeping D where
  soft {e : Engine} (q : QueueRef) {f : Queue → Queue} :
    D.inv e → Queue.Soft f → D.Step e (e.changeQueue q f)
  hear {e : Engine} (q : QueueRef) {l : Listener} : D.inv e → (∀ n, l = .finish n → D.own e n) →
    D.Step e (e.changeQueue q fun queue => { queue with listeners := queue.listeners ++ [l] })
  heard {e : Engine} {q : QueueRef} {n : EntryRef} :
    D.inv e → .finish n ∈ (e.queue q).listeners → D.MayFinish e n
  books {e : Engine} (fired : List Firing) (lists : Array (List Value)) :
    D.inv e → D.Step e { e with fired, lists }
  setRegistry {e : Engine} {registry : Keyed QueueRef} :
    D.inv e → (∀ p ∈ registry, p ∈ e.registry ∨ p.2 < e.queues.size) → D.Step e (e.setRegistry registry)

namespace Closing

variable {D : Discipline} (hc : D.Closing) {e₀ : Engine} {q : QueueRef}

include hc

/-- A change of a queue that the discipline does not mind. -/
theorem safe_soft {f : Queue → Queue} (hf : Queue.Soft f) : D.Safe e₀ (Action.changeQueue q f) :=
  safe_change fun _ he _ => hc.soft q he hf

/-- A listener is told that a queue has ended. -/
theorem safe_tell {l : Listener} (hl : ∀ n, l = .finish n → D.MayFinish e₀ n) :
    D.Safe e₀ (Queues.tell q l) := by
  cases l with
  | finish n => exact safe_change (hl n rfl)
  | notify label error =>
    refine safe_bind (safe_queue q) fun queue => safe_bind (safe_change fun e he _ => ?_) fun _ => ?_
    · exact hc.books _ e.lists he
    · split
      · exact gives_fail nofun
      · exact safe_pure _

/-- A queue is taken off the registry. -/
theorem safe_unregister (q : QueueRef) : D.Safe e₀ (Queues.unregister q) := by
  refine safe_change fun e he _ => ?_
  dsimp only
  split
  · exact hc.setRegistry he fun _ h => .inl (List.mem_filter.1 h).1
  · exact Step.refl he

/-- A queue ends: its listeners are told and it leaves the registry. -/
theorem safe_complete : D.Safe e₀ (Queues.complete q) := by
  refine safe_bind (hc.safe_unregister q) fun _ => look_bind fun e₁ he₁ _ => ?_
  refine safe_bind (safe_queueScope q) fun s => ?_
  refine safe_bind (safe_trace hc.toBookkeeping _ s) fun _ => safe_bind (hc.safe_soft ?_) fun _ => ?_
  · exact ⟨fun _ => rfl, fun _ => .inl rfl, fun _ => rfl, fun _ _ h => absurd h List.not_mem_nil,
      fun _ => rfl⟩
  · exact safe_each fun l hl => hc.safe_tell fun n hn => hc.heard he₁ (hn ▸ hl)

/-- A queue is stopped. -/
theorem safe_stop : D.Safe e₀ (Queues.stop q) := by
  refine safe_bind (safe_queue q) fun queue => safe_ite (safe_pure _) ?_
  refine safe_bind (hc.safe_soft ?_) fun _ => hc.safe_complete
  exact ⟨fun _ => rfl, fun _ => .inr rfl, fun _ => rfl, fun _ _ h => h, fun _ => rfl⟩

/-- A queue ends by itself. -/
theorem safe_finish : D.Safe e₀ (Queues.finish q) := by
  refine safe_bind (safe_queue q) fun queue => safe_ite (safe_pure _) ?_
  refine safe_bind (hc.safe_soft ?_) fun _ => hc.safe_complete
  exact .of_same fun _ => ⟨rfl, rfl, rfl, rfl, rfl⟩

/-- A listener is added, or told at once on a queue that has ended. -/
theorem safe_onComplete {l : Listener} (hl : ∀ n, l = .finish n → D.own e₀ n) :
    D.Safe e₀ (Queues.onComplete q l) := by
  refine safe_bind (safe_queue q) fun queue => safe_ite (hc.safe_tell ?_) ?_
  · exact fun n hn => hc.mayFinish (hl n hn)
  exact safe_change fun _ he hle => hc.hear q he fun n hn => D.own_mono hle (hl n hn)

/-- A queue is launched. -/
theorem safe_launch (hq : ∀ e, D.le e₀ e → q < e.queues.size) : D.Safe e₀ (Queues.launch q) := by
  refine safe_bind (hc.safe_soft ?_) fun _ => safe_bind (safe_change fun e he hl => ?_) fun _ => ?_
  · exact .of_same fun _ => ⟨rfl, rfl, rfl, rfl, rfl⟩
  · refine hc.setRegistry he fun p hp => (Keyed.mem_put hp).imp id fun h => ?_
    rw [h]
    exact hq e hl
  · refine safe_bind (safe_queue q) fun _ => safe_bind (safe_queueScope q) fun s => ?_
    exact safe_trace hc.toBookkeeping _ s

/-- A queue is given an outcome. -/
theorem safe_determine (v : Value) : D.Safe e₀ (Queues.determine q v) := by
  refine safe_change fun e he _ => ?_
  split
  · exact hc.books e.fired _ he
  · have h : D.Step e { e with lists := e.lists.push [v] } := hc.books e.fired _ he
    exact h.trans (hc.soft q h.1 (.of_same fun _ => ⟨rfl, rfl, rfl, rfl, rfl⟩))

end Closing

end Discipline

end QueueScript
