import QueueScript.Proofs.Wakeful.Basic

/-!
# Actions that move nothing

Reports, notes on entries, placing entries and applying outcomes leave alone what holds queues and what
wakes them.  A handoff that is taken marks its entry, and so does a listener that is told, provided no
listener of the host comes before it and fails.
-/

namespace QueueScript

namespace Action

variable {α β : Type}

/-- The action moves nothing, whether it succeeds or fails. -/
structure Still (a : Action α) : Prop where
  run (e : Engine) : e.Unmoved (a e).2

/-- Nothing done. -/
theorem still_pure (x : α) : Still (pure x : Action α) :=
  ⟨fun e => .refl e⟩

/-- A look at the engine. -/
theorem still_look (f : Engine → α) : Still (look f) :=
  ⟨fun e => .refl e⟩

/-- A failure. -/
theorem still_fail (f : Failure) : Still (fail f : Action α) :=
  ⟨fun e => .refl e⟩

/-- One still action after another. -/
theorem still_bind {a : Action α} {f : α → Action β} (ha : Still a) (hf : ∀ x, Still (f x)) :
    Still (a >>= f) := by
  refine ⟨fun e => ?_⟩
  have hae := ha.run e
  show e.Unmoved (andThen a f e).2
  unfold andThen
  match hr : a e with
  | (.ok x, e') =>
    rw [hr] at hae
    exact hae.trans ((hf x).run e')
  | (.error err, e') =>
    rw [hr] at hae
    exact hae

/-- A still action on every item of a list. -/
theorem still_each {f : α → Action Unit} {xs : List α} (h : ∀ x, Still (f x)) :
    Still (each f xs) := by
  induction xs with
  | nil => exact still_pure ()
  | cons x rest ih => exact still_bind (h x) fun _ => ih

/-- One of two still actions. -/
theorem still_ite {c : Prop} [Decidable c] {a b : Action α} (ha : Still a) (hb : Still b) :
    Still (if c then a else b) := by
  split
  · exact ha
  · exact hb

/-- Actions that never fail do not fail for a list of items. -/
theorem each_ok {f : α → Action Unit} (h : ∀ x e, (f x e).1 = .ok ()) (xs : List α) (e : Engine) :
    (each f xs e).1 = .ok () := by
  induction xs generalizing e with
  | nil => rfl
  | cons x rest ih =>
    have hx := h x e
    show (andThen (f x) (fun _ => each f rest) e).1 = _
    unfold andThen
    match hr : f x e with
    | (.ok _, e') => exact ih e'
    | (.error err, e') =>
      rw [hr] at hx
      cases hx

/-- The change of an entry that leaves its mark alone. -/
theorem still_changeEntry (n : EntryRef) {f : Entry → Entry} (hs : Entry.Steadies f)
    (hf : ∀ x, (f x).isFinished = x.isFinished) : Still (changeEntry n f) :=
  ⟨fun e => e.unmoved_changeEntry n hs fun x h => (hf x).trans h⟩

/-- An entry is marked as finished. -/
theorem still_finish (n : EntryRef) : Still (Entries.finish n) :=
  ⟨fun e => e.unmoved_changeEntry n ⟨fun _ => rfl, fun _ => rfl⟩ fun _ _ => rfl⟩

/-- A report. -/
theorem still_emit (event : Event) (s : Scope) : Still (change (·.emit event s)) := by
  refine ⟨fun e => ?_⟩
  obtain ⟨events, h⟩ := e.emit_eq event s
  show e.Unmoved (e.emit event s)
  rw [h]
  exact Engine.unmoved_of_tables rfl rfl rfl rfl (fun _ h => h) fun _ h => h

/-- An entry is placed on a queue. -/
theorem still_place (n : EntryRef) (q : Option QueueRef) : Still (Entries.place n q) := by
  refine still_bind (still_changeEntry n ⟨fun _ => rfl, fun _ => rfl⟩ fun _ => rfl) fun _ => ?_
  exact still_bind (still_look _) fun _ => still_changeEntry n ⟨fun _ => rfl, fun _ => rfl⟩ fun _ => rfl

/-- Entries are put behind a queue. -/
theorem still_append (q : QueueRef) (ns : List EntryRef) : Still (Queues.append q ns) := by
  refine still_bind (still_each fun n => still_place n _) fun _ => ⟨fun e => ?_⟩
  exact e.unmoved_changeQueue q (fun _ => rfl) (fun _ => rfl) fun _ h => h

/-- A listener is told. -/
theorem still_tell (q : QueueRef) (l : Listener) : Still (Queues.tell q l) := by
  cases l with
  | finish n => exact still_finish n
  | notify label error =>
    refine still_bind (still_look _) fun queue => still_bind ⟨fun e => ?_⟩ fun _ => ?_
    · exact Engine.unmoved_of_tables rfl rfl rfl rfl (fun _ h => h) fun _ h => h
    · split
      · exact still_fail _
      · exact still_pure _

/-- A queue leaves the registry. -/
theorem still_unregister (q : QueueRef) : Still (Queues.unregister q) := by
  refine ⟨fun e => ?_⟩
  show e.Unmoved (if _ then _ else _)
  split
  · exact Engine.unmoved_of_tables rfl rfl rfl rfl (fun _ h => h) fun _ h => h
  · exact .refl e

/-- A queue starts. -/
theorem still_launch (q : QueueRef) : Still (Queues.launch q) := by
  refine still_bind ⟨fun e => ?_⟩ fun _ => still_bind ⟨fun e => ?_⟩ fun _ => ?_
  · exact e.unmoved_changeQueue q (fun _ => rfl) (fun _ => rfl) fun _ h => absurd h nofun
  · exact Engine.unmoved_of_tables rfl rfl rfl rfl (fun _ h => h) fun _ h => h
  · refine still_bind (still_look _) fun _ => ?_
    exact still_bind (still_bind (still_look _) fun _ => still_pure _) fun s => still_emit _ s

/-- A queue is given an outcome. -/
theorem still_determine (q : QueueRef) (v : Value) : Still (Queues.determine q v) := by
  refine ⟨fun e => ?_⟩
  rcases Queues.determine_cases q v e with ⟨i, -, done⟩ | ⟨-, done⟩ <;> rw [done]
  · exact Engine.unmoved_of_tables rfl rfl rfl rfl (fun _ h => h) fun _ h => h
  · have grown : e.Unmoved { e with lists := e.lists.push [v] } :=
      Engine.unmoved_of_tables rfl rfl rfl rfl (fun _ h => h) fun _ h => h
    exact grown.trans
      (Engine.unmoved_changeQueue _ q (fun _ => rfl) (fun _ => rfl) fun _ h => h)

/-- The outcome of background work is applied. -/
theorem still_apply (n : EntryRef) (o : Outcome) : Still (Background.apply n o) := by
  have store (key : String) (v : Value) : Still (Entries.store n key v) :=
    still_changeEntry n ⟨fun _ => rfl, fun _ => rfl⟩ fun _ => rfl
  have report (message : String) (f : Option Failure) :
      Still (do Action.error message (← Entries.scope n) f) :=
    still_bind (still_look _) fun s => still_emit _ s
  refine still_bind (still_look _) fun x => ?_
  cases o with
  | content b => exact store _ _
  | value v => exact store _ _
  | unusable message => exact still_fail _
  | done =>
    dsimp only
    split
    · exact store _ _
    · exact still_pure _
  | failure f =>
    dsimp only
    split
    · exact still_bind (store _ _) fun _ => report _ _
    · exact report _ _
  | response r url isSilent =>
    exact still_bind (still_each fun kv => store _ _) fun _ => still_ite (report _ _) (still_pure _)

end Action

namespace Heartbeat

/-- Taking a handoff moves nothing. -/
theorem still_takeOverSafely (h : Handoff) : Action.Still (takeOverSafely h) := by
  refine ⟨fun e => ?_⟩
  cases h with
  | task label count error again =>
    obtain ⟨events, heq⟩ := takeOverSafely_task e label count error again
    rw [heq]
    exact Engine.unmoved_of_tables rfl rfl rfl rfl (fun _ h => h)
      fun _ h => List.mem_append_left _ h
  | settle n o =>
    obtain ⟨e', heq, hover⟩ := takeOverSafely_settle e n o
    rw [heq]
    by_cases hd : Background.Drops e n
    · obtain ⟨message, rfl⟩ := hover.1 hd
      exact ((Action.still_emit _ _).run e).trans ((Action.still_finish n).run _)
    · have applied := (Action.still_apply n o).run e
      obtain ⟨z, ⟨hz, rfl⟩ | ⟨f, hz, rfl⟩⟩ := hover.2 hd
      · rw [hz] at applied
        exact applied.trans ((Action.still_finish n).run z)
      · rw [hz] at applied
        exact (applied.trans ((Action.still_finish n).run z)).trans ((Action.still_emit _ _).run _)

/-- When all handoffs are taken, every entry that one of them was for is marked. -/
theorem marked_each {e : Engine} (he : e.Tidy) {hs : List Handoff}
    (hh : ∀ n o, Handoff.settle n o ∈ hs → e.Live n) {n : EntryRef} {o : Outcome}
    (hn : Handoff.settle n o ∈ hs) :
    ((Action.each takeOverSafely hs e).2.entry n).isFinished = true := by
  induction hs generalizing e with
  | nil => cases hn
  | cons h rest ih =>
    obtain ⟨hok, ht⟩ := taken_one he (h := h) fun m p hm => hh m p (by simp [hm])
    rw [each_cons hok]
    rcases List.mem_cons.1 hn with rfl | hn'
    · -- The entry is marked now, and nothing that comes later takes the mark off.
      obtain ⟨e', heq, hover⟩ := takeOverSafely_settle e n o
      have hsize := (ht.grows.live (hh n o hn)).1
      rw [heq] at hsize ⊢
      exact ((Action.still_each still_takeOverSafely).run e').marked hsize (hover.isFinished hsize)
    · exact ih ht.tidy (fun m p hm => ht.grows.live (hh m p (List.mem_cons_of_mem _ hm))) hn'

end Heartbeat

namespace Queues

/-- Telling listeners moves nothing and is not cut off.  If those that mark entries come first, all of
their entries are marked, even if a later listener fails. -/
theorem told (q : QueueRef) {ls : List Listener} (hls : Listener.FinishFirst ls) (e : Engine) :
    (Action.each (tell q) ls e).1 ≠ .error .exhausted ∧
      ∀ n, Listener.finish n ∈ ls → n < e.entries.size →
        ((Action.each (tell q) ls e).2.entry n).isFinished = true := by
  induction ls generalizing e with
  | nil => exact ⟨nofun, fun n hn => absurd hn List.not_mem_nil⟩
  | cons l rest ih =>
    obtain ⟨hl, hrest⟩ := List.pairwise_cons.1 hls
    cases l with
    | finish m =>
      let e₁ := e.changeEntry m ({ · with isFinished := true })
      have later : e₁.Unmoved (Action.each (tell q) rest e₁).2 :=
        (Action.still_each (Action.still_tell q)).run e₁
      obtain ⟨hcut, hmarked⟩ := ih hrest e₁
      refine ⟨hcut, fun n hn hsize => ?_⟩
      have hsize₁ : n < e₁.entries.size := by simpa [e₁] using hsize
      rcases List.mem_cons.1 hn with hn | hn
      · cases hn
        refine later.marked hsize₁ ?_
        exact congrArg Entry.isFinished (e.entry_changeEntry_self hsize _)
      · exact hmarked n hn hsize₁
    | notify label error =>
      have none (n : EntryRef) (hn : Listener.finish n ∈ Listener.notify label error :: rest) :
          False := by
        rcases List.mem_cons.1 hn with hn | hn
        · cases hn
        · exact absurd (hl _ hn rfl) nofun
      refine ⟨?_, fun n hn => (none n hn).elim⟩
      cases error with
      | some message => exact nofun
      | none => exact (ih hrest _).1

end Queues

end QueueScript
