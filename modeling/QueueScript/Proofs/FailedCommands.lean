import QueueScript.Proofs.Isolation

/-!
# Commands that fail change nothing

The commands that steer queues read all that may fail, such as tags, conditions, durations and the
names of scripts and queues, before they change anything but the notes on their entry.  So when such an
entry fails, everything is as it was, apart from the notes and from the queues of procedures that its
tags called, which have ended (`Engine.Spared`).

Two things that come after the first change might fail all the same.  A queue that ends tells its
listeners, and a queue that is started runs entries.  Entries report their failures themselves, so what
is left is a listener of the host that answers with an error (`Listener.objects`).
-/

namespace QueueScript

open QueueScript.Action

/-! ## Queues that nobody objects to -/

namespace Engine

/-- The queue is there, and nobody who is told of its end answers with an error. -/
structure Unopposed (p : QueueRef) (e : Engine) : Prop where
  here : p < e.queues.size
  listeners : ∀ l ∈ (e.queue p).listeners, l.objects = false

namespace Unopposed

variable {e e' : Engine} {p : QueueRef}

/-- Listeners are read off the queues only. -/
theorem of_queues (h : e.Unopposed p) (hq : e'.queues = e.queues) : e'.Unopposed p :=
  ⟨hq ▸ h.here, by rw [queue_congr hq]; exact h.listeners⟩

/-- A queue that is changed gets no listener that objects. -/
theorem changeQueue (h : e.Unopposed p) (q : QueueRef) {f : Queue → Queue}
    (hf : ∀ z, ∀ l ∈ (f z).listeners, l ∈ z.listeners ∨ l.objects = false) :
    (e.changeQueue q f).Unopposed p := by
  refine ⟨by simpa using h.here, ?_⟩
  rw [queue_changeQueue]
  split
  · exact fun l hl => (hf _ l hl).elim (h.listeners l) id
  · exact h.listeners

/-- Telling a listener leaves no listener that objects. -/
theorem tell (h : e.Unopposed p) (q : QueueRef) (l : Listener) : (Queues.tell q l e).2.Unopposed p := by
  cases l with
  | finish n => exact h.of_queues rfl
  | notify label error =>
    cases error with
    | none => exact h.of_queues rfl
    | some message => exact h.of_queues rfl

/-- An outcome leaves no listener that objects. -/
theorem determine (h : e.Unopposed p) (q : QueueRef) (v : Value) :
    (Queues.determine q v e).2.Unopposed p := by
  rcases Queues.determine_cases q v e with ⟨i, -, done⟩ | ⟨-, done⟩ <;> rw [done]
  · exact h.of_queues rfl
  · have grown : ({ e with lists := e.lists.push [v] } : Engine).Unopposed p := h.of_queues rfl
    exact grown.changeQueue q fun _ _ hl => .inl hl

/-- No listener that objects ever comes up by itself. -/
theorem hardy (p : QueueRef) : Discipline.Hardy (Unopposed p) where
  tables _ _ _ h _ := h.of_queues rfl
  queue _ hf h := h.changeQueue _ fun z l hl => .inl (hf.listeners z l hl)
  memory _ _ h := h.of_queues rfl
  base _ _ h := h.of_queues rfl
  determine v _ h := h.determine _ v
  tell _ _ _ h := h.tell _ _
  aside h hq _ _ _ _ _ := h.of_queues hq
  make {e x} h _ _ := by
    refine ⟨by simpa using Nat.lt_succ_of_lt h.here, ?_⟩
    rw [e.queue_withQueue_of_lt h.here]
    exact h.listeners
  listen {e} q n h := by
    show ((if (e.queue q).state.isEnd then _ else _ : Action Unit) e).2.Unopposed p
    split
    · exact h.tell q _
    · refine h.changeQueue q fun z l hl => (List.mem_append.1 hl).imp_right fun hl => ?_
      rw [List.mem_singleton.1 hl]
      rfl
  replace {e e' q d} h hq hr := by
    refine ⟨hr.queues ▸ Nat.lt_succ_of_lt h.here, ?_⟩
    by_cases hp : p = q
    · rw [hp, hr.old]
      exact fun l hl => absurd hl List.not_mem_nil
    · rw [hr.other hp (Nat.ne_of_lt h.here)]
      exact h.listeners

end Unopposed

end Engine

/-! ## Starts that do not fail -/

namespace Drive

open Discipline

variable {x : Engine} {p : QueueRef}

/-- A turn fails only if it is cut off, as long as nobody objects to the end of the queue. -/
theorem sureAt_advance (fuel k : Nat) (h : (healthy.also (Engine.Unopposed p)).inv x)
    (hu : Undelayed x p) : SureAt x (advance (calls fuel) k p) := by
  have hardy := Engine.Unopposed.hardy p
  refine sureAt_repeatWhile
    (P := fun y => (healthy.also (Engine.Unopposed p)).inv y ∧ Undelayed y p)
    (fun y hy => ⟨sureAt_step hy.1.2.listeners, fun z hz => ?_⟩) k ⟨h, hu⟩
  have leaves := leaves_step hardy.outreach.toPacing (hardy.calls_runsEntries fuel) hy.1 hy.1.2.here hy.2
  rw [hz] at leaves
  exact ⟨leaves.1.1, leaves.2 rfl⟩

/-- A beat of a queue that no listener objects to does not fail. -/
theorem sureAt_heartbeat (fuel k : Nat) (h : (healthy.also (Engine.Unopposed p)).inv x) :
    SureAt x (heartbeat (calls fuel) k p) := by
  have hardy := Engine.Unopposed.hardy p
  refine sureAt_look ?_
  split
  · cases hp : (x.queue p).pace with
    | instant => exact sureAt_advance fuel k h fun ht => absurd (hp.symm.trans ht) nofun
    | timed =>
      have held : Sure (isHeldBack p) := by
        refine sure_bind (sure_look _) fun queue => ?_
        split
        · exact sure_pure _
        · refine sure_bind (sure_look _) fun holding => sure_ite (sure_pure _) ?_
          exact sure_bind (sure_change _) fun _ => sure_pure _
      refine sureAt_bind (held.on x) fun held y hy => ?_
      have leaves := leaves_isHeldBack hardy.outreach.toPacing h h.2.here
      rw [hy] at leaves
      cases held with
      | true => exact sureAt_ok rfl
      | false => exact sureAt_advance fuel k leaves.1.1 (leaves.2 rfl)
  · exact sureAt_ok rfl

/-- A queue is started without fail, at any level of nesting, as long as nobody objects to its end. -/
theorem sureAt_start (fuel : Nat) (hh : x.Healthy) (h : x.Unopposed p) :
    SureAt x ((calls fuel).start p) := by
  cases fuel with
  | zero => exact fun _ hf => (Except.error.inj hf).symm
  | succ fuel =>
    have hardy := Engine.Unopposed.hardy p
    refine sureAt_look ?_
    split
    · rename_i idle
      refine sureAt_bind ((Queues.sure_launch p).on x) fun _ y hy => ?_
      have leaves := hardy.outreach.launch ⟨hh, h⟩ h.here idle
      rw [hy] at leaves
      exact sureAt_heartbeat fuel fuel leaves.1.1
    · exact sureAt_ok rfl

end Drive

/-! ## What is left of a command that failed -/

namespace Engine

/-- All there was is as it was, but for notes on the entry `n`, and all queues that were made meanwhile
ran procedures and have ended. -/
structure Spared (n : EntryRef) (e e' : Engine) : Prop extends Apart [n] e e' where
  ended {q : QueueRef} : e.queues.size ≤ q → q < e'.queues.size → (e'.queue q).state.isEnd = true
  procedural : e.AddsProcedures e'
  memories : e.memories.size ≤ e'.memories.size
  memory {m : MemoryRef} : m < e.memories.size → e'.memory m = e.memory m
  lists : e.lists.size ≤ e'.lists.size
  list {i : ListRef} : i < e.lists.size → e'.list i = e.list i
  fixtures : e'.fixtures = e.fixtures

namespace Spared

variable {e e' e'' : Engine} {n : EntryRef} {q : QueueRef}

/-- Nothing but entries and diagnostics is touched. -/
theorem of_apart (h : e.Apart [n] e') (hq : e'.queues = e.queues) (hm : e'.memories = e.memories)
    (hl : e'.lists = e.lists) (hf : e'.fixtures = e.fixtures) : e.Spared n e' where
  toApart := h
  ended hq' hx := absurd hx (Nat.not_lt_of_le (hq ▸ hq'))
  procedural q hq' hx := absurd hx (Nat.not_lt_of_le (hq ▸ hq'))
  memories := Nat.le_of_eq (by rw [hm])
  memory _ := by unfold Engine.memory; rw [hm]
  lists := Nat.le_of_eq (by rw [hl])
  list _ := by unfold Engine.list; rw [hl]
  fixtures := hf

/-- A procedure was called. -/
theorem of_untouched (h : e.Apart [] e') (hu : e.Untouched e') (ha : e.AddsProcedures e') :
    e.Spared n e' where
  toApart := h.mono fun _ hm => absurd hm List.not_mem_nil
  ended := hu.ended
  procedural := ha
  memories := hu.memories
  memory := hu.memory
  lists := hu.lists
  list := hu.list
  fixtures := hu.fixtures

/-- Every engine spares its entries. -/
theorem refl (n : EntryRef) (e : Engine) : e.Spared n e :=
  of_apart (.refl [n] e) rfl rfl rfl rfl

/-- What spares an entry twice spares it. -/
theorem trans (h : e.Spared n e') (h' : e'.Spared n e'') : e.Spared n e'' where
  toApart := h.toApart.trans h'.toApart
  ended {q} hq hx := by
    by_cases hold : q < e'.queues.size
    · rw [h'.queue hold]
      exact h.ended hq hold
    · exact h'.ended (Nat.le_of_not_lt hold) hx
  procedural q hq hx := by
    by_cases hold : q < e'.queues.size
    · rw [h'.queue hold]
      exact h.procedural q hq hold
    · exact h'.procedural q (Nat.le_of_not_lt hold) hx
  memories := Nat.le_trans h.memories h'.memories
  memory hm := (h'.memory (Nat.lt_of_lt_of_le hm h.memories)).trans (h.memory hm)
  lists := Nat.le_trans h.lists h'.lists
  list hi := (h'.list (Nat.lt_of_lt_of_le hi h.lists)).trans (h.list hi)
  fixtures := h'.fixtures.trans h.fixtures

/-- No listener comes to object. -/
theorem unopposed (h : e.Spared n e') (hq : e.Unopposed q) : e'.Unopposed q :=
  ⟨Nat.lt_of_lt_of_le hq.here h.queues, by rw [h.queue hq.here]; exact hq.listeners⟩

/-- Scripts are found as before. -/
theorem scriptNamed? (h : e.Spared n e') (name : String) :
    e'.scriptNamed? name = e.scriptNamed? name := by
  have names : e'.scriptNames = e.scriptNames := (congrArg Engine.scriptNames h.fixtures :)
  unfold Engine.scriptNamed?
  rw [names]

/-- Replacements are followed to the same queue. -/
theorem followFor (h : e.Spared n e') (ht : e.Tidy) {k : Nat} (m : Nat) (hq : q < e.queues.size)
    (hend : (e.queue (e.followFor k q)).replacedBy = none) :
    e'.followFor (k + m) q = e.followFor k q := by
  induction k generalizing q with
  | zero =>
    have last : (e'.queue q).replacedBy = none := by
      rw [h.queue hq]
      exact hend
    cases m with
    | zero => rfl
    | succ m =>
      rw [Nat.zero_add]
      unfold Engine.followFor
      rw [last]
  | succ k ih =>
    rw [Nat.succ_add]
    unfold Engine.followFor at hend ⊢
    rw [h.queue hq]
    cases hr : (e.queue q).replacedBy with
    | none => rfl
    | some next =>
      rw [hr] at hend
      exact ih (ht.replacedBy hr).2 hend

/-- Entries stay on the queues that they are on. -/
theorem residingQueue (h : e.Spared n e') (ht : e.Tidy) {m : EntryRef} (hm : m < e.entries.size) :
    e'.residingQueue m = e.residingQueue m := by
  unfold Engine.residingQueue
  rw [h.residing hm]
  cases hr : (e.entry m).residing with
  | none => rfl
  | some p =>
    have hp : p < e.queues.size := ht.residing hr
    obtain ⟨k, hk⟩ := Nat.exists_eq_add_of_le h.queues
    have last := ht.followFor_end hp (Nat.le_add_left e.queues.size p)
    show some (e'.followFor e'.queues.size p) = some (e.followFor e.queues.size p)
    rw [hk, h.followFor ht k hp last]

end Spared

end Engine

namespace Discipline

/-- Healthy engines in which nothing but notes on the entry `n` changes. -/
def spare (n : EntryRef) : Discipline where
  inv e := e.Healthy
  le := Engine.Spared n
  cut _ := True
  own e m := m = n ∧ e.Live n
  mine _ _ := True
  fresh _ _ := True
  placed e _ m := m = n ∧ e.Live n
  fits _ := True
  cared _ _ := True
  marked _ _ := True
  refl := .refl n
  trans h h' := h.trans h'
  own_mono h hm := ⟨hm.1, h.live hm.2⟩
  mine_mono _ _ := trivial
  fresh_mono _ _ := trivial
  placed_mono h hm := ⟨hm.1, h.live hm.2⟩
  placed_own h := h
  cared_mono _ _ := trivial
  marked_mono _ _ := trivial
  marked_cared _ := trivial

namespace Spare

variable {n : EntryRef}

/-- Notes on an entry spare everything else. -/
theorem noting (n : EntryRef) : (spare n).Noting where
  emit {e} event s he := by
    have apart := (Apart.bookkeeping n True).emit event s ⟨he, fun _ => trivial⟩
    obtain ⟨events, heq⟩ := e.emit_eq event s
    rw [heq] at apart ⊢
    exact ⟨apart.1.1, .of_apart apart.2 rfl rfl rfl rfl⟩
  jot he hn hf :=
    have apart := (Apart.bookkeeping n True).jot ⟨he, fun _ => trivial⟩ hn hf
    ⟨apart.1.1, .of_apart apart.2 rfl rfl rfl rfl⟩
  finish he hn :=
    have apart := ((Apart.bookkeeping n True).finish ⟨he, fun _ => trivial⟩ hn).1
    ⟨⟨apart.1.1, .of_apart apart.2 rfl rfl rfl rfl⟩, trivial⟩

/-- Procedures spare everything outside. -/
theorem procedureSafe (fuel : Nat) : (spare n).ProcedureSafe (Drive.calls fuel) := by
  intro e₀ name args
  refine ⟨fun e he _ => ?_⟩
  have isolated := Drive.isolated_calls fuel e name args he
  have sealing := Drive.sealing_calls fuel e name args he
  generalize (Drive.calls fuel).procedure name args e = r at isolated sealing
  obtain ⟨r, e'⟩ := r
  have kept (hr : r ≠ .error .exhausted) : (spare n).Step e e' := by
    obtain ⟨healthy, apart⟩ := isolated hr
    obtain ⟨untouched, procedures⟩ := sealing hr
    exact ⟨healthy, .of_untouched apart untouched procedures⟩
  cases r with
  | ok v => exact ⟨kept nofun, trivial⟩
  | error f =>
    by_cases hf : f = .exhausted
    · rw [hf]
      trivial
    · exact leaves_error hf (kept fun h => hf (Except.error.inj h))

end Spare

/-! ## Failures that keep a discipline -/

variable {α β : Type} {D : Discipline} {e : Engine}

/-- A failure of the action keeps the discipline. -/
def FailsSafely (D : Discipline) (e : Engine) (a : Action α) : Prop :=
  ∀ f e', a e = (.error f, e') → f ≠ .exhausted → D.Step e e'

/-- What does not fail fails safely. -/
theorem failsSafely_of_sureAt {a : Action α} (h : SureAt e a) : D.FailsSafely e a := by
  intro f e' hr hf
  exact absurd (h f (by rw [hr])) hf

/-- What keeps a discipline fails safely. -/
theorem failsSafely_of_leaves {a : Action α} {Q : α → Engine → Prop} (h : D.Leaves e Q (a e)) :
    D.FailsSafely e a := by
  intro f e' hr hf
  rw [hr] at h
  cases f with
  | exhausted => exact absurd rfl hf
  | _ => exact h

/-- What comes before the first change is safe in any case. -/
theorem failsSafely_bind {a : Action α} {f : α → Action β} {Q : α → Engine → Prop}
    (ha : D.Leaves e Q (a e)) (hf : ∀ x e₁, D.Step e e₁ → Q x e₁ → D.FailsSafely e₁ (f x)) :
    D.FailsSafely e (a >>= f) := by
  intro err e' hr herr
  cases hx : a e with
  | mk r e₁ =>
    cases r with
    | ok x =>
      rw [hx] at ha
      rw [bind_ok hx] at hr
      exact ha.1.trans (hf x e₁ ha.1 ha.2 err e' hr herr)
    | error err' =>
      rw [bind_error hx] at hr
      cases hr
      exact failsSafely_of_leaves ha err _ hx herr

/-- When the run of an entry fails, the discipline is kept if it is kept by failures of the command. -/
theorem step_of_failed {calls : Calls} {n : EntryRef} {e' : Engine} (hb : D.Noting)
    (hp : D.ProcedureSafe calls) (he : D.inv e) (hn : D.own e n)
    (hact : ∀ x, D.Step e x → D.FailsSafely x (Commands.execute calls n))
    (h : Executor.execute calls n e = (.ok false, e')) : D.Step e e' := by
  rw [Executor.execute_eq] at h
  obtain ⟨ran, e₁, hs, -, heq⟩ | ⟨e₁, -, heq⟩ | ⟨code, scope, saveAs, x, hx, -, heq⟩ :=
    executeWith_split hb hp he hn
  · rw [heq] at h
    cases h
    exact hs
  · rw [heq] at h
    cases h
  · rw [heq] at h
    cases hr : Commands.execute calls n x with
    | mk r y =>
      rw [hr] at h
      cases r with
      | ok a => cases h
      | error f =>
        have failed (hf : f ≠ .exhausted) : D.Step e (Executor.failed n code scope f y) := by
          have hy := hx.trans (hact x hx f y hr hf)
          exact hy.trans (step_failed hb hy.1 (D.own_mono hy.2 hn) _ scope).1
        cases f with
        | exhausted => cases h
        | _ =>
          cases h
          exact failed nofun

end Discipline

/-! ## Steps that do not fail -/

namespace Entries

/-- Reading a stored value does not fail. -/
theorem sure_object? (n : EntryRef) (key : String) : Sure (object? n key) :=
  sure_bind (sure_look _) fun _ => sure_pure _

/-- Reading a stored element does not fail. -/
theorem sure_element? (n : EntryRef) (key : String) : Sure (element? n key) := by
  refine sure_bind (sure_object? n key) fun found => ?_
  cases found with
  | none => exact sure_pure none
  | some v => exact sure_bind (sure_look _) fun _ => sure_pure _

/-- Reading a stored truth value does not fail. -/
theorem sure_isTrue (n : EntryRef) (key : String) : Sure (isTrue n key) := by
  refine sure_bind (sure_object? n key) fun found => ?_
  split
  · exact sure_pure _
  · exact sure_pure _

/-- Spawning the entries of a block does not fail. -/
theorem sure_spawn (owner : EntryRef) (ms : List EntryRef) : Sure (spawn owner ms) := by
  refine sure_bind (sure_look _) fun q => sure_collect (fun m => ?_) ms
  refine sure_bind (sure_clone m) fun n => sure_bind (sure_change _) fun _ => ?_
  exact sure_bind (sure_place n q) fun _ => sure_pure n

end Entries

/-- Putting entries in front of a queue does not fail. -/
theorem Queues.sure_inject (q : QueueRef) (ns : List EntryRef) : Sure (inject q ns) :=
  sure_bind (sure_each fun n _ => Entries.sure_place n (some q)) fun _ => sure_change _

namespace Commands

/-- Reporting does not fail. -/
theorem sure_report (n : EntryRef) (values : List (String × String)) : Sure (report n values) :=
  sure_bind (sure_look _) fun _ => sure_bind (sure_look _) fun _ => sure_change _

/-- Reading the blocks of a condition does not fail. -/
theorem sure_branches (n : EntryRef) : Sure (branches n) :=
  sure_bind (sure_look _) fun _ => sure_pure _

namespace Loop

/-- Restoring a loop counter does not fail. -/
theorem sure_restore (q : QueueRef) (loop : LoopState) : Sure (restore q loop) := by
  unfold restore
  split
  · exact sure_change _
  · exact sure_change _

/-- Reading the block of a loop does not fail. -/
theorem sure_body (owner : EntryRef) : Sure (body owner) :=
  sure_bind (sure_branches owner) fun _ => sure_pure _

/-- Putting a round in front of a queue does not fail. -/
theorem sure_injectIteration (owner : EntryRef) (q : QueueRef) (ms : List EntryRef) :
    Sure (injectIteration owner q ms) := by
  have marked : Sure (createMark owner) := by
    refine sure_bind (sure_look _) fun _ => sure_bind (sure_look _) fun _ => ?_
    refine sure_bind (sure_change _) fun _ => sure_bind (Entries.sure_create _) fun mark => ?_
    exact sure_bind (sure_change _) fun _ => sure_pure mark
  refine sure_bind (Entries.sure_spawn owner ms) fun ns => sure_bind marked fun mark => ?_
  refine sure_bind (sure_each fun _ _ => sure_change _) fun _ => ?_
  exact Queues.sure_inject q _

end Loop

end Commands

/-! ## The commands -/

namespace Discipline

open Commands

variable {e : Engine} {n : EntryRef} {fuel : Nat}

/-- What is safe on all engines leaves a healthy one so. -/
theorem Spare.leaves {α : Type} {a : Action α} {Q : α → Engine → Prop} (he : e.Healthy)
    (h : (spare n).Gives e a Q) : (spare n).Leaves e Q (a e) :=
  h.run e he ((spare n).refl e)

open Spare

/-- A `define` that fails has changed nothing. -/
theorem failsSafely_define (he : e.Healthy) : (spare n).FailsSafely e (Define.execute n) := by
  refine failsSafely_bind (leaves he (safe_requireQueue n)) fun q x _ _ => ?_
  refine failsSafely_of_sureAt (Sure.on ?_ x)
  refine sure_bind (Entries.sure_element? n _) fun name => ?_
  refine sure_bind (Entries.sure_object? n _) fun value => ?_
  cases value with
  | none => exact sure_bind (sure_report n _) fun _ => sure_change _
  | some v =>
    refine sure_bind (sure_look _) fun _ => ?_
    exact sure_bind (sure_report n _) fun _ => sure_change _

/-- A condition is decided before its block is put on the queue. -/
theorem failsSafely_condition (he : e.Healthy) :
    (spare n).FailsSafely e (Condition.execute (Drive.calls fuel) n) := by
  refine failsSafely_bind (leaves he (safe_requireQueue n)) fun q x hx _ => ?_
  have blocks : (spare n).Safe x (branches n) := safe_bind (safe_entry n) fun _ => safe_pure _
  refine failsSafely_bind (leaves hx.1 blocks) fun bs y hy _ => ?_
  have chosen := leaves hy.1 (gives_choose (noting n) (procedureSafe fuel) 0 (n := n) bs)
  refine failsSafely_bind chosen fun found z _ _ => failsSafely_of_sureAt (Sure.on ?_ z)
  cases found with
  | none => exact sure_report n _
  | some pair =>
    refine sure_bind (sure_report n _) fun _ => ?_
    exact sure_bind (Entries.sure_spawn n _) fun ns => Queues.sure_inject q ns

/-- Ending a loop early either fails at first or not at all. -/
theorem failsSafely_endEarly (he : e.Healthy) (q : QueueRef) (stop : Bool) :
    (spare n).FailsSafely e (Loop.endEarly n q stop) := by
  refine failsSafely_bind (leaves he (safe_look _)) fun found x hx _ => ?_
  cases found with
  | none => exact failsSafely_of_leaves (leaves hx.1 (gives_breakOff (Q := fun _ _ => True) _))
  | some found =>
    obtain ⟨i, mark⟩ := found
    refine failsSafely_of_sureAt (Sure.on ?_ x)
    refine sure_bind (sure_change _) fun _ => ?_
    cases stop with
    | false => exact sure_report n _
    | true =>
      refine sure_bind (sure_look _) fun loop => ?_
      cases loop with
      | none => exact sure_report n _
      | some loop => exact sure_bind (Loop.sure_restore q loop.2) fun _ => sure_report n _

/-- A round of a loop either fails at first or not at all. -/
theorem failsSafely_iterate (he : e.Healthy) (mark : EntryRef) (q : QueueRef) :
    (spare n).FailsSafely e (Loop.iterate mark q) := by
  refine failsSafely_bind (leaves he (safe_look _)) fun found x hx _ => ?_
  cases found with
  | none => exact failsSafely_of_leaves (leaves hx.1 (gives_breakOff (Q := fun _ _ => True) _))
  | some found =>
    obtain ⟨owner, loop⟩ := found
    refine failsSafely_of_sureAt (Sure.on ?_ x)
    refine sure_bind (sure_change _) fun _ => sure_ite ?_ (Loop.sure_restore q _)
    refine sure_bind (sure_change _) fun _ => sure_bind (Loop.sure_body owner) fun ms => ?_
    exact Loop.sure_injectIteration owner q ms

/-- A loop is found to be empty before anything is bound. -/
theorem failsSafely_start (he : e.Healthy) (q : QueueRef) :
    (spare n).FailsSafely e (Loop.start n q) := by
  refine failsSafely_bind (leaves he (safe_count n _)) fun amount x₁ h₁ _ => ?_
  refine failsSafely_bind (leaves h₁.1 (safe_count n _)) fun first x₂ h₂ _ => ?_
  refine failsSafely_bind (leaves h₂.1 (safe_element? n _)) fun name x₃ h₃ _ => ?_
  refine failsSafely_bind (leaves h₃.1 (safe_reportParsed (noting n) n _)) fun _ x₄ h₄ _ => ?_
  split
  · exact failsSafely_of_sureAt (sureAt_ok rfl)
  have looked : (spare n).Safe x₄ (Loop.body n) :=
    safe_bind (safe_bind (safe_entry n) fun _ => safe_pure _) fun _ => safe_pure _
  refine failsSafely_bind (leaves h₄.1 looked) fun ms x₅ h₅ _ => ?_
  have rest : Sure (do
      let before ← Action.look (·.definition? q (name.getD "value"))
      let loop : LoopState :=
        { index := first, target := first + amount - 1.0, name := name.getD "value", before }
      Action.changeEntry n ({ · with loop := some loop })
      Queues.define q (name.getD "value") (.num first)
      Loop.injectIteration n q ms) := by
    refine sure_bind (sure_look _) fun _ => sure_bind (sure_change _) fun _ => ?_
    exact sure_bind (sure_change _) fun _ => Loop.sure_injectIteration n q ms
  dsimp only
  split
  · refine failsSafely_bind (leaves h₅.1 (gives_breakOff (Q := fun _ _ => True) _)) fun _ x₆ _ _ => ?_
    exact failsSafely_of_sureAt (rest.on x₆)
  · exact failsSafely_of_sureAt (rest.on x₅)

/-- A `repeat` that fails has changed nothing. -/
theorem failsSafely_loop (he : e.Healthy) :
    (spare n).FailsSafely e (Loop.execute (Drive.calls fuel) n) := by
  have flag (x : Engine) (hx : x.Healthy) (word : String) :
      (spare n).Leaves x (fun _ _ => True) (Entries.flag (Drive.calls fuel) n word x) :=
    leaves hx (safe_flag (noting n) (procedureSafe fuel) word)
  refine failsSafely_bind (leaves he (safe_requireQueue n)) fun q x₁ h₁ _ => ?_
  refine failsSafely_bind (flag x₁ h₁.1 _) fun stop x₂ h₂ _ => ?_
  split
  · exact failsSafely_endEarly h₂.1 q true
  refine failsSafely_bind (flag x₂ h₂.1 _) fun next x₃ h₃ _ => ?_
  split
  · exact failsSafely_endEarly h₃.1 q false
  refine failsSafely_bind (flag x₃ h₃.1 _) fun mark x₄ h₄ _ => ?_
  split
  · exact failsSafely_iterate h₄.1 n q
  · exact failsSafely_start h₄.1 q

/-! ### Commands that end queues -/

/-- Nobody objects to the end of the queue that the entry runs on, whenever its command is run. -/
def Unresisted (e : Engine) (n : EntryRef) : Prop :=
  ∀ x, (spare n).Step e x → ∀ q, x.residingQueue n = some q → x.Unopposed q

/-- The queue that an entry asks for is the one it is on. -/
theorem gives_residing {D : Discipline} : D.Gives e (Entries.requireQueue n)
    fun q x => x.residingQueue n = some q := by
  refine gives_bindAt (gives_look (Q := fun r x => x.residingQueue n = r) fun _ _ _ => rfl)
    fun found x hx _ hr => ?_
  cases found with
  | none => exact (safe_bind (safe_entry n) fun _ => gives_breakOff _).run x hx (D.refl x)
  | some q => exact ⟨Step.refl hx, hr⟩

/-- A queue that no listener objects to is emptied and stopped without a failure. -/
theorem sureAt_clearAndStop {q : QueueRef} (h : e.Unopposed q) : SureAt e (do
    Queues.clear q
    Queues.stop q) := by
  have cleared : (e.changeQueue q ({ · with pending := [] })).Unopposed q :=
    h.changeQueue q fun _ _ hl => .inl hl
  refine sureAt_bind (sureAt_ok rfl) fun _ y hy => ?_
  cases hy
  exact Queues.sureAt_end (fun _ => rfl) cleared.listeners

/-- A `stop` that fails has changed nothing, when no listener objects. -/
theorem failsSafely_stop (he : e.Healthy) (quiet : Unresisted e n) :
    (spare n).FailsSafely e (Stop.execute n) := by
  refine failsSafely_bind (leaves he gives_residing) fun q x hx hq => ?_
  exact failsSafely_of_sureAt (sureAt_clearAndStop (quiet x hx q hq))

/-- What does not fail, and keeps a discipline, is followed by something that does not fail. -/
theorem sureAt_bindLeaves {α β : Type} {D : Discipline} {a : Action α} {f : α → Action β}
    {Q : α → Engine → Prop} (hs : Sure a) (ha : D.Leaves e Q (a e))
    (hf : ∀ x y, D.Step e y → Q x y → SureAt y (f x)) : SureAt e (a >>= f) := by
  refine sureAt_bind (hs.on e) fun x y hy => ?_
  rw [hy] at ha
  exact hf x y ha.1 ha.2

/-- A `determine` that fails has changed nothing, when no listener objects. -/
theorem failsSafely_determine (he : e.Healthy) (quiet : Unresisted e n) :
    (spare n).FailsSafely e (Determine.execute n) := by
  refine failsSafely_bind (leaves he gives_residing) fun q x hx hq => failsSafely_of_sureAt ?_
  have hardy := Engine.Unopposed.hardy q
  have run {α : Type} {a : Action α} {Q : α → Engine → Prop} {y : Engine}
      (hy : (healthy.also (Engine.Unopposed q)).inv y)
      (h : (healthy.also (Engine.Unopposed q)).Gives y a Q) :=
    h.run y hy ((healthy.also (Engine.Unopposed q)).refl y)
  have outcome : Sure (Determine.outcome n) := by
    refine sure_bind (Entries.sure_object? n _) fun found => ?_
    split
    · exact sure_pure _
    · exact sure_pure _
    · exact sure_pure _
  refine sureAt_bindLeaves outcome (run ⟨hx.1, quiet x hx q hq⟩ (safe_determineOutcome n))
    fun v x₁ h₁ _ => ?_
  refine sureAt_bindLeaves (Entries.sure_isTrue n _) (run h₁.1 (safe_isTrue n _))
    fun passively x₂ h₂ _ => ?_
  refine sureAt_look (sureAt_bindLeaves (sure_report n _)
    (run h₂.1 (safe_reportParsed hardy.blocks.toNoting n _)) fun _ x₃ h₃ _ => ?_)
  refine sureAt_bindLeaves (sure_change _) (run h₃.1 (hardy.blocks.determine v h₃.1.2.here))
    fun _ x₄ h₄ _ => ?_
  cases passively with
  | true => exact sureAt_ok rfl
  | false => exact sureAt_clearAndStop h₄.1.2

/-! ### Commands that start queues -/

/-- A queue that takes over from one that nobody objects to may be started. -/
theorem sureAt_startReplaced {q : QueueRef} (he : e.Healthy) (h : e.Unopposed q) (d : Option Delay) :
    SureAt e (do
      let timed ← Queues.replaceByTimed q d
      (Drive.calls fuel).start timed) := by
  obtain ⟨y, replace, replaces⟩ := e.replaceByTimed_replaces d h.here
  have leaves := (Healthy.gives_replace d h.here).run e he (healthy.refl e)
  rw [replace] at leaves
  refine sureAt_bind (sureAt_ok replace) fun timed z hz => ?_
  rw [replace] at hz
  cases hz
  refine Drive.sureAt_start fuel leaves.1.1 ⟨leaves.2, ?_⟩
  rw [replaces.new]
  exact h.listeners

/-- The queue that is to be delayed is found before anything is changed. -/
theorem gives_unopposedTarget (fuel : Nat) (quiet : ∀ x, (spare n).Step e x →
      ∀ q, x.residingQueue n = some q ∨ q ∈ x.registry.values → x.Unopposed q) :
    (spare n).Gives e (Wait.target (Drive.calls fuel) n) fun q x => x.Unopposed q := by
  refine safe_bind (safe_argumentText? (noting n) (procedureSafe fuel) _) fun id => ?_
  cases id with
  | none => exact gives_residing.mono fun q x hx hl hr => quiet x ⟨hx, hl⟩ q (.inl hr)
  | some id =>
    refine look_bind fun x hx hl => ?_
    split
    · rename_i q hq
      obtain ⟨p, hp, rfl⟩ := Keyed.mem_of_get? hq
      have unopposed := quiet x ⟨hx, hl⟩ p.2 (.inr (List.mem_map_of_mem hp))
      exact gives_pure fun y _ hl' => hl'.unopposed unopposed
    · exact gives_breakOff _

/-- A `wait` that fails has changed nothing, when no listener of any queue it may end objects. -/
theorem failsSafely_wait (he : e.Healthy) (quiet : ∀ x, (spare n).Step e x →
      ∀ q, x.residingQueue n = some q ∨ q ∈ x.registry.values → x.Unopposed q) :
    (spare n).FailsSafely e (Wait.execute (Drive.calls fuel) n) := by
  refine failsSafely_bind (leaves he (safe_count n _)) fun millis x₁ h₁ _ => ?_
  have target := gives_unopposedTarget fuel fun x hx => quiet x (h₁.trans hx)
  refine failsSafely_bind (leaves h₁.1 target) fun q x₂ h₂ hq => ?_
  refine failsSafely_bind (leaves h₂.1 (safe_flag (noting n) (procedureSafe fuel) _))
    fun onClock x₃ h₃ _ => ?_
  refine failsSafely_bind (leaves h₃.1 (safe_queue q)) fun queue x₄ h₄ _ => ?_
  refine failsSafely_bind (leaves h₄.1 (safe_reportParsed (noting n) n _)) fun _ x₅ h₅ _ => ?_
  refine failsSafely_bind (leaves h₅.1 (safe_look _)) fun delay x₆ h₆ _ => failsSafely_of_sureAt ?_
  have hq₆ : x₆.Unopposed q := (h₃.trans (h₄.trans (h₅.trans h₆))).2.unopposed hq
  split
  · exact sureAt_ok rfl
  · exact sureAt_startReplaced h₆.1 hq₆ (some delay)

/-- A new queue has no listeners. -/
theorem create_unopposed (pace : Pace) (name : String) (options : Queues.Options) (e : Engine) :
    ∃ x, Queues.create pace name options e = (.ok e.queues.size, x) ∧ x.Unopposed e.queues.size := by
  have made (y : Engine) (hy : y.queues.size = e.queues.size) {x : Queue} (hx : x.listeners = []) :
      (y.withQueue x).Unopposed e.queues.size := by
    refine ⟨by simp [hy], ?_⟩
    rw [y.queue_withQueue, if_pos hy.symm, hx]
    exact fun l hl => absurd hl List.not_mem_nil
  unfold Queues.create
  dsimp only
  cases options.id with
  | some id => exact ⟨_, rfl, made e rfl rfl⟩
  | none =>
    obtain ⟨id, counters, hid, -⟩ := Queues.generateId_free name e
    exact ⟨_, (bind_ok hid).trans rfl, made { e with counters } rfl rfl⟩

/-- A queue for a script that is there is prepared without fail, and nobody objects to its end. -/
theorem prepare_unopposed {name : String} {k : Nat} (he : e.Healthy) (hk : e.scriptNamed? name = some k)
    (options : Scripts.RunOptions) :
    (∃ x, Scripts.prepare name options e = (.error .exhausted, x)) ∨
      ∃ q x, Scripts.prepare name options e = (.ok q, x) ∧ healthy.Step e x ∧ x.Unopposed q := by
  obtain ⟨y, created, unopposed⟩ := create_unopposed (options.pace.getD e.config.defaultQueueType)
    (e.script k).name
    { id := options.id, speed := options.speed, script := some ⟨k, (e.script k).name⟩ } e
  have create : Scripts.createQueue options (e.script k).name (some ⟨k, (e.script k).name⟩) e =
      (.ok e.queues.size, y) := created
  have made := (gives_createForRun Healthy.turns.toPreparing options (e.script k).name
    (some ⟨k, (e.script k).name⟩)).run e he (healthy.refl e)
  rw [create] at made
  have hardy := Engine.Unopposed.hardy e.queues.size
  have loaded := (safe_load hardy.outreach.toTurning unopposed.here k options.args options.definitions).run y
    ⟨made.1.1, unopposed⟩ (healthy.refl y)
  rw [Scripts.prepare_of_some hk, bind_ok create]
  cases hload : Scripts.load e.queues.size k options.args options.definitions y with
  | mk r z =>
    cases r with
    | error f =>
      obtain rfl := (Scripts.sure_load e.queues.size k options.args options.definitions).on y f (by rw [hload])
      exact .inl ⟨z, bind_error hload⟩
    | ok u =>
      rw [hload] at loaded
      exact .inr ⟨e.queues.size, z, bind_ok hload,
        ⟨loaded.1.1.1, healthy.trans made.1.2 loaded.1.2⟩, loaded.1.1.2⟩

/-- A script that is there is run without fail, once it is known how. -/
theorem sureAt_run {name : String} {k : Nat} (he : e.Healthy) (hn : e.Live n)
    (hk : e.scriptNamed? name = some k) (options : Scripts.RunOptions) : SureAt e (do
      let q ← Scripts.prepare name options
      let queue ← Action.queue q
      Entries.store n "created_queue" (.str queue.id)
      Commands.report n [("script", name), ("queue", queue.id), ("type", queue.pace.name)]
      if (← Action.entry n).isAwaited then
        Queues.onComplete q (.finish n)
      else
        Entries.finish n
      (Drive.calls fuel).start q) := by
  obtain ⟨x, cut⟩ | ⟨q, x, prepared, ⟨hx, hle⟩, unopposed⟩ := prepare_unopposed he hk options
  · intro f hf
    rw [bind_error cut] at hf
    exact (Except.error.inj hf).symm
  have hardy := Engine.Unopposed.hardy q
  have hnx : x.Live n := healthy.own_mono hle hn
  have run {α : Type} {a : Action α} {Q : α → Engine → Prop} {y : Engine}
      (hy : (healthy.also (Engine.Unopposed q)).inv y)
      (h : (healthy.also (Engine.Unopposed q)).Gives y a Q) :=
    h.run y hy ((healthy.also (Engine.Unopposed q)).refl y)
  refine sureAt_bind (sureAt_ok prepared) fun q' y hy => ?_
  rw [prepared] at hy
  cases hy
  refine sureAt_look (sureAt_bindLeaves (sure_change _)
    (run ⟨hx, unopposed⟩ (safe_store hardy.blocks.toNoting hnx _ _)) fun _ x₁ h₁ _ => ?_)
  refine sureAt_bindLeaves (sure_report n _)
    (run h₁.1 (safe_reportParsed hardy.blocks.toNoting n _)) fun _ x₂ h₂ _ => ?_
  have hn₂ : x₂.Live n := healthy.own_mono (h₁.trans h₂).2 hnx
  refine sureAt_look ?_
  dsimp only
  have listen : Sure (Queues.onComplete q (.finish n)) :=
    sure_bind (sure_look _) fun _ => sure_ite (sure_change _) (sure_change _)
  split
  · refine sureAt_bindLeaves listen (run h₂.1 (hardy.outreach.listen h₂.1.2.here hn₂)) fun _ x₃ h₃ _ => ?_
    exact Drive.sureAt_start fuel h₃.1.1 h₃.1.2
  · refine sureAt_bindLeaves (sure_change _) (run h₂.1 (gives_finishEntry hardy.blocks.toNoting hn₂))
      fun _ x₃ h₃ _ => ?_
    exact Drive.sureAt_start fuel h₃.1.1 h₃.1.2

/-- A `run` that fails has changed nothing but what procedures made. -/
theorem failsSafely_run (he : e.Healthy) (hn : (spare n).own e n) :
    (spare n).FailsSafely e (Run.execute (Drive.calls fuel) n) := by
  refine failsSafely_bind (leaves he (safe_element? n _)) fun found x₁ h₁ _ => ?_
  let name := found.getD ""
  have seen : (spare n).Leaves x₁ (fun r x => x.scriptNamed? name = r)
      (Action.look (·.scriptNamed? name) x₁) :=
    leaves h₁.1 (gives_look fun _ _ _ => rfl)
  refine failsSafely_bind seen fun script x₂ h₂ hscript => ?_
  dsimp only
  split
  · exact failsSafely_bind (leaves h₂.1 (gives_breakOff (Q := fun _ _ => False) _)) fun _ _ _ h => h.elim
  · rename_i there
    obtain ⟨k, rfl⟩ : ∃ k, script = some k := by
      simpa [Option.isNone_iff_eq_none, Option.ne_none_iff_exists'] using there
    have options : (spare n).Safe x₂ (Run.options (Drive.calls fuel) n) :=
      safe_runOptions (procedureSafe fuel) (noting n) n
    refine failsSafely_bind (leaves h₂.1 options) fun options x₃ h₃ _ => failsSafely_of_sureAt ?_
    have known : x₃.scriptNamed? name = some k := (h₃.2.scriptNamed? name).trans hscript
    have here := ((spare n).own_mono (h₁.trans (h₂.trans h₃)).2 hn).2
    exact sureAt_run h₃.1 here known options

end Discipline

/-! ## Entries that fail -/

/-- Whether a command steers its queue or starts others. -/
def Behaviour.isSteering : Behaviour → Bool
  | .define | .determine | .stop | .condition | .loop | .wait | .run => true
  | _ => false

namespace Engine

/-- The command of the entry may end the queue, or give it a turn in which it ends. -/
def MayEnd (e : Engine) (n : EntryRef) (q : QueueRef) : Prop :=
  match (e.entry n).code.handler.behaviour with
  | .determine | .stop => e.residingQueue n = some q
  | .wait => e.residingQueue n = some q ∨ q ∈ e.registry.values
  | _ => False

/-- The queues that a command may end are those that it might have ended before. -/
theorem Spared.mayEnd {e x : Engine} {n : EntryRef} {q : QueueRef} (h : e.Spared n x) (ht : e.Tidy)
    (hn : n < e.entries.size) (hq : x.MayEnd n q) : e.MayEnd n q := by
  unfold MayEnd at hq ⊢
  rwa [h.code hn, h.residingQueue ht hn, h.registry] at hq

/-- A command ends only queues that there are. -/
theorem Tidy.mayEnd_lt {e : Engine} {n : EntryRef} {q : QueueRef} (ht : e.Tidy) (hq : e.MayEnd n q) :
    q < e.queues.size := by
  unfold MayEnd at hq
  split at hq
  · exact ht.residingQueue_lt hq
  · exact ht.residingQueue_lt hq
  · refine hq.elim ht.residingQueue_lt fun hq => ?_
    obtain ⟨p, hp, rfl⟩ := List.mem_map.1 hq
    exact ht.registry (k := p.1) hp
  · exact hq.elim

end Engine

/-- When an entry of a steering command fails, all there was is as it was, apart from notes on the
entry. -/
theorem Executor.execute_spared {fuel : Nat} {n : EntryRef} {e e' : Engine} (he : e.Healthy)
    (hn : e.Live n) (hb : (e.entry n).code.handler.behaviour.isSteering = true)
    (hl : ∀ q, e.MayEnd n q → ∀ l ∈ (e.queue q).listeners, l.objects = false)
    (h : execute (Drive.calls fuel) n e = (.ok false, e')) : e.Spared n e' := by
  refine (Discipline.step_of_failed (Discipline.Spare.noting n) (Discipline.Spare.procedureSafe fuel) he
    ⟨rfl, hn⟩ (fun x hx => ?_) h).2
  have quiet (y : Engine) (hy : (Discipline.spare n).Step x y) (q : QueueRef) (hq : y.MayEnd n q) :
      y.Unopposed q := by
    have later : e.Spared n y := (hx.trans hy).2
    have mayEnd : e.MayEnd n q := later.mayEnd he.tidy hn.1 hq
    exact later.unopposed ⟨he.tidy.mayEnd_lt mayEnd, hl q mayEnd⟩
  have code (y : Engine) (hy : (Discipline.spare n).Step x y) :
      (y.entry n).code = (x.entry n).code :=
    ((hx.trans hy).2.code hn.1).trans (hx.2.code hn.1).symm
  have own : (Discipline.spare n).own x n := ⟨rfl, hx.2.live hn⟩
  rw [← hx.2.code hn.1] at hb
  simp only [Discipline.FailsSafely, Commands.execute, Action.entry_bind]
  have ends (hb : (x.entry n).code.handler.behaviour = .determine ∨
      (x.entry n).code.handler.behaviour = .stop) : Discipline.Unresisted x n := by
    intro y hy q hq
    refine quiet y hy q ?_
    unfold Engine.MayEnd
    rw [code y hy]
    rcases hb with hb | hb
    · rw [hb]
      exact hq
    · rw [hb]
      exact hq
  cases hbehaviour : (x.entry n).code.handler.behaviour with
  | define => exact Discipline.failsSafely_define hx.1
  | determine => exact Discipline.failsSafely_determine hx.1 (ends (.inl hbehaviour))
  | stop => exact Discipline.failsSafely_stop hx.1 (ends (.inr hbehaviour))
  | condition => exact Discipline.failsSafely_condition hx.1
  | loop => exact Discipline.failsSafely_loop hx.1
  | wait =>
    refine Discipline.failsSafely_wait hx.1 fun y hy q hq => quiet y hy q ?_
    unfold Engine.MayEnd
    rw [code y hy, hbehaviour]
    exact hq
  | run => exact Discipline.failsSafely_run hx.1 own
  | _ =>
    rw [hbehaviour] at hb
    cases hb

/-- A command that steers its queue or starts others fails before it has changed anything.

The engine is one that a host has, or one in the middle of a run.  When an entry of such a command fails,
whatever its words and blocks are, then all queues are as they were, with their states, pending entries
and delays, and so are the definitions, the saved entries and the determinations that they hold; the
same queues are registered; the queues that were made ran procedures and have ended; no loop has gone
on; and no other entry has changed.  This needs that no listener of the host answers with an error when
the command ends a queue. -/
theorem failed_command_changes_nothing {config : Config} {e e' : Engine} {fuel : Nat} {n : EntryRef}
    (he : Reachable (Host.create config []) e ∨ e.Healthy ∧ e.Furnished) (hn : e.Live n)
    (hb : (e.entry n).code.handler.behaviour.isSteering = true)
    (hl : ∀ q, e.MayEnd n q → ∀ l ∈ (e.queue q).listeners, l.objects = false)
    (h : Executor.execute (Drive.calls fuel) n e = (.ok false, e')) :
    (∀ q, q < e.queues.size → e'.queue q = e.queue q ∧ e'.definitions q = e.definitions q ∧
        (∀ name, e'.held? q name = e.held? q name) ∧ e'.determinations? q = e.determinations? q) ∧
      e'.registry = e.registry ∧
      (∀ q, e.queues.size ≤ q → q < e'.queues.size →
        (e'.queue q).isProcedural = true ∧ (e'.queue q).state.isEnd = true) ∧
      (∀ m, m < e.entries.size → (e'.entry m).loop = (e.entry m).loop ∧
        (m ≠ n → e'.entry m = e.entry m)) := by
  obtain ⟨hh, hf⟩ : e.Healthy ∧ e.Furnished := he.elim (·.furnished) id
  have spared : e.Spared n e' := Executor.execute_spared hh hn hb hl h
  refine ⟨fun q hq => ?_, spared.registry, fun q hq hx => ⟨spared.procedural q hq hx, spared.ended hq hx⟩,
    fun m hm => ⟨spared.loop hm, fun hne => spared.entry hm fun hmem => hne (List.mem_singleton.1 hmem)⟩⟩
  have queue : e'.queue q = e.queue q := spared.queue hq
  have memory : e'.memory (e.queue q).memory = e.memory (e.queue q).memory := spared.memory (hf.memory hq)
  refine ⟨queue, ?_, fun name => ?_, ?_⟩
  · unfold Engine.definitions
    rw [queue, memory]
  · unfold Engine.held?
    rw [queue, memory]
  · unfold Engine.determinations?
    rw [queue]
    cases hd : (e.queue q).determinations with
    | none => rfl
    | some i => exact congrArg some (spared.list (hf.list hd))

/-- A command calls a procedure, which binds a definition of its own, and then finds no script of the
name that the procedure gave. -/
theorem failed_command_changes_nothing_run :
    let p : ScriptRecord := { name := "p", source := "define x 2\ndetermine other", kind := .procedure }
    let e₁ := ((Operation.register p).act 9 (Host.create {} [])).2
    let e := ((Operation.runCommands "define x 1\nrun <proc[p]>" none {} false).act 9 e₁).2
    let r := Executor.execute (Drive.calls 9) 1 e
    (r.1.toOption = some false ∧ e.queues.size = 1 ∧ r.2.queues.size = 2) ∧
      (r.2.queue 0 = e.queue 0 ∧ r.2.definitions 0 = e.definitions 0) ∧ r.2.registry = e.registry ∧
      (r.2.queue 1).isProcedural = true ∧ (r.2.queue 1).state.isEnd = true ∧
      (r.2.entry 0).loop = (e.entry 0).loop := by
  intro p e₁ e r
  obtain ⟨⟨ok₁, ok⟩, failed, ⟨size, size'⟩, entries, resides, runs⟩ :
      (((Operation.register p).act 9 (Host.create {} [])).1.toBool = true ∧
        ((Operation.runCommands "define x 1\nrun <proc[p]>" none {} false).act 9 e₁).1.toBool = true) ∧
      r.1.toOption = some false ∧ (e.queues.size = 1 ∧ r.2.queues.size = 2) ∧
      1 < e.entries.size ∧ (e.entry 1).residing = some 0 ∧
      ((e.entry 1).code.handler.behaviour matches .run) = true := by decide +kernel
  have behaviour : (e.entry 1).code.handler.behaviour = .run := by
    clear_value e
    split at runs
    · assumption
    · cases runs
  have run₁ : Reachable (Host.create {} []) e₁ := .ok .first 9 (.register p) trivial ok₁
  have run : Reachable (Host.create {} []) e := run₁.ok 9 (.runCommands _ none {} false) trivial ok
  have live : e.Live 1 := run.furnished.1.tidy.based.live_of_residing entries resides
  have quiet (q : QueueRef) (hq : e.MayEnd 1 q) : ∀ l ∈ (e.queue q).listeners, l.objects = false := by
    unfold Engine.MayEnd at hq
    rw [behaviour] at hq
    exact hq.elim
  have result : Executor.execute (Drive.calls 9) 1 e = (.ok false, r.2) := by
    obtain ⟨ran, hran, rfl⟩ := Action.ok_of_toOption (f := id) (by simpa using failed)
    exact Prod.ext hran rfl
  clear_value e
  obtain ⟨queues, registry, made, loops⟩ :=
    failed_command_changes_nothing (.inl run) live (by rw [behaviour]; rfl) quiet result
  obtain ⟨queue, definitions, -, -⟩ := queues 0 (by rw [size]; exact Nat.one_pos)
  obtain ⟨procedural, ended⟩ := made 1 (Nat.le_of_eq size) (by rw [size']; exact Nat.lt_succ_self 1)
  exact ⟨⟨failed, size, size'⟩, ⟨queue, definitions⟩, registry, procedural, ended,
    (loops 0 (Nat.lt_trans Nat.one_pos entries)).1⟩

/-- A listener of the host that answers with an error makes a command fail when its queue has ended. -/
theorem determine_fails_after_queue_ended :
    let source := "determine 5\ndebug log after"
    let e₁ := ((Operation.runCommands source none {} false).act 9 (Host.create {} [])).2
    let e := ((Operation.listen 0 "done" (some "no")).act 9 e₁).2
    let r := Executor.execute (Drive.calls 9) 0 e
    Reachable (Host.create {} []) e ∧ (e.entry 0).code.handler.behaviour.isSteering = true ∧
      r.1.toOption = some false ∧
      ((e.queue 0).pending = [0, 1] ∧ (e.queue 0).state = .idle ∧ (e.queue 0).determinations = none) ∧
      (r.2.queue 0).pending = [] ∧ (r.2.queue 0).state = .stopped ∧
      (r.2.queue 0).determinations = some 0 := by
  intro source e₁ e r
  obtain ⟨ok₁, valid, ok, fails⟩ :
      ((Operation.runCommands source none {} false).act 9 (Host.create {} [])).1.toBool = true ∧
      0 < e₁.queues.size ∧ ((Operation.listen 0 "done" (some "no")).act 9 e₁).1.toBool = true ∧
      (e.entry 0).code.handler.behaviour.isSteering = true ∧ r.1.toOption = some false ∧
      ((e.queue 0).pending = [0, 1] ∧ (e.queue 0).state = .idle ∧ (e.queue 0).determinations = none) ∧
      (r.2.queue 0).pending = [] ∧ (r.2.queue 0).state = .stopped ∧
      (r.2.queue 0).determinations = some 0 := by decide +kernel
  have run₁ : Reachable (Host.create {} []) e₁ := .ok .first 9 (.runCommands source none {} false) trivial ok₁
  exact ⟨run₁.ok 9 (.listen 0 "done" (some "no")) valid ok, fails⟩

end QueueScript
