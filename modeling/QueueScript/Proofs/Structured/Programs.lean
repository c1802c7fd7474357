import QueueScript.Proofs.Fuel
import QueueScript.Proofs.Structured.Blocks
import QueueScript.Proofs.Upkeep.Runs

/-!
# Queues run programs by their structure

An instant queue that is started, and then gets beat after beat, runs the program that it was filled
with as `Structured.run` does.  Fuel bounds a turn, so it has to be enough for the history of the run;
the interpreter itself needs it only for procedures that tags call, and more of it changes nothing.
-/

namespace QueueScript

namespace Structured

open QueueScript.Action (Longer)

/-! ## More fuel -/

section Fuel

variable {α : Type} {calls calls' : Calls} (hc : calls.Longer calls') (seconds : Option Float) (q : QueueRef)

include hc

omit hc in
theorem longer_attend (n : EntryRef) (following : List EntryRef) {act act' : Action (Bool × α)}
    (h : Longer Eq act act') :
    Longer Eq (attend seconds q n following act) (attend seconds q n following act') :=
  .after _ fun _ => .after _ fun _ => .after _ fun _ => .after _ fun _ => .after _ fun _ =>
    h.andThen fun _ => .refl _

theorem longer_serve (n : EntryRef) (following : List EntryRef) {act act' : Action α}
    (h : Longer Eq act act') :
    Longer Eq (serve calls seconds q n following act) (serve calls' seconds q n following act') :=
  longer_attend seconds q n following (Executor.longer_executeWith hc n h)

theorem longer_choice (n : EntryRef) : Longer Eq (choice calls q n) (choice calls' q n) :=
  .after _ fun bs => (Commands.Condition.longer_choose hc n 0 bs).andThen fun _ => .refl _

theorem longer_control (n : EntryRef) (p : Place) :
    Longer Eq (control calls q n p) (control calls' q n p) := by
  refine (Entries.longer_flag hc n "stop").andThen fun stop => ?_
  split
  · exact .refl _
  · refine (Entries.longer_flag hc n "next").andThen fun next => ?_
    split
    · exact .refl _
    · exact .refl _

omit hc in
theorem longer_iterate (r : Rounds) (following : List EntryRef)
    {body body' : List EntryRef → Place → Action Exit}
    (h : ∀ ns p, Longer Eq (body ns p) (body' ns p)) (more : Nat) (index : Int) (ns : List EntryRef)
    (mark : EntryRef) :
    Longer Eq (iterate seconds q r following body more index ns mark)
      (iterate seconds q r following body' more index ns mark) := by
  induction more generalizing index ns mark with
  | zero =>
    unfold iterate
    exact (h _ _).andThen fun _ => .refl _
  | succ more ih =>
    unfold iterate
    refine (h _ _).andThen fun exit => ?_
    cases exit with
    | stop => exact .refl _
    | beyond => exact .refl _
    | done => exact .after _ fun _ => ih _ _ _
    | next => exact .after _ fun _ => ih _ _ _

end Fuel

mutual

theorem longer_single {calls calls' : Calls} (hc : calls.Longer calls') (seconds : Option Float)
    (q : QueueRef) (c : Compiled) (n : EntryRef) (p : Place) :
    Longer Eq (single calls seconds q c n p) (single calls' seconds q c n p) := by
  match c with
  | { handler, branches, .. } =>
    unfold single
    split
    · refine (longer_serve hc seconds q n _ (longer_choice hc q n)).andThen fun r => ?_
      match r, branches with
      | none, _ => exact .refl _
      | some none, _ => exact .refl _
      | some (some _), none => exact .refl _
      | some (some (i, ns)), some bs => exact longer_chosen hc seconds q bs i ns p
    · refine (longer_serve hc seconds q n _ (longer_control hc q n p)).andThen fun r => ?_
      match r, branches with
      | none, _ => exact .refl _
      | some .pass, _ => exact .refl _
      | some (.leave _), _ => exact .refl _
      | some (.enter _ _ _ _ _), none => exact .refl _
      | some (.enter r first more ns mark), some bs =>
        exact longer_iterate seconds q r _ (longer_chosen hc seconds q bs 0) more first ns mark
    · exact (longer_serve hc seconds q n _ (Commands.longer_execute hc n)).andThen fun _ => .refl _

theorem longer_block {calls calls' : Calls} (hc : calls.Longer calls') (seconds : Option Float)
    (q : QueueRef) (cs : List Compiled) (ns : List EntryRef) (p : Place) :
    Longer Eq (block calls seconds q cs ns p) (block calls' seconds q cs ns p) := by
  match cs, ns with
  | c :: cs, n :: ns =>
    unfold block
    refine (longer_single hc seconds q c n _).andThen fun exit => ?_
    cases exit with
    | done => exact longer_block hc seconds q cs ns p
    | _ => exact .refl _
  | [], _ =>
    unfold block
    exact .refl _
  | _ :: _, [] =>
    unfold block
    exact .refl _

theorem longer_chosen {calls calls' : Calls} (hc : calls.Longer calls') (seconds : Option Float)
    (q : QueueRef) (bs : List (Branch Compiled)) (i : Nat) (ns : List EntryRef) (p : Place) :
    Longer Eq (chosen calls seconds q bs i ns p) (chosen calls' seconds q bs i ns p) := by
  match bs, i with
  | ⟨_, _, body⟩ :: _, 0 =>
    unfold chosen
    exact longer_block hc seconds q body ns p
  | ⟨_, _, body⟩ :: rest, i + 1 =>
    unfold chosen
    exact longer_chosen hc seconds q rest i ns p
  | [], _ =>
    unfold chosen
    exact .refl _

end

/-! ## Where a program starts and ends -/

/-- An instant queue has been filled with a program and is to be started, and no other queue is live. -/
structure Prepared (q : QueueRef) (e : Engine) : Prop where
  queue : q < e.queues.size
  idle : (e.queue q).state = .idle
  instant : (e.queue q).pace = .instant
  current : (e.queue q).replacedBy = none
  listeners : (e.queue q).listeners = []
  last : (e.queue q).last = none
  isProgram : Compiled.isBlock ((e.queue q).pending.map fun n => (e.entry n).code) = true
  registry : e.registry = []
  handoffs : e.handoffs = []

section Ends

variable {P : Prop} {fuel : Nat} {seconds : Option Float} {q : QueueRef} {e : Engine}

/-- The engine when the queue has been started. -/
theorem Prepared.launch (h : Prepared q e) (he : e.Healthy) :
    ∃ x, Queues.launch q e = (.ok (), x) ∧ Ready e.HasProcedure q x ∧
      (x.queue q).pending = (e.queue q).pending ∧ x.entries = e.entries := by
  obtain ⟨events, launched⟩ := e.launch_eq q
  let x : Engine := { e.launched q with events }
  have queue : x.queue q = { e.queue q with state := .running } := e.queue_launched h.queue
  have healthy : x.Healthy := by
    have safe := Discipline.Healthy.safe_launch h.queue
    have ran := safe.run e he (Discipline.healthy.refl e)
    rw [launched] at ran
    exact ran.1.1
  refine ⟨x, launched, ?_, by rw [queue], rfl⟩
  exact {
    healthy
    procedures := id
    queue := Nat.lt_of_lt_of_eq h.queue (e.size_changeQueue q _).symm
    running := by rw [queue]
    instant := by rw [queue]; exact h.instant
    current := by rw [queue]; exact h.current
    listeners := by rw [queue]; exact h.listeners
    free := by
      unfold Drive.isWaiting
      rw [queue, h.last]
      rfl
    registry := by
      refine ⟨Text.lower (e.queue q).id, ?_⟩
      show e.registry.put _ q = _
      rw [h.registry]
      rfl
    handoffs := h.handoffs }

/-- The queue ends its last turn when nothing is pending. -/
theorem Ready.ends (h : Ready P q e) (hp : (e.queue q).pending = []) :
    ∃ E, Queues.finish q e = (.ok (), E) ∧ (E.queue q).state = .finished ∧ (E.queue q).pending = [] ∧
      ∀ calls, Drive.step calls q e = (.ok false, E) := by
  let x := e.changeQueue q ({ · with state := .finished })
  have running : (e.queue q).state.isEnd = false := by
    rw [h.running]
    rfl
  have quiet : ((Queues.unregistered q x).queue q).listeners = [] := by
    rw [Queues.queue_unregistered]
    exact (congrArg Queue.listeners (e.queue_changeQueue_self h.queue _)).trans h.listeners
  have finished : (Queues.finish q e).1 = .ok () := by
    obtain ⟨events, told⟩ := Queues.complete_eq q x
    rw [Queues.finish, Queues.end_eq running, told, quiet]
    rfl
  have closes := Engine.Closes.of_finish h.queue running
  rcases hr : Queues.finish q e with ⟨f | _, E⟩
  · rw [hr] at finished
    cases finished
  · rw [hr] at closes
    refine ⟨E, rfl, closes.state, (closes.kept rfl).trans hp, fun calls => ?_⟩
    have active : Drive.isActive e q = true := by
      unfold Drive.isActive
      rw [h.running, h.current]
      rfl
    exact (Drive.step_of_empty active h.free hp).trans (Action.bind_ok hr)

end Ends

section Runs

variable {seconds : Option Float} {q : QueueRef} {e x : Engine}

/-- The entries of the program are on the queue. -/
theorem laid_pending (he : e.Orderly) (hx : x.entries = e.entries) :
    Laid q 0 ((e.queue q).pending.map fun n => (e.entry n).code) (e.queue q).pending x where
  codes := List.map_congr_left fun n _ => by rw [Engine.entry_congr hx]
  size n hn := by
    rw [hx]
    exact (he.healthy.tidy.pending q n hn).1
  residing n hn := by
    rw [Engine.entry_congr hx]
    exact he.settled hn
  new _ _ := Nat.zero_le _

/-- The program leads to where the queue gets. -/
theorem Prepared.goes (h : Prepared q e) (he : e.Orderly) (hready : Ready e.HasProcedure q x)
    (hp : (x.queue q).pending = (e.queue q).pending) (hx : x.entries = e.entries) (fuel : Nat) :
    Goes e.HasProcedure (fuel + 1) seconds q (e.queue q).pending ⟨[], none⟩ x
      (block (Drive.calls (fuel + 1)) seconds q ((e.queue q).pending.map fun n => (e.entry n).code)
        (e.queue q).pending ⟨[], none⟩ x) := by
  have stands : Place.Stands q (e.queue q).pending x ⟨[], none⟩ :=
    ⟨fun _ hm => absurd hm List.not_mem_nil, fun _ hm => absurd hm List.not_mem_nil, nofun⟩
  exact runsBody_block (Drive.isolated_calls (fuel + 1)) (.inl (Drive.prompt_calls fuel)) _ h.isProgram
    hready (laid_pending he hx) (hp.trans (List.append_nil _).symm) stands

/-- What the interpreter does when the queue has been started. -/
theorem run_eq (calls : Calls) (hl : Queues.launch q e = (.ok (), x))
    (hp : (x.queue q).pending = (e.queue q).pending) (hx : x.entries = e.entries) :
    Structured.run calls seconds q e =
      (block calls seconds q ((e.queue q).pending.map fun n => (e.entry n).code) (e.queue q).pending
          ⟨[], none⟩ >>= fun
        | .done => do
          Queues.finish q
          pure .done
        | exit => pure exit) x := by
  have codes : (x.queue q).pending.map (fun n => (x.entry n).code) =
      (e.queue q).pending.map fun n => (e.entry n).code := by
    rw [hp]
    exact List.map_congr_left fun n _ => by rw [Engine.entry_congr hx]
  unfold Structured.run
  rw [Action.bind_ok hl, ← codes, ← hp]
  rfl

/-- What a queue does when it is started. -/
theorem start_eq (hl : Queues.launch q e = (.ok (), x)) (hidle : (e.queue q).state = .idle)
    (hready : Ready P q x) (fuel : Nat) :
    Host.start fuel q e = Drive.advance (Drive.calls fuel) fuel q x := by
  have beat : Drive.heartbeat (Drive.calls fuel) fuel q x = Drive.advance (Drive.calls fuel) fuel q x :=
    Drive.heartbeat_of_instant hready.running hready.instant
  show (if (e.queue q).state = .idle then _ else _ : Action Unit) e = _
  rw [if_pos hidle]
  exact (Action.bind_ok hl).trans beat

/-- A queue that is started comes to its end after a number of beats, with nothing left, if there is enough
fuel. -/
structure Finishes (seconds : Option Float) (q : QueueRef) (e E : Engine) : Prop where
  state : (E.queue q).state = .finished
  pending : (E.queue q).pending = []
  reached : ∃ least, ∀ fuel ≥ least, ∃ e₁ beats, Host.start fuel q e = (.ok (), e₁) ∧
    Heartbeat.ticks fuel seconds beats e₁ = (.ok (), E)

/-- The queue comes to the end that the interpreter comes to, unless that gives up. -/
theorem Prepared.finishes {config : Config} {e : Engine} (hr : Reachable (Host.create config []) e)
    {q : QueueRef} (h : Prepared q e) (seconds : Option Float) (k : Nat)
    (hk : e.HasProcedure → (Structured.run (Drive.calls (k + 1)) seconds q e).1 ≠ .error .exhausted) :
    ∃ exit E, Structured.run (Drive.calls (k + 1)) seconds q e = (.ok exit, E) ∧
      (exit = .beyond ∨ exit = .done ∧ Finishes seconds q e E) := by
  obtain ⟨orderly, -⟩ := hr.orderly
  obtain ⟨x, launched, ready, pending, entries⟩ := h.launch orderly.healthy
  have goes (fuel : Nat) : Goes e.HasProcedure (fuel + 1) seconds q (e.queue q).pending ⟨[], none⟩ x
      (block (Drive.calls (fuel + 1)) seconds q ((e.queue q).pending.map fun n => (e.entry n).code)
        (e.queue q).pending ⟨[], none⟩ x) :=
    h.goes orderly ready pending entries fuel
  rw [run_eq _ launched pending entries] at hk ⊢
  match hb : block (Drive.calls (k + 1)) seconds q ((e.queue q).pending.map fun n => (e.entry n).code)
      (e.queue q).pending ⟨[], none⟩ x with
  | (.error f, y) =>
    have first := goes k
    rw [hb] at first
    obtain ⟨rfl, procedure⟩ := first
    rw [Action.bind_error hb] at hk
    exact absurd rfl (hk procedure)
  | (.ok exit, y) =>
    rw [Action.bind_ok hb]
    have first := goes k
    rw [hb] at first
    rcases first with rfl | ⟨advances, after⟩
    · exact ⟨.beyond, y, rfl, .inl rfl⟩
    cases exit with
    | next | stop | beyond => cases after
    | done =>
      obtain ⟨E, finished, state, empty, ends⟩ := advances.ready.ends (Option.some.inj after).symm
      refine ⟨.done, E, Action.bind_ok finished, .inr ⟨rfl, state, empty, max (k + 1) (y.journal.length + 1),
        fun fuel hfuel => ?_⟩⟩
      obtain ⟨j, rfl⟩ : ∃ j, fuel = j + 1 := ⟨fuel - 1, by omega⟩
      -- With more fuel the interpreter gets to the same engine, now by turns that have this fuel.
      have same := (longer_block (Drive.longer_calls (by omega : k + 1 ≤ j + 1)) seconds q _ _ _).eq_ok hb
      have leads := goes j
      rw [same] at leads
      rcases leads with hd | ⟨leads, -⟩
      · cases hd
      obtain ⟨e₁, beats, turn, ticks⟩ := leads.leads.run (ends _) (by omega) (j + 1) (by omega)
      exact ⟨e₁, beats, (start_eq launched h.idle ready (j + 1)).trans turn, ticks⟩

end Runs

end Structured

end QueueScript
