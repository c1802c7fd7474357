import QueueScript.Proofs.Discipline.Commands

/-!
# Turns of queues keep a discipline

An entry is run by resolving its arguments, parsing and executing, with every failure reported; a
queue is driven by running entry after entry.  Only the moment when a queue begins an entry asks
more of a discipline than its laws: `RunsEntries` says what is known of the queue then.  From it, a
turn, a start, a run to completion and a procedure are safe, one level of nesting after the other.
-/

namespace QueueScript

namespace Drive

/-- Gives a queue turn after turn until it ends or is held. -/
def turns (calls : Calls) (fuel : Nat) (q : QueueRef) : Action Unit :=
  Action.repeatWhile
    (do
      if ← Action.look fun e => isActive e q && !isWaiting e q then
        advance calls fuel q
        pure true
      else pure false)
    fuel

/-- The value of a procedure whose queue has ended. -/
def valueOf (q : QueueRef) (name : String) : Action Value := do
  match ← Action.look (·.determinations? q) with
  | some (v :: _) => pure v
  | _ => Action.breakOff (.undetermined name)

/-- When the run of a procedure is over, its queue is ended and its value is looked up. -/
def outcome (q : QueueRef) (name : String) : Action Value := do
  if !(← Action.queue q).state.isEnd then
    Queues.stop q
  valueOf q name

end Drive

namespace Discipline

variable {D : Discipline} {e₀ : Engine} {calls : Calls} {n : EntryRef} {q : QueueRef}

/-! ## One entry -/

/-- What the executor does before a command parses its arguments. -/
theorem safe_prelude (hb : D.Noting) (hp : D.ProcedureSafe calls) (hn : D.own e₀ n)
    (saveAs : Option String) (args : List CompiledArgument) :
    D.Safe e₀ (Executor.prelude calls n saveAs args) := by
  induction args generalizing saveAs with
  | nil => exact safe_pure _
  | cons a rest ih =>
    refine safe_bind (safe_resolveArgument hb hp a) fun argument => ?_
    split
    · exact safe_ite (ih _) (safe_pure _)
    · exact ih _
    · exact safe_bind (safe_store hb hn _ _) fun _ => ih _

section Executor

variable (hb : D.Bookkeeping) (hp : D.ProcedureSafe calls) (hn : D.own e₀ n)

include hb hn

/-- An entry is saved under the name that its line asks for. -/
theorem safe_save (name : String) : D.Safe e₀ (Executor.save n name) := by
  refine look_bind fun e₁ he hl => ?_
  split
  · rename_i q h
    exact safe_hold hb (hb.residing he (D.own_mono hl hn) h) name n
  · exact safe_pure _

include hp

/-- An entry that is not refused and whose command eases it is cared for when it has run. -/
theorem gives_perform (saveAs : Option String)
    (hact : D.Gives e₀ (Commands.execute calls n) fun _ e => D.Eased e n) :
    D.Gives e₀ (Executor.perform calls n saveAs) fun _ e => D.cared e n := by
  refine safe_bind (safe_resolveArguments hb hp hn) fun _ => ?_
  refine safe_bind (safe_parse hb hp hn) fun _ => ?_
  refine gives_bind hact fun _ e₁ _ hl heased => ?_
  have hn₁ := D.own_mono hl hn
  have finish : D.Gives e₁ (do
      if !(← Action.entry n).code.handler.isHoldable then
        Entries.finish n) fun _ e => D.cared e n := by
    refine look_bind fun e₂ _ hl₂ => ?_
    split
    · exact gives_finishEntry hb (D.own_mono hl₂ hn₁)
    · rename_i h
      have hc : D.cared e₂ n := by
        refine (hb.eased_mono hl₂ hn₁ heased).resolve_right fun hh => h ?_
        rw [hh]; rfl
      exact gives_pure fun _ _ hl₃ => D.cared_mono hl₃ hc
  dsimp only
  split
  · exact safe_bind (safe_save hb hn₁ _) fun _ => finish
  · exact finish

omit hn in
/-- An entry whose condition does not hold is done. -/
theorem gives_attempt {Q : Engine → Prop} {e₁ : Engine} (hn₁ : D.own e₁ n) (scope : Scope)
    (hskip : ∀ e, D.marked e n → Q e)
    (hrun : ∀ saveAs, D.Gives e₁ (Executor.perform calls n saveAs) fun _ e => Q e) :
    D.Gives e₁ (Executor.attempt calls n scope) fun _ e => Q e := by
  refine safe_bind (safe_entry n) fun x => ?_
  refine safe_bind (safe_prelude hb hp hn₁ none _) fun p => ?_
  split
  · refine safe_bind (safe_trace hb _ _) fun _ => ?_
    exact (gives_mark hb hn₁).mono fun _ e _ _ h => hskip e h
  · exact hrun _

/-- Running an entry leaves it marked if it is refused or fails.  Otherwise it leaves what a run
gives, or what a mark gives if the entry is skipped. -/
theorem gives_executeWith {Q : Engine → Prop} (hQ : ∀ {e e'}, D.le e e' → Q e → Q e')
    (hmark : ∀ e, D.marked e n → Q e)
    (hrun : ∀ e₁ saveAs, D.inv e₁ → D.le e₀ e₁ → Executor.isRefused e₁ n = false →
      D.Gives e₁ (Executor.perform calls n saveAs) fun _ e => Q e) :
    D.Gives e₀ (Executor.execute calls n) fun ran e => Q e ∧ (ran = false → D.marked e n) := by
  have report (s : Scope) (message : String) (f : Option Failure) {e₁ : Engine}
      (hn₁ : D.own e₁ n) :
      D.Gives e₁ (do
        Action.error message s f
        Entries.finish n
        pure false) fun ran e => Q e ∧ (ran = false → D.marked e n) := by
    refine safe_bind (safe_error hb _ _ _) fun _ => ?_
    refine gives_bind (gives_mark hb hn₁) fun _ _ _ _ hc => gives_pure fun _ _ hl => ?_
    have hm := D.marked_mono hl hc
    exact ⟨hmark _ hm, fun _ => hm⟩
  refine safe_bind (safe_refresh hb hn) fun _ => safe_bind (safe_entry n) fun x => ?_
  refine safe_bind (safe_scope n) fun scope => safe_bind (safe_announce hb _ scope) fun _ => ?_
  refine look_bind fun e₁ he hl => ?_
  have hn₁ := D.own_mono hl hn
  split
  · exact report _ _ _ hn₁
  · rename_i hr
    refine gives_orElse ?_ fun f => report _ _ _ hn₁
    have attempt : D.Gives e₁ (Executor.attempt calls n scope) fun _ e => Q e :=
      gives_attempt hb hp hn₁ scope hmark fun saveAs => hrun e₁ saveAs he hl (by simpa using hr)
    refine gives_bind attempt fun _ _ _ _ hc => gives_pure fun _ _ hl₂ => ?_
    exact ⟨hQ hl₂ hc, nofun⟩

/-- Running an entry cares for it, whether it runs, is skipped, is refused or fails. -/
theorem gives_execute
    (hact : ∀ e₁, D.inv e₁ → D.le e₀ e₁ → Executor.isRefused e₁ n = false →
      D.Gives e₁ (Commands.execute calls n) fun _ e => D.Eased e n) :
    D.Gives e₀ (Executor.execute calls n)
      fun ran e => D.cared e n ∧ (ran = false → D.marked e n) := by
  refine gives_executeWith hb hp hn (fun hl h => D.cared_mono hl h) (fun _ h => D.marked_cared h) ?_
  intro e₁ saveAs he hl hr
  exact gives_perform hb hp (D.own_mono hl hn) saveAs (hact e₁ he hl hr)

end Executor

/-! ## One turn -/

/-- The queue is not held back by a delay. -/
def Undelayed (e : Engine) (q : QueueRef) : Prop :=
  (e.queue q).pace = .timed → (e.queue q).delay = none

/-- Entries that a queue takes off its pending ones and runs keep the discipline, given what a turn makes
sure of before. -/
def RunsEntries (D : Discipline) (calls : Calls) : Prop :=
  ∀ e q n rest, D.inv e → D.mine e q → (e.queue q).pending = n :: rest →
    Drive.isActive e q = true → Drive.isWaiting e q = false → Undelayed e q →
      D.Leaves e (fun _ _ => True)
        (Drive.runEntry calls q n (e.changeQueue q ({ · with pending := rest })))

/-- Entries that were taken off a queue keep the discipline when they are run. -/
def BeginsEntries (D : Discipline) (calls : Calls) : Prop :=
  ∀ e q n, D.inv e → D.mine e q → D.placed e q n → D.taken e q n →
    Drive.isActive e q = true → Drive.isWaiting e q = false → Undelayed e q →
      D.Leaves e (fun _ _ => True) (Drive.runEntry calls q n e)

/-- Taking an entry off the pending ones leaves what a turn makes sure of. -/
theorem ready_pending (e : Engine) (q : QueueRef) (ns : List EntryRef) :
    let e' := e.changeQueue q ({ · with pending := ns })
    Drive.isActive e' q = Drive.isActive e q ∧ Drive.isWaiting e' q = Drive.isWaiting e q ∧
      (Undelayed e' q ↔ Undelayed e q) := by
  intro e'
  have keep {α : Type} (g : Queue → α) (hg : ∀ x : Queue, g { x with pending := ns } = g x) :
      g (e'.queue q) = g (e.queue q) :=
    e.queue_changeQueue_keep hg q q
  refine ⟨?_, ?_, ?_⟩
  · exact keep (fun x => x.state == .running && x.replacedBy.isNone) fun _ => rfl
  · exact keep (fun x => x.last.any fun n => (e.entry n).isAwaited) fun _ => rfl
  · exact iff_of_eq (keep (fun x => x.pace = .timed → x.delay = none) fun _ => rfl)

/-- Taking entries off may be looked at apart from running them. -/
theorem BeginsEntries.runs (hb : D.BeginsEntries calls) (ht : D.Serving) (hem : D.Emptying) :
    D.RunsEntries calls := by
  intro e q n rest he hq hp hactive hwaiting hu
  have hn : D.placed e q n := ht.waiting he hq (by simp [hp])
  obtain ⟨step, taken⟩ := hem.take he hq hp
  obtain ⟨ha, hw, hd⟩ := ready_pending e q rest
  exact (hb _ q n step.1 (D.mine_mono step.2 hq) (D.placed_mono step.2 hn) taken
    (ha.trans hactive) (hw.trans hwaiting) (hd.2 hu)).from step.2

section Free

variable [D.Lenient] [D.Open] (ho : D.Outreach) (hb : D.Blocks) (hp : D.ProcedureSafe calls) (hs : D.StartSafe calls)

include ho hb hp hs

/-- Running an entry cares for it, whatever its command. -/
theorem gives_executor (hn : D.own e₀ n) : D.Gives e₀ (Executor.execute calls n)
    fun ran e => D.cared e n ∧ (ran = false → D.marked e n) := by
  refine gives_execute hb.toBookkeeping hp hn fun x _ hl _ => ?_
  have hn := D.own_mono hl hn
  exact gives_commandsExecute ho hb.emptying hp hs hn fun _ _ hl' =>
    runsBlocks ho.toReaching hb.weaving hb.emptying hp (D.own_mono hl' hn)

/-- Queues may run any entries, if the notes that are taken of them keep the discipline. -/
theorem runsNoted
    (hbegan : ∀ {e : Engine} {q : QueueRef} (n : EntryRef), D.inv e → Drive.isActive e q = true →
      Drive.isWaiting e q = false → Undelayed e q →
        D.Step e { e with journal := .began q n (e.queue q) ((e.queue q).last.map e.entry) :: e.journal })
    (hlast : ∀ {e : Engine} (q : QueueRef) {n : EntryRef}, D.inv e → D.own e n →
      D.Step e (e.changeQueue q ({ · with last := some n })))
    (hreturned : ∀ {e : Engine} (q : QueueRef) (n : EntryRef) (ran : Bool), D.inv e →
      D.Step e { e with journal := .returned q n ran :: e.journal }) : D.RunsEntries calls := by
  refine BeginsEntries.runs ?_ ho.toServing hb.emptying
  intro e q n he _ hn _ hactive hwaiting hu
  have hn := D.placed_own hn
  have safe : D.Safe e (do
      Action.changeQueue q ({ · with last := some n })
      let ran ← Executor.execute calls n
      Drive.note (.returned q n ran)
      pure ran) := by
    refine safe_bind (safe_change fun x hx hl => hlast q hx (D.own_mono hl hn)) fun _ => ?_
    refine safe_bind (gives_executor ho hb hp hs hn).safe fun ran => ?_
    exact safe_bind (safe_change fun x hx _ => hreturned q n ran hx) fun _ => safe_pure _
  have began := hbegan n he hactive hwaiting hu
  exact (safe.run _ began.1 began.2).from began.2

end Free

section Turn

variable (ht : D.Pacing)

include ht

/-- A timed queue goes on after an instant entry only, and only without a delay. -/
theorem leaves_goesOn {e : Engine} (he : D.inv e) (hq : D.mine e q) (n : EntryRef) :
    D.Leaves e (fun b e' => b = true → Undelayed e' q) (Drive.goesOn q n e) := by
  have halt {a : Action Bool} (ha : D.Gives e a fun b _ => b = false) :
      D.Leaves e (fun b e' => b = true → Undelayed e' q) (a e) :=
    (ha.run e he (D.refl e)).mono fun _ _ _ hb ht => absurd (hb.symm.trans ht) nofun
  show D.Leaves e _ ((if (e.queue q).delay.isSome then pure false else _ : Action Bool) e)
  split
  · exact halt (gives_pure fun _ _ _ => rfl)
  · rename_i hd
    show D.Leaves e _ ((if (e.entry n).isInstant then pure true else _ : Action Bool) e)
    split
    · exact ⟨Step.refl he, fun _ _ => by simpa using hd⟩
    · refine halt ?_
      dsimp only
      split
      · refine safe_bind (safe_look _) fun d => safe_bind (safe_change fun e₁ he₁ hl => ?_) fun _ => ?_
        · exact ht.delay _ he₁ (D.mine_mono hl hq)
        · exact gives_pure fun _ _ _ => rfl
      · exact gives_pure fun _ _ _ => rfl

/-- One step of a turn. -/
theorem leaves_step {e : Engine} (hr : D.RunsEntries calls) (he : D.inv e) (hq : D.mine e q)
    (hu : Undelayed e q) :
    D.Leaves e (fun b e' => b = true → Undelayed e' q) (Drive.step calls q e) := by
  cases hactive : Drive.isActive e q with
  | false =>
    rw [Drive.step_of_inactive hactive]
    exact ⟨Step.refl he, nofun⟩
  | true =>
  cases hwaiting : Drive.isWaiting e q with
  | true =>
    rw [Drive.step_of_waiting hwaiting]
    exact ⟨Step.refl he, nofun⟩
  | false =>
  cases hp : (e.queue q).pending with
  | nil =>
    rw [Drive.step_of_empty hactive hwaiting hp]
    refine leaves_bind ((ht.finishQueue hq).run e he (D.refl e)) fun _ e₁ he₁ _ _ => ?_
    exact ⟨Step.refl he₁, nofun⟩
  | cons n rest =>
    rw [Drive.step_of_pending hactive hwaiting hp]
    have ran := hr e q n rest he hq hp hactive hwaiting hu
    have rest (ran : Bool) {e₁ : Engine} (he₁ : D.inv e₁) (hl : D.le e e₁) :
        D.Leaves e₁ (fun b e' => b = true → Undelayed e' q) (Drive.goesOnAfter q n ran e₁) := by
      cases ran with
      | false => exact ⟨Step.refl he₁, nofun⟩
      | true =>
        cases hpace : (e₁.queue q).pace with
        | instant =>
          rw [Drive.goesOnAfter_of_instant hpace]
          exact ⟨Step.refl he₁, fun _ h => absurd (hpace.symm.trans h) nofun⟩
        | timed =>
          rw [Drive.goesOnAfter_of_timed hpace]
          exact leaves_goesOn ht he₁ (D.mine_mono hl hq) n
    exact leaves_bindFrom ran fun b e₁ he₁ hl _ => rest b he₁ hl

/-- A turn of a queue that no delay holds back. -/
theorem leaves_advance [D.Lenient] {e : Engine} (hr : D.RunsEntries calls) (he : D.inv e) (hq : D.mine e q)
    (hu : Undelayed e q) (fuel : Nat) :
    D.Leaves e (fun _ _ => True) (Drive.advance calls fuel q e) := by
  refine leaves_repeatWhile (L := fun e => Undelayed e q) ?_ fuel he (D.refl e) hu
  exact fun _ he₁ hl hu₁ => leaves_step ht hr he₁ (D.mine_mono hl hq) hu₁

/-- A timed queue that is not held back has no delay left. -/
theorem leaves_isHeldBack {e : Engine} (he : D.inv e) (hq : D.mine e q) :
    D.Leaves e (fun b e' => b = false → Undelayed e' q) (Drive.isHeldBack q e) := by
  cases hd : (e.queue q).delay with
  | none =>
    rw [Drive.isHeldBack_of_none hd]
    exact ⟨Step.refl he, fun _ _ => hd⟩
  | some d =>
    rw [Drive.isHeldBack_of_some hd]
    split
    · exact ⟨Step.refl he, nofun⟩
    · refine ⟨ht.delay none he hq, fun _ _ => ?_⟩
      show ((e.changeQueue q ({ · with delay := none })).queue q).delay = none
      rw [Engine.queue_changeQueue]
      split
      · rfl
      · rename_i h
        rw [Engine.queue_of_size_le _ (Nat.le_of_not_lt fun hq => h ⟨rfl, hq⟩)]
        rfl

/-- One beat of a queue. -/
theorem leaves_heartbeat [D.Lenient] {e : Engine} (hr : D.RunsEntries calls) (he : D.inv e) (hq : D.mine e q)
    (fuel : Nat) : D.Leaves e (fun _ _ => True) (Drive.heartbeat calls fuel q e) := by
  by_cases hs : (e.queue q).state = .running
  · cases hp : (e.queue q).pace with
    | instant =>
      rw [Drive.heartbeat_of_instant hs hp]
      exact leaves_advance ht hr he hq (fun h => absurd (hp.symm.trans h) nofun) fuel
    | timed =>
      rw [Drive.heartbeat_of_timed hs hp]
      refine leaves_bind (leaves_isHeldBack ht he hq) fun held e₁ he₁ hl hd => ?_
      cases held with
      | true => exact ⟨Step.refl he₁, trivial⟩
      | false => exact leaves_advance ht hr he₁ (D.mine_mono hl hq) (hd rfl) fuel
  · rw [Drive.heartbeat_of_still hs]
    exact ⟨Step.refl he, trivial⟩

omit ht in
/-- A queue is started. -/
theorem safe_start [D.Lenient] (ht : D.Running) (hr : D.RunsEntries calls) (hq : D.mine e₀ q)
    (fuel : Nat) :
    D.Safe e₀ (Drive.start calls fuel q) := by
  refine ⟨fun e he hl => ?_⟩
  have hqe := D.mine_mono hl hq
  show D.Leaves e _ ((if (e.queue q).state = .idle then _ else pure () : Action Unit) e)
  split
  · rename_i idle
    refine leaves_bind (ht.launch he hqe idle) fun _ e₁ he₁ hl₁ _ => ?_
    exact leaves_heartbeat ht.toPacing hr he₁ (D.mine_mono hl₁ hqe) fuel
  · exact ⟨Step.refl he, trivial⟩

/-- An instant queue that is given turn after turn. -/
theorem safe_turns [D.Lenient] (hr : D.RunsEntries calls) (hq : D.mine e₀ q) (hsize : q < e₀.queues.size)
    (hpace : (e₀.queue q).pace = .instant) (fuel : Nat) :
    D.Safe e₀ (Drive.turns calls fuel q) := by
  refine safe_repeatWhile ?_ fuel
  refine safe_bind (safe_look _) fun goesOn => safe_ite ?_ (safe_pure _)
  refine safe_bind ⟨fun e he hl => ?_⟩ fun _ => safe_pure _
  refine leaves_advance ht hr he (D.mine_mono hl hq) (fun h => ?_) fuel
  rw [(ht.pace hl hsize).2, hpace] at h
  cases h

omit ht in
/-- An instant queue runs until it has nothing left to run. -/
theorem safe_runToCompletion [D.Lenient] (ht : D.Running) (hr : D.RunsEntries calls) (hq : D.mine e₀ q)
    (hsize : q < e₀.queues.size) (hpace : (e₀.queue q).pace = .instant) (fuel : Nat) :
    D.Safe e₀ (Drive.runToCompletion calls fuel q) :=
  safe_bind (safe_start ht hr hq fuel) fun _ => safe_turns ht.toPacing hr hq hsize hpace fuel

end Turn

/-! ## Procedures -/

/-- The outcome of a procedure is read and its queue stopped. -/
theorem safe_outcome (hstop : D.Safe e₀ (Queues.stop q)) (name : String) :
    D.Safe e₀ (Drive.outcome q name) := by
  have value : D.Safe e₀ (Drive.valueOf q name) := by
    refine safe_bind (safe_look _) fun found => ?_
    split
    · exact safe_pure _
    · exact gives_breakOff _
  refine safe_bind (safe_queue q) fun queue => ?_
  exact safe_ite (safe_bind hstop fun _ => value) value

/-- A procedure is called. -/
theorem safe_runProcedure [D.Lenient] (ht : D.Turns) (hr : D.RunsEntries calls) (fuel : Nat) (name : String)
    (args : List Value) : D.Safe e₀ (Drive.runProcedure calls fuel name args) := by
  have number : D.Safe e₀ (Drive.procedureNamed name) := by
    refine safe_bind (safe_look _) fun found => ?_
    split
    · exact gives_breakOff _
    · exact safe_bind (safe_look _) fun _ => safe_ite (safe_pure _) (gives_breakOff _)
  refine safe_bind number fun n => ?_
  refine safe_bind (safe_bind (safe_look _) fun _ => safe_pure _) fun script => ?_
  refine gives_bind (gives_createQueue ht.toPreparing _ _ _) fun q e₁ _ _ hq => ?_
  obtain ⟨⟨hq, -⟩, hsize, hpace, -⟩ := hq
  refine safe_bind (safe_load ht.toTurning hq n args []) fun _ => ?_
  refine safe_bind (safe_runToCompletion ht.toRunning hr hq hsize hpace fuel) fun _ => ?_
  exact safe_outcome (ht.stop hq) name

/-! ## Nesting -/

/-- What entries set going keeps the disciplines of a family at every level of nesting, if the entries
that a queue begins do so given that deeper levels do. -/
theorem callsSafeAll {ι : Type} {D : ι → Discipline} [∀ i, (D i).Lenient] (ht : ∀ i, (D i).Turns)
    (hr : ∀ fuel, (∀ i, (D i).ProcedureSafe (Drive.calls fuel) ∧ (D i).StartSafe (Drive.calls fuel)) →
      ∀ i, (D i).RunsEntries (Drive.calls fuel)) (fuel : Nat) (i : ι) :
    (D i).ProcedureSafe (Drive.calls fuel) ∧ (D i).StartSafe (Drive.calls fuel) := by
  induction fuel generalizing i with
  | zero => exact ⟨fun _ _ _ => gives_exhausted, fun _ _ _ => gives_exhausted⟩
  | succ fuel ih =>
    have hruns := hr fuel ih i
    refine ⟨fun _ name args => ?_, fun _ _ hq => ?_⟩
    · exact safe_runProcedure (ht i) hruns fuel name args
    · exact safe_start (ht i).toRunning hruns hq fuel

/-- The case of one discipline. -/
theorem callsSafe [D.Lenient] (ht : D.Turns)
    (hr : ∀ fuel, D.ProcedureSafe (Drive.calls fuel) → D.StartSafe (Drive.calls fuel) →
      D.RunsEntries (Drive.calls fuel)) (fuel : Nat) :
    D.ProcedureSafe (Drive.calls fuel) ∧ D.StartSafe (Drive.calls fuel) :=
  callsSafeAll (D := fun _ : Unit => D) (fun _ => ht)
    (fun fuel h _ => hr fuel (h ()).1 (h ()).2) fuel ()

end Discipline

end QueueScript
