import QueueScript.Proofs.Upkeep.Laws
import QueueScript.Proofs.Upkeep.Startable

/-!
# Queues that are started keep a property up

A queue that starts begins entries at once, so it has to be free (`Engine.Free`).  Three kinds of queues
are: a queue that a script or a procedure was just put on, the one that comes in the place of a queue
that is to wait, and any queue when nothing is under way.  These moments are looked at on one engine, with
the entries that a queue begins as a hypothesis (`Discipline.RunsEntries`).
-/

namespace QueueScript

namespace Discipline

/-- Orderly engines with a property, where only free queues are driven. -/
def driven (J : Engine → Prop) : Discipline :=
  { upheld J with
    mine := fun e q => e.Free q
    mine_mono := fun h hq => hq.later h.2 h.1.1 h.1.2 }

instance (J : Engine → Prop) : (driven J).Lenient :=
  ⟨fun _ => trivial⟩

namespace Upheld

variable {S T : Prop} {C : Engine → QueueRef → Prop} {J : Engine → Prop} {calls : Calls} {e : Engine}
  {q : QueueRef} {n : EntryRef}

/-- Free queues that may be started keep a property up when they are. -/
def Starts (S : Prop) (J : Engine → Prop) (calls : Calls) : Prop :=
  ∀ e q, (upheld J).inv e → e.Free q → (S → e.Startable q) →
    (upheld J).Leaves e (fun _ _ => True) (calls.start q e)

/-- Queues that may be replaced keep a property up when they are, if a `wait` is the innermost entry under
way. -/
def Replaces (C : Engine → QueueRef → Prop) (J : Engine → Prop) (calls : Calls) : Prop :=
  ∀ e q d, (upheld J).inv e → q < e.queues.size → C e q → e.Delays →
    (upheld J).Leaves e (fun _ _ => True) ((do
      let t ← Queues.replaceByTimed q d
      calls.start t : Action Unit) e)

variable (hJ : Upkeep S T C J)

include hJ

theorem pacing : (driven J).Pacing where
  finishQueue hq := ⟨fun _ he hl =>
    leaves (Steady.leaves_finish hJ he ((driven J).mine_mono hl hq).here)⟩
  delay d he hq := step (Steady.step_delay hJ d he hq.here)
  pace hl hq := Healthy.running.pace hl.1 hq

/-! ## One start -/

theorem leaves_launchOnly (he : (steady J).inv e) (hq : q < e.queues.size)
    (hidle : (e.queue q).state = .idle) (hs : S → e.registered? (e.queue q).id = none) :
    (steady J).Leaves e (fun _ _ => True) (Queues.launch q e) := by
  have safe := (Healthy.safe_launch hq).run e he.1.healthy (healthy.refl e)
  refine Steady.leaves safe fun step => ?_
  obtain ⟨events, launch⟩ := e.launch_eq q
  rw [launch] at step ⊢
  have keep {α : Type} (g : Queue → α) (hg : ∀ x : Queue, g { x with state := .running } = g x)
      (p : QueueRef) : g ((e.launched q).queue p) = g (e.queue p) := e.queue_changeQueue_keep hg q p
  have noted : (e.launched q).Quiet { e.launched q with events } := .of_tables rfl rfl rfl rfl rfl
  have launched : (e.launched q).Orderly := by
    refine he.1.fewer ?_ (e.size_changeQueue q _) (Nat.le_refl _) (fun p n hn => ?_) (fun _ => rfl)
      fun _ => .inl
    · refine step.1.keeps (Engine.keeps_of_tables rfl rfl) ?_
      exact step.1.tidy.aside ⟨rfl, rfl, fun _ h => .inl h, rfl, rfl, rfl, fun _ => rfl⟩
    · rwa [← keep Queue.pending (fun _ => rfl) p]
  refine ⟨⟨launched.quiet step.1 noted, ?_⟩, .of_same rfl (keep Queue.replacedBy fun _ => rfl)⟩
  exact hJ.quiet launched (hJ.launch he.1 he.2 hq hidle hs) noted (Engine.grows_of_tables rfl rfl rfl)

/-- An idle queue is launched and takes its first turn. -/
theorem leaves_launch (hr : (driven J).RunsEntries calls) (he : (upheld J).inv e) (hq : e.Free q)
    (hidle : (e.queue q).state = .idle) (hs : S → e.registered? (e.queue q).id = none) (fuel : Nat) :
    (upheld J).Leaves e (fun _ _ => True) ((do
      Queues.launch q
      Drive.heartbeat calls fuel q : Action Unit) e) :=
  leaves_bind (leaves (leaves_launchOnly hJ he hq.here hidle hs)) fun _ _ hx hl _ =>
    leaves_heartbeat (pacing hJ) hr hx ((driven J).mine_mono hl hq) fuel

theorem leaves_start (hr : (driven J).RunsEntries calls) (he : (upheld J).inv e) (hq : e.Free q)
    (hs : S → (e.queue q).state = .idle → e.registered? (e.queue q).id = none) (fuel : Nat) :
    (upheld J).Leaves e (fun _ _ => True) (Drive.start calls fuel q e) := by
  show (upheld J).Leaves e _ ((if (e.queue q).state = .idle then _ else pure () : Action Unit) e)
  split
  · rename_i idle
    exact leaves_launch hJ hr he hq idle (fun s => hs s idle) fuel
  · exact ⟨Step.refl he, trivial⟩

/-- A queue is replaced by a timed queue, which is started at once. -/
theorem leaves_replace (hr : (driven J).RunsEntries calls) (he : (upheld J).inv e)
    (hq : q < e.queues.size) (hc : C e q) (hd : e.Delays) (d : Option Delay) (fuel : Nat) :
    (upheld J).Leaves e (fun _ _ => True) ((do
      let t ← Queues.replaceByTimed q d
      Drive.start calls fuel t : Action Unit) e) := by
  obtain ⟨x, run, converts, y, replace, idle, launch⟩ := e.convert_eq hq d
  have healthy : healthy.Step e x := by
    have safe : healthy.Safe e (do
        let t ← Queues.replaceByTimed q d
        Queues.launch t
        pure t) := by
      refine gives_bind (Healthy.gives_replace d hq) fun t _ _ _ ht => ?_
      exact safe_bind (Healthy.safe_launch ht) fun _ => safe_pure _
    have left := safe.run e he.1.healthy (healthy.refl e)
    rw [run] at left
    exact left.1
  have replaced : (upheld J).Step e x :=
    ⟨⟨converts.orderly he.1 healthy.1, hJ.convert he.1 he.2 hq hc converts healthy.2.1⟩, healthy.2,
      .of_converts converts healthy.1.tidy⟩
  have started : (do
      let t ← Queues.replaceByTimed q d
      Drive.start calls fuel t : Action Unit) e = Drive.heartbeat calls fuel e.queues.size x := by
    refine (Action.bind_ok replace).trans ?_
    show (if (y.queue e.queues.size).state = .idle then _ else pure () : Action Unit) y = _
    rw [if_pos idle]
    exact Action.bind_ok launch
  rw [started]
  refine Leaves.from replaced.2 ?_
  exact leaves_heartbeat (pacing hJ) hr replaced.1 (.of_converts hd he.1 converts) fuel

/-! ## Procedures -/

theorem leaves_runToCompletion (hr : (driven J).RunsEntries calls) (he : (upheld J).inv e)
    (hq : e.Free q) (hpace : (e.queue q).pace = .instant)
    (hs : S → (e.queue q).state = .idle → e.registered? (e.queue q).id = none) (fuel : Nat) :
    (upheld J).Leaves e (fun _ _ => True) (Drive.runToCompletion calls fuel q e) := by
  refine leaves_bind (leaves_start hJ hr he hq hs fuel) fun _ x hx hl _ => ?_
  obtain ⟨hsize, same⟩ := (pacing hJ).pace hl hq.here
  have turns := safe_turns (pacing hJ) hr ((driven J).mine_mono hl hq) hsize (same.trans hpace) fuel
  exact turns.run x hx ((driven J).refl x)

theorem safe_stop {e₀ : Engine} (hq : q < e₀.queues.size) : (upheld J).Safe e₀ (Queues.stop q) :=
  ⟨fun _ he hl => leaves (Steady.leaves_stop hJ he ((upheld J).mine_mono hl hq))⟩

/-- A procedure runs on a new queue, which is free. -/
theorem leaves_runProcedure (hr : (driven J).RunsEntries calls) (fuel : Nat) (name : String)
    (args : List Value) (he : (upheld J).inv e) :
    (upheld J).Leaves e (fun _ _ => True) (Drive.runProcedure calls fuel name args e) := by
  obtain ⟨f, hf, hnamed⟩ | ⟨n, hnamed, -⟩ := Drive.procedureNamed_eq name e
  · have failed : Drive.runProcedure calls fuel name args e = (.error f, e) := Action.bind_error hnamed
    rw [failed]
    exact leaves_error hf (Step.refl he)
  let options : Queues.Options := { isProcedural := true, script := some ⟨n, (e.script n).name⟩ }
  obtain ⟨x, hcreate, rests, startable⟩ :=
    Queues.create_startable (e := e) options nofun .instant (e.script n).name
  have making : (steady J).Gives e (Queues.create .instant (e.script n).name options)
      ((steady J).Made e .instant) := gives_createQueue (Steady.preparing hJ) _ _ _
  have made := making.run e he ((steady J).refl e)
  rw [hcreate] at made
  obtain ⟨created, ⟨hq, hfree⟩, hsize, hpace, -⟩ := made
  rw [Drive.runProcedure_eq calls fuel args hnamed hcreate]
  refine Leaves.from (step created).2 ?_
  have loaded := (safe_load (Steady.preparing hJ).toTurning hq n args []).run x created.1
    ((steady J).refl x)
  refine leaves_bind ((leaves loaded).and (R := fun _ y => x.Rests y) fun _ y h => ?_)
    fun _ y hy hl hrests => ?_
  · have := (Action.restful_load e.queues.size n args []).run x
    rwa [h] at this
  obtain ⟨hsize', same⟩ := (pacing hJ).pace hl hsize
  refine leaves_bind (leaves_runToCompletion hJ hr hy ((driven J).mine_mono hl hfree)
    (same.trans hpace) (fun _ _ => (startable.later hrests.2).free) fuel) fun _ z hz hl' _ => ?_
  exact (safe_outcome (safe_stop hJ ((upheld J).mine_mono hl' hsize')) name).run z hz
    ((upheld J).refl z)

end Upheld

/-- A procedure leaves the lines of queues as they are, since it leaves all queues alone. -/
theorem Steady.procedureSafe {J : Engine → Prop} {calls : Calls} (hi : calls.Isolated)
    (hp : (upheld J).ProcedureSafe calls) : (steady J).ProcedureSafe calls := by
  refine fun _ name args => ⟨fun e he _ => ?_⟩
  have left := (hp e name args).run e he ((upheld J).refl e)
  have isolated := hi e name args he.1.healthy
  generalize calls.procedure name args e = r at left isolated
  obtain ⟨r, x⟩ := r
  have kept (hr : r ≠ .error .exhausted) (hs : (upheld J).Step e x) : (steady J).Step e x :=
    ⟨hs.1, hs.2.1, hs.2.2, fun hp => by rw [(isolated hr).2.queue hp]⟩
  cases r with
  | ok v => exact ⟨kept nofun left.1, trivial⟩
  | error f =>
    cases f with
    | exhausted => trivial
    | _ => exact kept nofun left

end Discipline

end QueueScript
