import QueueScript.Proofs.Likeness.Commands

/-!
# Operations on two engines

Running an entry, giving a queue its turn, a procedure, a beat: each goes alike, by induction on how deep
queues and procedures nest.  So whatever a host does with one of two engines that are alike, it gets the same
answer from the other one, and the engines stay alike.
-/

namespace QueueScript

/-- The operation is the world that moves on, not something that the host does. -/
def Operation.IsWorld : Operation → Prop
  | .world _ _ _ => True
  | _ => False

/-- Operations with their fuel, one after the other: all answers, and the engine in the end. -/
def Operation.runAll : List (Nat × Operation) → Engine → List (Except Failure Unit) × Engine
  | [], e => ([], e)
  | (fuel, op) :: rest, e =>
    let (r, e) := op.act fuel e
    let (rs, e) := runAll rest e
    (r :: rs, e)

/-- Operations are run one after the other. -/
theorem Operation.runAll_cons (fuel : Nat) (op : Operation) (rest : List (Nat × Operation))
    (e : Engine) :
    runAll ((fuel, op) :: rest) e =
      ((op.act fuel e).1 :: (runAll rest (op.act fuel e).2).1,
        (runAll rest (op.act fuel e).2).2) :=
  rfl

namespace Likeness

open Paired

variable {L : Likeness} {calls : Calls} {n : EntryRef} {q : QueueRef}

/-! ## One entry -/

section Executor

variable (hc : L.Parallel calls)

include hc

/-- The steps of an entry that is not skipped go alike. -/
@[grind ←]
theorem steady_perform (saveAs : Option String) : Steady L (Executor.perform calls n saveAs) := by
  have save (name : String) : Steady L (Executor.save n name) := by
    unfold Executor.save
    grind
  refine twin_bind (steady_resolveArguments (L.noting n) hc.procedure) fun _ => twin_bind (steady_parse (L.noting n) hc.procedure) fun _ => ?_
  refine twin_bind (steady_executeCommand hc n) fun _ => ?_
  grind

/-- An entry is run or skipped alike. -/
@[grind ←]
theorem twin_attempt {s s' : Scope} (hs : Seen L s s') :
    Twin L (Executor.attempt calls n s) (Executor.attempt calls n s') := by
  unfold Executor.attempt
  grind

/-- An entry runs alike, and its failures are reported alike. -/
theorem steady_execute (n : EntryRef) : Steady L (Executor.execute calls n) := by
  have refused : Steady L (Action.look (Executor.isRefused · n)) :=
    steady_see fun e => by
      simp only [Executor.isRefused, residingQueue_plain, entry_plain, queue_plain]
  have failing {s s' : Scope} (hs : Seen L s s') (message : String) (f : Option Failure) :
      Twin L (do Action.error message s f; Entries.finish n; pure false)
        (do Action.error message s' f; Entries.finish n; pure false) := by
    grind
  refine twin_bind (steady_refresh (L.noting n)) fun _ => twin_bind (steady_entry n) fun x => ?_
  refine alike_scope L.blind fun s s' hs => twin_bind (twin_announce _ hs) fun _ => ?_
  refine twin_bind refused fun b => ?_
  split
  · exact failing hs _ none
  · refine twin_orElse ?_ fun f => failing hs _ (some f)
    exact twin_bind (twin_attempt hc hs) fun _ => steady_pure true

end Executor

/-! ## One turn -/

/-- A queue is held back on both engines or on none. -/
@[grind ←]
theorem steady_isHeldBack (q : QueueRef) : Steady L (Drive.isHeldBack q) := by
  have holding (delay : Delay) : Steady L (Action.look (Queues.isHolding · delay)) :=
    steady_see fun _ => by cases delay <;> rfl
  refine twin_bind (steady_queue q) fun queue => ?_
  split
  · exact steady_pure _
  · refine twin_bind (holding _) fun held => ?_
    split
    · exact steady_pure _
    · exact twin_bind (steady_changeQueue q _) fun _ => steady_pure _

/-- A queue goes on after an entry on both engines or on none. -/
@[grind ←]
theorem steady_goesOn (q : QueueRef) (n : EntryRef) : Steady L (Drive.goesOn q n) := by
  have pause (queue : Queue) : Steady L (do
      let delay ← Action.look (Queues.delayOf · queue.speed false)
      Action.changeQueue q ({ · with delay := some delay })
      pure false) := by
    refine twin_bind (steady_see fun _ => rfl) fun d => ?_
    exact twin_bind (steady_changeQueue q _) fun _ => steady_pure _
  refine twin_bind (steady_queue q) fun queue => ?_
  split
  · exact steady_pure _
  · refine twin_bind (steady_entry n) fun x => ?_
    dsimp only
    split
    · exact steady_pure _
    · split
      · exact pause queue
      · exact steady_pure _

section Turn

variable (hc : L.Parallel calls)

include hc

/-- A queue runs an entry alike. -/
@[grind ←]
theorem steady_runEntry (q : QueueRef) (n : EntryRef) : Steady L (Drive.runEntry calls q n) := by
  have execute := steady_execute hc n
  have note := steady_note L.owning
  refine twin_bind (steady_queue q) fun before => twin_bind (steady_see fun _ => rfl) fun _ => ?_
  grind

/-- A queue takes a step alike. -/
@[grind ←]
theorem steady_step (q : QueueRef) : Steady L (Drive.step calls q) := by
  refine twin_bind (steady_see fun _ => rfl) fun active => ?_
  split
  · exact steady_pure _
  · refine twin_bind (steady_see fun _ => rfl) fun waiting => ?_
    grind

/-- A queue advances alike. -/
@[grind ←]
theorem steady_advance (fuel : Nat) (q : QueueRef) : Steady L (Drive.advance calls fuel q) :=
  twin_repeatWhile (steady_step hc q) fuel

/-- A queue has its turn in a beat alike. -/
@[grind ←]
theorem steady_heartbeat (fuel : Nat) (q : QueueRef) : Steady L (Drive.heartbeat calls fuel q) := by
  unfold Drive.heartbeat
  grind

/-- A queue is started alike. -/
@[grind ←]
theorem steady_start (fuel : Nat) (q : QueueRef) : Steady L (Drive.start calls fuel q) := by
  unfold Drive.start
  grind

/-- A queue is run to completion alike. -/
@[grind ←]
theorem steady_runToCompletion (fuel : Nat) (q : QueueRef) :
    Steady L (Drive.runToCompletion calls fuel q) := by
  have active : Steady L (Action.look fun e => Drive.isActive e q && !Drive.isWaiting e q) :=
    steady_see fun _ => rfl
  unfold Drive.runToCompletion
  grind

/-- A procedure has the same outcome. -/
theorem steady_runProcedure (fuel : Nat) (name : String) (args : List Value) :
    Steady L (Drive.runProcedure calls fuel name args) := by
  refine twin_bind (steady_procedureNamed L.acting name) fun n => twin_bind (steady_reference L.acting n) fun script => ?_
  refine twin_bind (steady_createQueue L.acting _ _ _) fun q => twin_bind (steady_load q n args []) fun _ => ?_
  refine twin_bind (steady_runToCompletion hc fuel q) fun _ => ?_
  grind

end Turn

/-- What commands set going goes alike at every level of nesting. -/
theorem parallel_calls (L : Likeness) (fuel : Nat) : L.Parallel (Drive.calls fuel) := by
  induction fuel with
  | zero => exact ⟨fun _ => alike_fail _, fun _ _ => alike_fail _⟩
  | succ fuel ih =>
    exact ⟨fun q => steady_start ih fuel q, fun name args => steady_runProcedure ih fuel name args⟩

/-! ## Beats -/

/-- A handoff is taken over alike. -/
theorem steady_takeOver (h : Handoff) : Steady L (Heartbeat.takeOver h) := by
  cases h with
  | settle n outcome => exact steady_handOver n outcome
  | task label count error again =>
    refine twin_bind (steady_update (fun _ => rfl) fun _ _ h => h) fun _ => ?_
    split
    · exact alike_fail _
    · split
      · exact steady_update (fun _ => rfl) fun _ _ h => h
      · exact steady_pure _

/-- All handoffs are taken over alike. -/
theorem steady_takeOverAll : Steady L Heartbeat.takeOverAll := by
  refine twin_bind (steady_see fun _ => rfl) fun handoffs => ?_
  refine twin_bind (steady_update (fun _ => rfl) fun _ _ h => h) fun _ => twin_each fun h => ?_
  exact twin_orElse (steady_takeOver h) fun f => twin_error _ (seen_refl L.blind _) _

/-- All queues have their turns alike. -/
theorem steady_beatAll (fuel : Nat) : Steady L (Heartbeat.beatAll fuel) := by
  refine twin_bind (steady_see fun _ => rfl) fun live => twin_each fun q => ?_
  refine twin_orElse (steady_heartbeat (L.parallel_calls fuel) fuel q) fun f => ?_
  exact twin_bind (steady_queueScope L.acting q) fun s => twin_error _ (seen_refl L.blind s) _

/-- A beat goes alike. -/
theorem steady_tick (fuel : Nat) (seconds : Option Float) :
    Steady L (Heartbeat.tick fuel seconds) := by
  have time : Steady L (Action.look fun e => seconds.getD (Heartbeat.defaultSeconds e)) :=
    steady_seeConfig L.blind (f := fun c => seconds.getD (c.heartbeatMillis / 1000.0)) fun _ _ => rfl
  refine twin_bind time fun s => ?_
  refine twin_bind (steady_update (fun _ => rfl) fun _ _ h => h) fun _ => ?_
  exact twin_bind steady_takeOverAll fun _ => steady_beatAll fuel

/-! ## Work that settles -/

/-- Work that settles leaves engines alike. -/
theorem like_settleOne {e e' : Engine} {w : Work} (hl : L.like e e') (hw : w.job.Within L.goes) :
    L.like (Background.settleOne e w) (Background.settleOne e' w) := by
  obtain ⟨outcome, done⟩ := L.perform hl hw
  unfold Background.settleOne
  generalize Background.perform e w.job = r at outcome done ⊢
  generalize Background.perform e' w.job = r' at outcome done ⊢
  obtain ⟨e₁, o⟩ := r
  obtain ⟨e₁', o'⟩ := r'
  cases outcome
  exact like_plain (f := fun e => { e with handoffs := e.handoffs ++ [.settle w.entry o] })
    (fun _ => rfl) (fun _ _ h => h) done

/-- Work at a place settles alike. -/
theorem steady_settleAt (i : Nat) : Steady L (Background.settleAt i) := by
  refine twin_change fun e e' hl => ?_
  rw [see (f := fun e => e.inFlight[i]?) (fun _ => rfl) hl]
  split
  · rename_i w hw
    refine like_settleOne ?_ (L.inFlight hl w (List.mem_of_getElem? hw))
    exact like_plain (f := fun e => { e with inFlight := e.inFlight.eraseIdx i }) (fun _ => rfl)
      (fun _ _ h => List.mem_of_mem_eraseIdx h) hl
  · exact hl

/-! ## What a host does -/

/-- Whatever a host does goes alike. -/
theorem steady_act (fuel : Nat) {op : Operation} (hop : ¬ op.IsWorld) : Steady L (op.act fuel) := by
  have hc := L.parallel_calls fuel
  have starts {a : Action QueueRef} (ha : Steady L a) (starts : Bool) : Steady L (do
      let q ← a
      if starts then
        Host.start fuel q
      pure q) := by
    have start (q : QueueRef) : Steady L (Host.start fuel q) := steady_start hc fuel q
    grind
  have forget {β : Type} {a : Action β} (ha : Steady L a) : Steady L (a >>= fun _ => pure ()) :=
    twin_bind ha fun _ => steady_pure _
  have entries (source : String) : Steady L (Host.entriesOf source none) :=
    twin_bind (steady_compile L.acting source none) fun codes => steady_createAll L.acting codes
  cases op with
  | register record =>
    refine forget ⟨fun {e e'} hl => ⟨(L.scripts_size hl).symm, ?_⟩⟩
    have named := like_plain (f := fun x => { x with
      scriptNames := x.scriptNames.put (Text.lower record.name) e.scripts.size })
      (fun _ => rfl) (fun _ _ h => h) hl
    show L.like _ { e' with
      scripts := e'.scripts.push { record with base := none }
      scriptNames := e'.scriptNames.put (Text.lower record.name) e'.scripts.size }
    rw [L.scripts_size hl]
    exact L.push { record with base := none } named
  | addBase name base => exact steady_update (fun _ => rfl) fun _ _ h => h
  | addAttribute name => exact steady_update (fun _ => rfl) fun _ _ h => h
  | runScript name options s => exact forget (starts (steady_prepare name options) s)
  | runCommands source name options s =>
    exact forget (starts (steady_prepareSource source name options) s)
  | runProcedure name args => exact forget (steady_runProcedure hc fuel name args)
  | append q source => exact twin_bind (entries source) fun ns => steady_append L.acting q ns
  | inject q source => exact twin_bind (entries source) fun ns => steady_inject L.acting q ns
  | define q name v => exact steady_define L.acting q name v
  | start q => exact steady_start hc fuel q
  | runToCompletion q => exact steady_runToCompletion hc fuel q
  | pause q => exact steady_changeQueue q _
  | resume q => exact steady_changeQueue q _
  | stop q => exact steady_stop L.acting q
  | forceToTimed q delay =>
    refine forget (twin_bind (steady_see fun _ => rfl) fun d => ?_)
    refine twin_bind (steady_replaceByTimed q d) fun timed => ?_
    exact twin_bind (steady_start hc fuel timed) fun _ => steady_pure _
  | listen q label error => exact steady_onComplete q _
  | schedule label error again => exact steady_update (fun _ => rfl) fun _ _ h => h
  | settle i => exact steady_settleAt i
  | tick seconds => exact steady_tick fuel seconds
  | world files webPlans clock => exact absurd trivial hop

/-- A host gets the same answers from engines that are alike, and leaves them alike. -/
theorem like_runAll {ops : List (Nat × Operation)} (hops : ∀ op ∈ ops, ¬ op.2.IsWorld)
    {e e' : Engine} (hl : L.like e e') :
    (Operation.runAll ops e').1 = (Operation.runAll ops e).1 ∧
      L.like (Operation.runAll ops e).2 (Operation.runAll ops e').2 := by
  induction ops generalizing e e' with
  | nil => exact ⟨rfl, hl⟩
  | cons op rest ih =>
    obtain ⟨fuel, op⟩ := op
    obtain ⟨answer, hl₁⟩ := twin_run (steady_act fuel (hops (fuel, op) List.mem_cons_self)) hl
    obtain ⟨answers, hl₂⟩ := ih (fun op h => hops op (List.mem_cons_of_mem _ h)) hl₁
    rw [Operation.runAll_cons, Operation.runAll_cons]
    exact ⟨by rw [answer, answers], hl₂⟩

end Likeness

end QueueScript
