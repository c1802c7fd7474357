import QueueScript.Engine.Host
import QueueScript.Proofs.Discipline.Drive

/-!
# Operations of a host

A host builds an engine and then does one thing after another with it: it runs scripts, changes
queues, lets work settle, and lets the heart beat.  Work may settle in any order and at any time
between two other operations.  An engine is reachable when a sequence of operations leads to it, none
of which was cut off.
-/

namespace QueueScript

/-- The work at a place settles: it is done, and its outcome is handed over at the next beat. -/
def Background.settleAt (i : Nat) : Action Unit :=
  Action.change fun e =>
    match e.inFlight[i]? with
    | some w => settleOne { e with inFlight := e.inFlight.eraseIdx i } w
    | none => e

namespace Background

end Background

/-- What a host does with an engine, and what the world does to it. -/
inductive Operation where
  /-- Registers a script. -/
  | register (record : ScriptRecord)
  /-- Adds a tag base. -/
  | addBase (name : String) (base : HostBase)
  /-- Adds a tag attribute. -/
  | addAttribute (name : String)
  /-- Runs a script on a new queue, or only prepares it. -/
  | runScript (name : String) (options : Scripts.RunOptions) (starts : Bool)
  /-- Runs a source on a new queue, or only prepares it. -/
  | runCommands (source : String) (name : Option String) (options : Scripts.RunOptions)
    (starts : Bool)
  /-- Runs a procedure. -/
  | runProcedure (name : String) (args : List Value)
  /-- Puts entries of a source at the end of a queue. -/
  | append (q : QueueRef) (source : String)
  /-- Puts entries of a source at the head of a queue. -/
  | inject (q : QueueRef) (source : String)
  /-- Sets a definition. -/
  | define (q : QueueRef) (name : String) (v : Value)
  /-- Starts a queue. -/
  | start (q : QueueRef)
  /-- Runs an instant queue until it ends or is held. -/
  | runToCompletion (q : QueueRef)
  /-- Pauses a queue. -/
  | pause (q : QueueRef)
  /-- Lets a paused queue run again. -/
  | resume (q : QueueRef)
  /-- Stops a queue. -/
  | stop (q : QueueRef)
  /-- Replaces a queue by a timed one. -/
  | forceToTimed (q : QueueRef) (delay : Option Host.DelayOption)
  /-- Asks to be told when a queue ends; the answer may be an error. -/
  | listen (q : QueueRef) (label : String) (error : Option String)
  /-- Queues a task for the next beat. -/
  | schedule (label : String) (error : Option String) (again : Bool)
  /-- Lets the work at a place settle. -/
  | settle (i : Nat)
  /-- Lets the heart beat. -/
  | tick (seconds : Option Float)
  /-- The world moves on: files, answers of the web, the clock. -/
  | world (files : FileSystem) (webPlans : List WebPlan) (clock : Float)

namespace Operation

/-- What an operation does. -/
def act (fuel : Nat) : Operation → Action Unit
  | register record => do let _ ← Scripts.register { record with base := none }
  | addBase name base => Action.change (Host.addBase · name base)
  | addAttribute name => Action.change (Host.addAttribute · name)
  | runScript name options starts => do let _ ← Host.runScript fuel name options starts
  | runCommands source name options starts => do
    let _ ← Host.runCommands fuel source name options starts
  | runProcedure name args => do let _ ← Host.runProcedure fuel name args
  | append q source => Host.appendSource q source none
  | inject q source => Host.injectSource q source none
  | define q name v => Queues.define q name v
  | start q => Host.start fuel q
  | runToCompletion q => Host.runToCompletion fuel q
  | pause q => Queues.pause q
  | resume q => Queues.resume q
  | stop q => Queues.stop q
  | forceToTimed q delay => do let _ ← Host.forceToTimed fuel q delay
  | listen q label error => Queues.onComplete q (.notify label error)
  | schedule label error again => Heartbeat.schedule label error again
  | settle i => Background.settleAt i
  | tick seconds => Heartbeat.tick fuel seconds
  | world files webPlans clock => Action.change ({ · with files, webPlans, clock })

/-- The operation is about queues that there are, and runs to completion only what is instant. -/
def Valid (e : Engine) : Operation → Prop
  | append q _ | inject q _ | define q _ _ | start q | pause q | resume q | stop q
  | forceToTimed q _ | listen q _ _ => q < e.queues.size
  | runToCompletion q => q < e.queues.size ∧ (e.queue q).pace = .instant
  | _ => True

/-- The operation has nothing to do with handoffs: neither work, nor tasks, nor beats. -/
def IsPlain : Operation → Prop
  | schedule _ _ _ | settle _ | tick _ => False
  | _ => True

end Operation

/-- The engines that operations lead to from a first one. -/
inductive Reachable (e₀ : Engine) : Engine → Prop where
  | first : Reachable e₀ e₀
  | next {e : Engine} (fuel : Nat) (op : Operation) : Reachable e₀ e → op.Valid e →
      (op.act fuel e).1 ≠ .error .exhausted → Reachable e₀ (op.act fuel e).2

/-- The engines that operations lead to if each of them is one that `A` allows when it is made. -/
inductive Runs (A : Engine → Operation → Prop) (e₀ : Engine) : Engine → Prop where
  | first : Runs A e₀ e₀
  | next {e : Engine} (fuel : Nat) (op : Operation) : Runs A e₀ e → op.Valid e → A e op →
      (op.act fuel e).1 ≠ .error .exhausted → Runs A e₀ (op.act fuel e).2

/-- What a run leads to is reachable. -/
theorem Runs.reachable {A : Engine → Operation → Prop} {e₀ e₁ e : Engine} (h₀ : Reachable e₀ e₁)
    (h : Runs A e₁ e) : Reachable e₀ e := by
  induction h with
  | first => exact h₀
  | next fuel op _ hv _ hx ih => exact .next fuel op ih hv hx

/-- What is reachable is led to by a run. -/
theorem Reachable.runs {e₀ e : Engine} (h : Reachable e₀ e) : Runs (fun _ _ => True) e₀ e := by
  induction h with
  | first => exact .first
  | next fuel op _ hv hx ih => exact .next fuel op ih hv trivial hx

/-- More operations may be allowed. -/
theorem Runs.mono {A B : Engine → Operation → Prop} {e₀ e : Engine} (h : Runs A e₀ e)
    (hAB : ∀ e op, A e op → B e op) : Runs B e₀ e := by
  induction h with
  | first => exact .first
  | next fuel op _ hv ha hx ih => exact .next fuel op ih hv (hAB _ _ ha) hx

/-- A run goes on with an operation that succeeds. -/
theorem Runs.ok {A : Engine → Operation → Prop} {e₀ e : Engine} (h : Runs A e₀ e) (fuel : Nat)
    (op : Operation) (hv : op.Valid e) (ha : A e op) (hx : (op.act fuel e).1.toBool = true) :
    Runs A e₀ (op.act fuel e).2 := by
  refine .next fuel op h hv ha fun hx' => ?_
  rw [hx'] at hx
  cases hx

/-- An operation that succeeds was not cut off. -/
theorem Reachable.ok {e₀ e : Engine} (h : Reachable e₀ e) (fuel : Nat) (op : Operation)
    (hv : op.Valid e) (hx : (op.act fuel e).1.toBool = true) : Reachable e₀ (op.act fuel e).2 := by
  refine .next fuel op h hv fun hx' => ?_
  rw [hx'] at hx
  cases hx

/-- What has succeeded leads to an engine. -/
theorem Action.ok_of_toBool {r : Except Failure Unit × Engine} (h : r.1.toBool = true) : r = (.ok (), r.2) := by
  obtain ⟨_ | _, e⟩ := r
  · cases h
  · rfl

/-- What has succeeded has a result, if something is seen of that. -/
theorem Action.ok_of_toOption {α β : Type} {r : Except Failure α} {f : α → β} {b : β}
    (h : r.toOption.map f = some b) : ∃ a, r = .ok a ∧ f a = b := by
  cases r with
  | error f => cases h
  | ok a => exact ⟨a, rfl, Option.some.inj h⟩

namespace Discipline

/-- What is known when an operation has ended: the invariant, unless it was cut off. -/
structure Kept (D : Discipline) {α : Type} (r : Except Failure α × Engine) : Prop where
  inv : r.1 ≠ .error .exhausted → D.inv r.2
  cut : D.cut r.2

variable {D : Discipline} [D.Lenient] {e e₀ : Engine} {q : QueueRef} {α : Type}

/-- A step is kept. -/
theorem Step.kept {e' : Engine} {r : Except Failure α} (h : D.Step e e') : D.Kept (r, e') :=
  ⟨fun _ => h.1, Lenient.inv_cut h.1⟩

/-- What an action leaves is kept. -/
theorem Leaves.kept {Q : α → Engine → Prop} {r : Except Failure α × Engine} (h : D.Leaves e Q r) :
    D.Kept r := by
  obtain ⟨r, e'⟩ := r
  cases r with
  | ok a => exact h.1.kept
  | error f =>
    cases f with
    | exhausted => exact ⟨fun hr => absurd rfl hr, h⟩
    | _ => exact Step.kept h

omit [D.Lenient] in
/-- An action that is not cut off makes a step. -/
theorem Leaves.step {Q : α → Engine → Prop} {r : Except Failure α × Engine} (h : D.Leaves e Q r)
    (hr : r.1 ≠ .error .exhausted) : D.Step e r.2 := by
  obtain ⟨r, e'⟩ := r
  cases r with
  | ok a => exact h.1
  | error f =>
    cases f with
    | exhausted => exact absurd rfl hr
    | _ => exact h

/-- What an action gives is kept. -/
theorem Gives.kept {a : Action α} {Q : α → Engine → Prop} (h : D.Gives e a Q) (he : D.inv e) :
    D.Kept (a e) :=
  (h.run e he (D.refl e)).kept

/-- The sources of the operation may be compiled, and it puts entries at the head of no queue where they
may not stand. -/
def Admits (D : Discipline) (e : Engine) : Operation → Prop
  | .register record => D.reads record.source
  | .runCommands source _ _ _ | .append _ source => D.reads source
  | .inject q source => D.reads source ∧ D.yields e q
  | _ => True

omit [D.Lenient] in
/-- An open discipline admits every operation. -/
theorem admits_of_open [D.Open] (e : Engine) (op : Operation) : D.Admits e op := by
  cases op with
  | inject q source => exact ⟨Open.reads source, Open.yields e q⟩
  | register record => exact Open.reads _
  | runCommands source name options starts => exact Open.reads _
  | append q source => exact Open.reads _
  | _ => trivial

/-- What a host and the world do besides running entries and handing over work. -/
structure Hosting (D : Discipline) : Prop extends Outreach D where
  mine_iff {e : Engine} {q : QueueRef} : D.mine e q ↔ q < e.queues.size
  register {e : Engine} {record : ScriptRecord} : D.inv e → record.base = none →
    D.reads record.source → D.Step e { e with
      scripts := e.scripts.push record
      scriptNames := e.scriptNames.put (Text.lower record.name) e.scripts.size }
  world {e : Engine} (files : FileSystem) (webPlans : List WebPlan) (clock : Float)
    (bases : Keyed TagBase) (attributes : Keyed Attribute) (heartbeatTime : Float) (beats : Nat) :
    D.inv e →
      D.Step e { e with files, webPlans, clock, bases, attributes, heartbeatTime, beats }
  pause {e : Engine} (q : QueueRef) : D.inv e → D.Step e (e.changeQueue q fun queue =>
    if queue.state = .running then { queue with state := .paused } else queue)
  resume {e : Engine} (q : QueueRef) : D.inv e → D.Step e (e.changeQueue q fun queue =>
    if queue.state = .paused then { queue with state := .running } else queue)
  live {e : Engine} {p : String × QueueRef} : D.inv e → p ∈ e.registry → D.mine e p.2
  hear {e : Engine} (q : QueueRef) (label : String) (error : Option String) : D.inv e →
    D.Kept (Queues.onComplete q (.notify label error) e)
  inject {e : Engine} {q : QueueRef} {source : String} : D.inv e → D.mine e q → D.reads source →
    D.yields e q → D.Kept (Host.injectSource q source none e)

/-- What becomes of work and of tasks of the host. -/
structure Beating (D : Discipline) : Prop extends Hosting D where
  schedule {e : Engine} (label : String) (error : Option String) (again : Bool) : D.inv e →
    D.Step e { e with handoffs := e.handoffs ++ [.task label 0 error again] }
  settle {e : Engine} {w : Work} {i : Nat} : D.inv e → e.inFlight[i]? = some w →
    D.Step e (Background.settleOne { e with inFlight := e.inFlight.eraseIdx i } w)
  takeOver (e₀ : Engine) : D.Safe e₀ Heartbeat.takeOverAll

/-- The host puts entries at the head of a queue when the order of pending entries does not matter. -/
theorem kept_inject (hr : D.Turning) (hf : D.Blocks) {source : String} (he : D.inv e)
    (hq : D.mine e q) (hs : D.reads source) : D.Kept (Host.injectSource q source none e) := by
  have entries : D.Gives e (Host.entriesOf source none) fun ns e => ∀ n ∈ ns, D.own e n :=
    gives_bind (gives_compile hr hs none) fun _ _ _ _ hc => gives_createAll hf hc
  have put : D.Safe e (Host.injectSource q source none) :=
    gives_bind entries fun _ _ _ hl hns => safe_inject hf (D.mine_mono hl hq) hns
  exact put.kept he

/-! ## One beat -/

/-- Queues take their turns one after the other. -/
theorem safe_beats (hemit : ∀ {e} event s, D.inv e → D.Step e (e.emit event s)) (ht : D.Pacing)
    {fuel : Nat} (hr : D.RunsEntries (Drive.calls fuel)) {qs : List QueueRef} (hqs : ∀ q ∈ qs, D.mine e₀ q) :
    D.Safe e₀ (Action.each (Heartbeat.beatSafely fuel) qs) := by
  refine safe_each fun q hq => gives_orElse ⟨fun e he hl => ?_⟩ fun f => ?_
  · exact leaves_heartbeat ht hr he (D.mine_mono hl (hqs q hq)) fuel
  · exact safe_bind (safe_queueScope q) fun s => safe_change fun _ he _ => hemit _ _ he

/-- Every queue that is registered takes its turn. -/
theorem safe_beatAll (hemit : ∀ {e} event s, D.inv e → D.Step e (e.emit event s)) (ht : D.Pacing)
    {fuel : Nat} (hr : D.RunsEntries (Drive.calls fuel))
    (hlive : ∀ {e p}, D.inv e → D.le e₀ e → p ∈ e.registry → D.mine e p.2) :
    D.Safe e₀ (Heartbeat.beatAll fuel) := by
  refine look_bind fun e₁ he hl => safe_beats hemit ht hr fun q hq => ?_
  obtain ⟨p, hp, rfl⟩ := List.mem_map.1 hq
  exact hlive he hl hp

omit [D.Lenient] in
/-- An outcome is handed over. -/
theorem safe_handOver (hb : D.Bookkeeping) {n : EntryRef} (hn : D.own e₀ n)
    (hcut : ∀ e, D.cut e → D.cut (e.changeEntry n ({ · with isFinished := true })))
    (outcome : Outcome) : D.Safe e₀ (Background.handOver n outcome) := by
  refine safe_ensuring ?_ (fun e he hl => (hb.finish he (D.own_mono hl hn)).1) hcut
  refine safe_bind (safe_look _) fun stopped => ?_
  split
  · refine safe_bind (safe_entry n) fun _ => safe_bind (safe_queue _) fun _ => ?_
    exact safe_bind (safe_scope n) fun s => safe_trace hb _ s
  · exact safe_apply hn hb outcome

/-- What a discipline says of handoffs that are taken. -/
structure Taking (D : Discipline) : Prop extends Bookkeeping D where
  cut {e : Engine} (n : EntryRef) : D.cut e → D.cut (e.changeEntry n ({ · with isFinished := true }))
  settles {e : Engine} {n : EntryRef} {o : Outcome} :
    D.inv e → Handoff.settle n o ∈ e.handoffs → D.own e n
  clears {e : Engine} : D.inv e → D.Step e { e with handoffs := [] }
  fires {e : Engine} (label : String) (count : Nat) : D.inv e →
    D.Step e { e with fired := ⟨label, count, "handoff"⟩ :: e.fired }
  asks {e : Engine} (label : String) (count : Nat) : D.inv e →
    D.Step e { e with handoffs := e.handoffs ++ [.task label count none false] }

omit [D.Lenient] in
/-- All handoffs are taken over. -/
theorem safe_takeOverAll (ht : D.Taking) : D.Safe e₀ Heartbeat.takeOverAll := by
  refine look_bind fun e₁ he₁ _ => safe_bind (safe_change fun e he _ => ht.clears he) fun _ => ?_
  refine safe_each fun h hmem => gives_orElse ?_ fun f => safe_error ht.toBookkeeping _ _ _
  cases h with
  | settle n o => exact safe_handOver ht.toBookkeeping (ht.settles he₁ hmem) (fun _ => ht.cut n) o
  | task label count error again =>
    refine safe_bind (safe_change fun e he _ => ht.fires label count he) fun _ => ?_
    cases error with
    | some message => exact gives_fail nofun
    | none => exact safe_ite (safe_change fun e he _ => ht.asks label (count + 1) he) (safe_pure _)

/-! ## Every operation keeps a discipline of hosts -/

section Operations

variable (hd : D.Hosting) (hr : ∀ fuel, D.RunsEntries (Drive.calls fuel))

include hd hr

/-- The host starts a queue. -/
theorem safe_hostStart (hq : D.mine e₀ q) (fuel : Nat) : D.Safe e₀ (Host.start fuel q) :=
  safe_start hd.toRunning (hr fuel) hq fuel

/-- A queue that was just prepared is started, or not. -/
theorem safe_startPrepared {a : Action QueueRef} (fuel : Nat) (starts : Bool)
    (ha : D.Gives e₀ a fun q e => D.mine e q ∧ D.fresh e q) :
    D.Safe e₀ (do
      let q ← a
      if starts then
        Host.start fuel q
      pure q) := by
  refine gives_bind ha fun q e₁ _ _ hq => ?_
  dsimp only
  split
  · exact safe_bind (safe_hostStart hd hr hq.1 fuel) fun _ => safe_pure _
  · exact safe_pure _

/-- A plain operation keeps the discipline, listening and injecting left aside. -/
theorem safe_plain (fuel : Nat) {op : Operation} (hop : op.IsPlain) (hv : op.Valid e)
    (ha : D.Admits e op) (hl : ∀ q label error, op ≠ .listen q label error)
    (hi : ∀ q source, op ≠ .inject q source) : D.Safe e (op.act fuel) := by
  have hb := hd.toBookkeeping
  have forget {β : Type} {a : Action β} (ha : D.Safe e a) :
      D.Safe e (a >>= fun _ => pure ()) :=
    safe_bind ha fun _ => safe_pure _
  cases op with
  | register record => exact forget ⟨fun e he _ => ⟨hd.register he rfl ha, trivial⟩⟩
  | addBase name base =>
    refine safe_change fun e he _ => ?_
    exact hd.world e.files e.webPlans e.clock _ e.attributes e.heartbeatTime e.beats he
  | addAttribute name =>
    refine safe_change fun e he _ => ?_
    exact hd.world e.files e.webPlans e.clock e.bases _ e.heartbeatTime e.beats he
  | runScript name options starts =>
    exact forget (safe_startPrepared hd hr fuel starts (gives_prepare hd.toPreparing name options))
  | runCommands source name options starts =>
    refine forget (safe_startPrepared hd hr fuel starts ?_)
    exact gives_prepareSource hd.toPreparing ha name options
  | runProcedure name args => exact forget (safe_runProcedure hd.toTurns (hr fuel) fuel name args)
  | append q source =>
    have put := safe_loadSource hd.toTurning ha (hd.mine_iff.2 hv)
    rw [← bind_assoc] at put
    exact put
  | inject q source => exact absurd rfl (hi q source)
  | define q name v => exact safe_define hb (hd.mine_iff.2 hv) name v
  | start q => exact safe_hostStart hd hr (hd.mine_iff.2 hv) fuel
  | runToCompletion q =>
    exact safe_runToCompletion hd.toRunning (hr fuel) (hd.mine_iff.2 hv.1) hv.1 hv.2 fuel
  | pause q => exact safe_change fun _ he _ => hd.pause q he
  | resume q => exact safe_change fun _ he _ => hd.resume q he
  | stop q => exact hd.stop (hd.mine_iff.2 hv)
  | forceToTimed q delay =>
    refine forget (safe_bind (safe_look _) fun d => ?_)
    refine gives_bind (hd.replace d (hd.mine_iff.2 hv)) fun timed e₁ _ _ ht => ?_
    exact safe_bind (safe_hostStart hd hr ht fuel) fun _ => safe_pure _
  | listen q label error => exact absurd rfl (hl q label error)
  | schedule label error again => exact hop.elim
  | settle i => exact hop.elim
  | tick seconds => exact hop.elim
  | world files webPlans clock =>
    refine safe_change fun e he _ => ?_
    exact hd.world files webPlans clock e.bases e.attributes e.heartbeatTime e.beats he

/-- A plain operation that is admitted keeps the discipline. -/
theorem kept_plainAdmitted (fuel : Nat) {op : Operation} (hop : op.IsPlain) (he : D.inv e)
    (hv : op.Valid e) (ha : D.Admits e op) : D.Kept (op.act fuel e) := by
  by_cases hl : ∃ q label error, op = .listen q label error
  · obtain ⟨q, label, error, rfl⟩ := hl
    exact hd.hear q label error he
  · by_cases hi : ∃ q source, op = .inject q source
    · obtain ⟨q, source, rfl⟩ := hi
      exact hd.inject he (hd.mine_iff.2 hv) ha.1 ha.2
    · exact (safe_plain hd hr fuel hop hv ha (fun q l x h => hl ⟨q, l, x, h⟩)
        fun q s h => hi ⟨q, s, h⟩).kept he

/-- A plain operation keeps an open discipline. -/
theorem kept_plain [D.Open] (fuel : Nat) {op : Operation} (hop : op.IsPlain) (he : D.inv e)
    (hv : op.Valid e) : D.Kept (op.act fuel e) :=
  kept_plainAdmitted hd hr fuel hop he hv (admits_of_open e op)

end Operations

section Beats

variable (hd : D.Beating) (hr : ∀ fuel, D.RunsEntries (Drive.calls fuel))

include hd hr

/-- A beat keeps the discipline. -/
theorem safe_tick (fuel : Nat) (seconds : Option Float) :
    D.Safe e₀ (Heartbeat.tick fuel seconds) := by
  refine safe_bind (safe_look _) fun s => safe_bind (safe_change fun e he _ => ?_) fun _ => ?_
  · exact hd.world e.files e.webPlans e.clock e.bases e.attributes _ _ he
  · exact safe_bind (hd.takeOver e₀) fun _ =>
      safe_beatAll hd.emit hd.toPacing (hr fuel) fun he _ hp => hd.live he hp

/-- An operation that is admitted keeps the invariant, unless it is cut off. -/
theorem kept_admitted (fuel : Nat) (op : Operation) (he : D.inv e) (hv : op.Valid e)
    (ha : D.Admits e op) : D.Kept (op.act fuel e) := by
  by_cases hop : op.IsPlain
  · exact kept_plainAdmitted hd.toHosting hr fuel hop he hv ha
  · cases op with
    | schedule label error again => exact (hd.schedule label error again he).kept
    | settle i =>
      have safe : D.Safe e (Background.settleAt i) := by
        refine safe_change fun e he _ => ?_
        split
        · exact hd.settle he ‹_›
        · exact Step.refl he
      exact safe.kept he
    | tick seconds => exact (safe_tick hd hr fuel seconds).kept he
    | _ => exact absurd trivial hop

/-- The invariant holds of every engine that admitted operations lead to. -/
theorem inv_admitted (h₀ : D.inv e₀) (h : Runs D.Admits e₀ e) : D.inv e := by
  induction h with
  | first => exact h₀
  | next fuel op _ hv ha hx ih => exact (kept_admitted hd hr fuel op ih hv ha).inv hx

/-- An operation keeps the invariant, unless it is cut off. -/
theorem kept_act [D.Open] (fuel : Nat) (op : Operation) (he : D.inv e) (hv : op.Valid e) :
    D.Kept (op.act fuel e) :=
  kept_admitted hd hr fuel op he hv (admits_of_open e op)

/-- The invariant holds of every engine that operations lead to. -/
theorem inv_reachable [D.Open] (h₀ : D.inv e₀) (h : Reachable e₀ e) : D.inv e :=
  inv_admitted hd hr h₀ (h.runs.mono fun e op _ => admits_of_open e op)

end Beats

end Discipline

end QueueScript
