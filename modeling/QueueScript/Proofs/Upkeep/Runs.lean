import QueueScript.Proofs.Upkeep.Commands

/-!
# Properties that are kept up along runs

A host does more than commands do: it pauses queues and lets them run again, asks to be told of their
ends, starts queues under ids of its choice and replaces any queue.  A property that survives this too,
as far as a host is allowed to do it (`Upkeep.Hosting`), holds in every engine of a run.

A host comes in only when nothing is under way, and operations end with nothing under way.  So a host
may start any queue.
-/

namespace QueueScript

/-- The host replaces a queue as commands do. -/
theorem Operation.forceToTimed_act (fuel : Nat) (q : QueueRef) (delay : Option Host.DelayOption)
    (e : Engine) :
    (Operation.forceToTimed q delay).act fuel e = (do
      let t ← Queues.replaceByTimed q (delay.map fun d => Queues.delayOf e d.millis d.onClock)
      Drive.start (Drive.calls fuel) fuel t : Action Unit) e := by
  unfold Operation.act Host.forceToTimed
  simp only [bind_assoc, pure_bind, bind_pure_unit]
  rfl

/-- A host starts queues under free ids, if `S` says so, puts entries only on queues that were not
replaced, if `T` says so, and replaces those that `C` admits. -/
def Upkeep.Allows (S T : Prop) (C : Engine → QueueRef → Prop) (e : Engine) : Operation → Prop
  | .start q | .runToCompletion q =>
    S → (e.queue q).state = .idle → e.registered? (e.queue q).id = none
  | .runScript _ options starts | .runCommands _ _ options starts =>
    S → starts = true → e.Vacant options.id
  | .append q _ | .inject q _ => T → (e.queue q).replacedBy = none
  | .forceToTimed q _ => C e q
  | _ => True

/-- What has to be shown of a property for the operations that `A` allows to keep it. -/
structure Upkeep.Hosting (A : Engine → Operation → Prop) (S T : Prop) (C : Engine → QueueRef → Prop)
    (J : Engine → Prop) : Prop extends Upkeep S T C J where
  allows {e : Engine} {op : Operation} : A e op → Upkeep.Allows S T C e op
  pause {e : Engine} {q : QueueRef} : e.Orderly → J e → q < e.queues.size → A e (.pause q) →
    (e.queue q).state = .running → J (e.changeQueue q ({ · with state := .paused }))
  resume {e : Engine} {q : QueueRef} : e.Orderly → J e → q < e.queues.size → A e (.resume q) →
    (e.queue q).state = .paused → J (e.changeQueue q ({ · with state := .running }))
  hear {e : Engine} {q : QueueRef} {label : String} {error : Option String} : e.Orderly → J e →
    q < e.queues.size → A e (.listen q label error) → (e.queue q).state.isEnd = false →
      J (e.changeQueue q fun x => { x with listeners := x.listeners ++ [.notify label error] })
  late {e : Engine} {q : QueueRef} {label : String} {error : Option String} : e.Orderly → J e →
    q < e.queues.size → A e (.listen q label error) → (e.queue q).state.isEnd = true →
      J { e with fired := ⟨label, q + 1, (e.queue q).state.name⟩ :: e.fired }
  task {e : Engine} (label : String) (count : Nat) : J e →
    J { e with fired := ⟨label, count, "handoff"⟩ :: e.fired }

namespace Discipline.Upheld

variable {A : Engine → Operation → Prop} {S T : Prop} {C : Engine → QueueRef → Prop} {J : Engine → Prop}
  {e₀ e : Engine} {q : QueueRef} (hA : Upkeep.Hosting A S T C J)

include hA

/-! ## One beat -/

omit hA in
/-- A call of the host is noted. -/
theorem fire (he : (upheld J).inv e) {firing : Firing} (hj : J { e with fired := firing :: e.fired }) :
    (upheld J).Step e { e with fired := firing :: e.fired } := by
  have healthy : healthy.Step e { e with fired := firing :: e.fired } := by
    refine Healthy.step he.1.healthy ?_ (Engine.keeps_of_tables rfl rfl)
    exact Tidy.aside ⟨he.1.healthy.tidy, trivial⟩ ⟨rfl, rfl, fun _ h => .inl h, rfl, rfl, rfl, fun _ => rfl⟩
  have orderly : Engine.Orderly { e with fired := firing :: e.fired } :=
    he.1.fewer healthy.1 rfl (Nat.le_refl _) (fun _ _ h => h) (fun _ => rfl) fun _ => .inl
  exact ⟨⟨orderly, hj⟩, healthy.2, fun _ h => h.same fun _ => rfl, rfl⟩

/-- What is quiet lets lines grow. -/
theorem still {e' : Engine} (he : (upheld J).inv e) (hh : healthy.Step e e') (hq : e.Quiet e') :
    (upheld J).Step e e' :=
  step (Steady.quiet hA.toUpkeep he hh hq)

/-- What is handed over changes. -/
theorem handoffs (he : (upheld J).inv e) {handoffs : List Handoff}
    (hh : ∀ n o, Handoff.settle n o ∈ handoffs → e.Live n) :
    (upheld J).Step e { e with handoffs } := by
  refine still hA he (Healthy.step he.1.healthy ?_ (Engine.keeps_of_tables rfl rfl))
    (.of_tables rfl rfl rfl rfl rfl)
  exact Tidy.setHandoffs (R := fun _ => True) ⟨he.1.healthy.tidy, trivial⟩ hh

theorem asked (he : (upheld J).inv e) (label : String) (count : Nat) (error : Option String)
    (again : Bool) :
    (upheld J).Step e { e with handoffs := e.handoffs ++ [.task label count error again] } := by
  refine handoffs hA he fun n o h => ?_
  rcases List.mem_append.1 h with h | h
  · exact he.1.healthy.tidy.handoffs h
  · cases List.mem_singleton.1 h

theorem taking : (upheld J).Taking where
  toBookkeeping := bookkeeping hA.toUpkeep
  cut _ _ := trivial
  settles he h := he.1.healthy.tidy.handoffs h
  clears he := handoffs hA he nofun
  fires label count he := fire he (hA.task label count he.2)
  asks label count he := asked hA he label count none false

/-- Queues that take their turns are free, since nothing is under way. -/
theorem safe_tick (hu : e₀.underway = []) (fuel : Nat) (seconds : Option Float) :
    (upheld J).Safe e₀ (Heartbeat.tick fuel seconds) := by
  refine safe_bind (safe_look _) fun s => safe_bind (safe_change fun e he _ => ?_) fun _ => ?_
  · exact still hA he
      (Healthy.hosting.world e.files e.webPlans e.clock e.bases e.attributes _ _ he.1.healthy)
      (.of_tables rfl rfl rfl rfl rfl)
  · refine safe_bind (safe_takeOverAll (taking hA)) fun _ => ?_
    have emit {e : Engine} (event : Event) (s : Scope) (he : (driven J).inv e) :
        (driven J).Step e (e.emit event s) := (bookkeeping hA.toUpkeep).emit event s he
    have beat : (driven J).Safe e₀ (Heartbeat.beatAll fuel) :=
      safe_beatAll emit (pacing hA.toUpkeep) (calls_runsEntries hA.toUpkeep fuel) fun he hl hp =>
        Engine.Free.of_idle (he.1.healthy.tidy.registry hp) (hl.2.underway.trans hu)
    exact ⟨beat.run⟩

/-! ## What a host does to a queue -/

omit hA in
/-- The state of a queue is changed if it is a given one. -/
theorem step_state {s s' : QueueState} (he : (upheld J).inv e)
    (hh : healthy.Step e (e.changeQueue q fun x => if x.state = s then { x with state := s' } else x))
    (hj : (e.queue q).state = s → J (e.changeQueue q ({ · with state := s' }))) :
    (upheld J).Step e (e.changeQueue q fun x => if x.state = s then { x with state := s' } else x) := by
  let f : Queue → Queue := fun x => if x.state = s then { x with state := s' } else x
  have keep {α : Type} (g : Queue → α) (hg : ∀ x : Queue, g { x with state := s' } = g x)
      (p : QueueRef) : g ((e.changeQueue q f).queue p) = g (e.queue p) :=
    e.queue_changeQueue_keep (fun x => by dsimp only [f]; split; exacts [hg x, rfl]) q p
  have kept : J (e.changeQueue q f) := by
    by_cases hs : (e.queue q).state = s
    · have changed : e.changeQueue q f = e.changeQueue q ({ · with state := s' }) :=
        e.changeQueue_congr (if_pos hs)
      rw [changed]
      exact hj hs
    · have unchanged : e.changeQueue q f = e :=
        (e.changeQueue_congr (if_neg hs)).trans (e.changeQueue_id q)
      rw [unchanged]
      exact he.2
  refine ⟨⟨he.1.changeQueue hh.1 (keep Queue.pending fun _ => rfl), kept⟩, hh.2, ?_⟩
  have lines : e.SameLines (e.changeQueue q f) := .of_same rfl (keep Queue.replacedBy fun _ => rfl)
  exact lines.toOnward

theorem step_listen (he : (upheld J).inv e) (hq : q < e.queues.size) {label : String}
    {error : Option String} (ha : A e (.listen q label error)) :
    (upheld J).Step e (Queues.onComplete q (.notify label error) e).2 := by
  have listened : (Queues.onComplete q (.notify label error) e).2 = if (e.queue q).state.isEnd then
      { e with fired := ⟨label, q + 1, (e.queue q).state.name⟩ :: e.fired } else
      e.changeQueue q fun x => { x with listeners := x.listeners ++ [.notify label error] } := by
    show ((if (e.queue q).state.isEnd then Queues.tell q (.notify label error) else _ :
      Action Unit) e).2 = _
    split
    · cases error <;> rfl
    · rfl
  rw [listened]
  split
  · exact fire he (hA.late he.1 he.2 hq ha ‹_›)
  · rename_i hend
    let f : Queue → Queue := fun x => { x with listeners := x.listeners ++ [.notify label error] }
    have healthy : healthy.Step e (e.changeQueue q f) := by
      refine Healthy.step he.1.healthy ?_ (e.keeps_changeQueue q f)
      exact (Tidy.closing (P := fun _ _ => True)).hear q ⟨he.1.healthy.tidy, trivial⟩
        fun _ h => by cases h
    refine ⟨⟨he.1.changeQueue healthy.1 (e.queue_changeQueue_keep (g := Queue.pending) (f := f)
      (fun _ => rfl) q), hA.hear he.1 he.2 hq ha (by simpa using hend)⟩, healthy.2, ?_⟩
    have lines : e.SameLines (e.changeQueue q f) :=
      .of_same rfl (e.queue_changeQueue_keep (g := Queue.replacedBy) (f := f) (fun _ => rfl) q)
    exact lines.toOnward

/-- Entries of a source are put on a queue. -/
theorem leaves_feedSource {feed : List EntryRef → Action Unit}
    {f : List EntryRef → List EntryRef → List EntryRef} (hfeed : Queues.Feeds q feed f)
    (he : (upheld J).inv e) (hq : q < e.queues.size) (hlast : T → (e.queue q).replacedBy = none)
    (source : String) :
    (upheld J).Leaves e (fun _ _ => True) ((do feed (← Host.entriesOf source none) : Action Unit) e) := by
  have hJ := hA.toUpkeep
  have compiled : (steady J).Gives e (Scripts.compile source none) fun codes _ => ∀ c ∈ codes, c.Sound :=
    gives_compile (Steady.preparing hJ).toTurning trivial none
  have fed : (steady J).Leaves e (fun _ _ => True) ((Scripts.compile source none >>= fun codes => do
      feed (← Entries.createAll codes) : Action Unit) e) :=
    leaves_bind (compiled.run e he ((steady J).refl e)) fun codes x hx hl hc =>
      Steady.leaves_feed hJ hfeed hx (Nat.lt_of_lt_of_le hq hl.1.1.queues)
        (fun t => (hl.2.replacedBy hq).trans (hlast t)) hc
  unfold Host.entriesOf
  rw [bind_assoc]
  exact leaves fed

/-! ## Every operation -/

/-- A queue that was just prepared is started, or not. -/
theorem leaves_prepared {a : Action QueueRef} (fuel : Nat) (starts : Bool) (he : (upheld J).inv e)
    (ha : (steady J).Gives e a fun q x => (steady J).mine x q ∧ (steady J).fresh x q)
    (hs : ∀ q x, a e = (.ok q, x) → S → starts = true → x.Startable q) :
    (upheld J).Leaves e (fun _ _ => True) ((do
      let q ← a
      if starts then
        Host.start fuel q
      pure q : Action QueueRef) e) := by
  refine leaves_bind ((leaves (ha.run e he ((steady J).refl e))).and hs) fun q x hx _ hq => ?_
  cases starts with
  | false => exact ⟨Step.refl hx, trivial⟩
  | true =>
    have started := leaves_start hA.toUpkeep (calls_runsEntries hA.toUpkeep fuel) hx hq.1.2
      (fun s _ => (hq.2 s rfl).free) fuel
    exact leaves_bind started fun _ y hy _ _ => ⟨Step.refl hy, trivial⟩

/-- An operation that is allowed keeps a property up, unless it is cut off. -/
theorem step_act (fuel : Nat) (op : Operation) (he : (upheld J).inv e) (hu : e.underway = [])
    (hv : op.Valid e) (ha : A e op) (hx : (op.act fuel e).1 ≠ .error .exhausted) :
    (upheld J).Step e (op.act fuel e).2 := by
  have hJ := hA.toUpkeep
  have runs := calls_runsEntries hJ fuel
  have allowed := hA.allows ha
  have free {q : QueueRef} (hq : q < e.queues.size) : e.Free q := .of_idle hq hu
  have forget {β : Type} {a : Action β} (h : (upheld J).Leaves e (fun _ _ => True) (a e))
      (hx : ((a >>= fun _ => pure () : Action Unit) e).1 ≠ .error .exhausted) :
      (upheld J).Step e ((a >>= fun _ => pure () : Action Unit) e).2 := by
    have left : (upheld J).Leaves e (fun _ _ => True) ((a >>= fun _ => pure () : Action Unit) e) :=
      leaves_bind h fun _ _ hx _ _ => ⟨Step.refl hx, trivial⟩
    exact left.step hx
  have run {β : Type} {a : Action β} (h : (upheld J).Safe e a) : (upheld J).Leaves e (fun _ _ => True) (a e) :=
    h.run e he ((upheld J).refl e)
  cases op with
  | register record =>
    have registered : healthy.Step e { e with
        scripts := e.scripts.push { record with base := none }
        scriptNames := e.scriptNames.put (Text.lower record.name) e.scripts.size } :=
      Healthy.hosting.register he.1.healthy rfl trivial
    exact still hA he registered (.of_tables rfl rfl rfl rfl rfl)
  | addBase name base =>
    have quiet : e.Quiet (Host.addBase e name base) := .of_tables rfl rfl rfl rfl rfl
    refine still hA he ?_ quiet
    exact Healthy.hosting.world e.files e.webPlans e.clock _ e.attributes e.heartbeatTime e.beats
      he.1.healthy
  | addAttribute name =>
    have quiet : e.Quiet (Host.addAttribute e name) := .of_tables rfl rfl rfl rfl rfl
    refine still hA he ?_ quiet
    exact Healthy.hosting.world e.files e.webPlans e.clock e.bases _ e.heartbeatTime e.beats
      he.1.healthy
  | runScript name options starts =>
    refine forget (leaves_prepared hA fuel starts he (gives_prepare (Steady.preparing hJ) name options) ?_) hx
    exact fun q x h s hstarts => (Scripts.prepare_startable (allowed s hstarts) h).2
  | runCommands source name options starts =>
    refine forget (leaves_prepared hA fuel starts he
      (gives_prepareSource (Steady.preparing hJ) trivial name options) ?_) hx
    exact fun q x h s hstarts => (Scripts.prepareSource_startable (allowed s hstarts) h).2
  | runProcedure name args => exact forget (leaves_runProcedure hJ runs fuel name args he) hx
  | append q source => exact (leaves_feedSource hA (.append q) he hv allowed source).step hx
  | inject q source => exact (leaves_feedSource hA (.inject q) he hv allowed source).step hx
  | define q name v =>
    exact (run (safe_define (bookkeeping hJ) hv name v)).step hx
  | start q => exact (leaves_start hJ runs he (free hv) allowed fuel).step hx
  | runToCompletion q => exact (leaves_runToCompletion hJ runs he (free hv.1) hv.2 allowed fuel).step hx
  | pause q =>
    exact step_state he (Healthy.hosting.pause q he.1.healthy) (hA.pause he.1 he.2 hv ha)
  | resume q =>
    exact step_state he (Healthy.hosting.resume q he.1.healthy) (hA.resume he.1 he.2 hv ha)
  | stop q => exact (run (safe_stop hJ hv)).step hx
  | forceToTimed q delay =>
    rw [Operation.forceToTimed_act] at hx ⊢
    refine (leaves_replace hJ runs he hv allowed (fun x h => ?_) _ fuel).step hx
    rw [hu] at h
    cases h
  | listen q label error => exact step_listen hA he hv ha
  | schedule label error again => exact asked hA he label 0 error again
  | settle i =>
    cases hw : e.inFlight[i]? with
    | none =>
      have same : (Operation.settle i).act fuel e = (.ok (), e) := by
        simp only [Operation.act, Background.settleAt, Action.change, hw]
      rw [same]
      exact Step.refl he
    | some w =>
      have same : (Operation.settle i).act fuel e =
          (.ok (), Background.settleOne { e with inFlight := e.inFlight.eraseIdx i } w) := by
        simp only [Operation.act, Background.settleAt, Action.change, hw]
      rw [same]
      refine still hA he (Healthy.beating.settle he.1.healthy hw) ?_
      obtain ⟨files, clock, webPlans, webCalls, h⟩ :=
        Background.perform_eq { e with inFlight := e.inFlight.eraseIdx i } w.job
      unfold Background.settleOne
      dsimp only
      rw [h]
      exact .of_tables rfl rfl rfl rfl rfl
  | tick seconds => exact (run (safe_tick hA hu fuel seconds)).step hx
  | world files webPlans clock =>
    have quiet : e.Quiet { e with files, webPlans, clock } := .of_tables rfl rfl rfl rfl rfl
    refine still hA he ?_ quiet
    exact Healthy.hosting.world files webPlans clock e.bases e.attributes e.heartbeatTime e.beats
      he.1.healthy

/-- A property that is kept up holds in every engine of a run. -/
theorem step_runs (h₀ : (upheld J).inv e₀) (hu : e₀.underway = []) (h : Runs A e₀ e) :
    (upheld J).Step e₀ e := by
  induction h with
  | first => exact Step.refl h₀
  | next fuel op _ hv ha hx ih =>
    exact ih.trans (step_act hA fuel op ih.1 (ih.2.2.underway.trans hu) hv ha hx)

end Discipline.Upheld

/-! ## New engines -/

theorem Engine.IsNew.orderly {e : Engine} (h : e.IsNew) (hc : e.catalogue.Sound) : e.Orderly where
  healthy :=
    { tidy := h.tidy
      code := fun {n} hn => by
        rw [h.entries] at hn
        cases hn
      catalogue := hc }
  settled {q n} hn := by
    rw [h.queue_eq] at hn
    cases hn
  traced hx := by
    rw [h.journal] at hx
    cases hx

theorem Host.create_orderly (config : Config) : (Host.create config []).Orderly :=
  (Host.create_isNew config []).orderly (Host.create_catalogue_sound config)

/-- Nothing has to be shown of a property that says nothing. -/
theorem Upkeep.nothing : Upkeep.Hosting (fun _ _ => True) False False (fun _ _ => True) fun _ => True where
  quiet _ _ _ _ := trivial
  fill _ _ _ _ _ := trivial
  drop _ _ _ _ _ := trivial
  make _ _ _ := trivial
  launch _ _ _ _ _ := trivial
  close _ _ _ _ _ _ _ := trivial
  convert _ _ _ _ _ _ := trivial
  begins _ _ _ _ _ := trivial
  back _ _ _ _ := trivial
  listen _ _ _ := trivial
  active _ _ _ _ := trivial
  registered _ _ _ _ := trivial
  allows {_ op} _ := by
    cases op with
    | start | runToCompletion | runScript | runCommands => exact False.elim
    | append | inject => exact False.elim
    | _ => trivial
  pause _ _ _ _ _ := trivial
  resume _ _ _ _ _ := trivial
  hear _ _ _ _ _ := trivial
  late _ _ _ _ _ := trivial
  task _ _ _ := trivial

theorem Engine.IsNew.underway {e : Engine} (h : e.IsNew) : e.underway = [] := by
  unfold Engine.underway
  rw [h.journal]
  rfl

/-- Between operations an engine is orderly, and nothing is under way. -/
theorem Reachable.orderly {config : Config} {e : Engine} (h : Reachable (Host.create config []) e) :
    e.Orderly ∧ e.underway = [] := by
  have new := (Host.create_isNew config []).underway
  have step := Discipline.Upheld.step_runs Upkeep.nothing ⟨Host.create_orderly config, trivial⟩ new h.runs
  exact ⟨step.1.1, step.2.2.underway.trans new⟩

end QueueScript
