import QueueScript.Proofs.Wakeful.Laws

/-!
# No wake-up is lost

A queue that is held by the entry it ran last is always woken again: as long as the entry is waited
for, work for it is under way, or its handoff is queued, or a queue that has not ended has a listener
for it.  This holds of every engine that a host can reach with the built-in commands, however queues
were stopped, replaced and started in the meantime and whichever listeners failed.
-/

namespace QueueScript

/-! ## Running an entry -/

/-- When every failure is handled, only a run that was cut off fails. -/
theorem Action.orElse_ends {α : Type} {a : Action α} {handle : Failure → Action α}
    (h : ∀ f e, ∃ x, (handle f e).1 = .ok x) (e : Engine) :
    (∃ x, (orElse a handle e).1 = .ok x) ∨ (orElse a handle e).1 = .error .exhausted := by
  unfold orElse
  rcases a e with ⟨f | x, e'⟩
  · cases f with
    | exhausted => exact .inr rfl
    | _ => exact .inl (h _ e')
  · exact .inl ⟨x, rfl⟩

/-- An entry that is run is either back or cut off. -/
theorem Executor.execute_ends (calls : Calls) (n : EntryRef) (e : Engine) :
    (∃ ran, (execute calls n e).1 = .ok ran) ∨ (execute calls n e).1 = .error .exhausted := by
  let x := (Entries.refresh n e).2
  let y := x.emit (.executing (x.entry n).code.render (x.scope n)) (x.scope n)
  show (∃ ran, ((if isRefused y n then _ else _ : Action Bool) y).1 = .ok ran) ∨
    ((if isRefused y n then _ else _ : Action Bool) y).1 = .error .exhausted
  split
  · exact .inl ⟨false, rfl⟩
  · exact Action.orElse_ends (fun _ _ => ⟨false, rfl⟩) y

namespace Discipline.Wakeful

variable {X : List EntryRef} {e₀ e : Engine} {q : QueueRef} {n : EntryRef} {calls : Calls}

/-- What is known of an entry that was run or skipped: it is eased, and done if it has no command. -/
def Served (X : List EntryRef) (n : EntryRef) (e : Engine) : Prop :=
  (wakeful X).cared e n ∧
    ((e.entry n).code.handler.isStub = true → (wakeful X).marked e n)

theorem served_mono {e' : Engine} (h : (wakeful X).le e e') (hs : Served X n e) : Served X n e' := by
  refine ⟨(wakeful X).cared_mono h hs.1, fun hstub => (wakeful X).marked_mono h (hs.2 ?_)⟩
  rwa [← h.2.code hs.1.1]

/-- The steps of an entry without a command always fail, since the arguments are refused. -/
theorem gives_stub (hp : (wakeful X).ProcedureSafe calls) (hn : (wakeful X).own e₀ n)
    (hstub : (e₀.entry n).code.handler.isStub = true) (saveAs : Option String) :
    (wakeful X).Gives e₀ (Executor.perform calls n saveAs) fun _ _ => False := by
  refine safe_bind (safe_resolveArguments bookkeeping.toNoting hp hn) fun _ => ?_
  have refused : (wakeful X).Gives e₀ (Commands.parse calls n) fun _ _ => False := by
    refine look_bind fun e _ hl => ?_
    have hb : (e.entry n).code.handler.behaviour = .stub := by
      rw [hl.2.code hn.1]
      unfold Handler.isStub at hstub
      split at hstub
      · assumption
      · cases hstub
    dsimp only
    rw [hb]
    exact gives_refuse _
  exact gives_bind refused fun _ _ _ _ h => h.elim

/-- Running an entry serves it, and marks it if it is refused or fails. -/
theorem gives_served (hp : (wakeful X).ProcedureSafe calls) (hs : (wakeful X).StartSafe calls)
    (hn : (wakeful X).own e₀ n) :
    (wakeful X).Gives e₀ (Executor.execute calls n)
      fun ran e => Served X n e ∧ (ran = false → (wakeful X).marked e n) := by
  refine gives_executeWith bookkeeping hp hn served_mono
    (fun _ h => ⟨(wakeful X).marked_cared h, fun _ => h⟩) fun e₁ saveAs _ hl _ => ?_
  have hn₁ := (wakeful X).own_mono hl hn
  by_cases hstub : (e₁.entry n).code.handler.isStub = true
  · exact (gives_stub hp hn₁ hstub saveAs).mono fun _ _ _ _ h => h.elim
  · have performed := gives_perform bookkeeping hp hn₁ saveAs
      (gives_commandsExecute outreach blocks.emptying hp hs hn₁ fun _ _ hl₂ =>
        runsBlocks outreach.toReaching blocks.weaving blocks.emptying hp ((wakeful X).own_mono hl₂ hn₁))
    refine performed.mono fun _ e₂ _ hl₂ hc => ⟨hc, fun h => absurd ?_ hstub⟩
    rwa [hl₂.2.code hn₁.1] at h

/-! ## A queue runs an entry -/

/-- Notes in the history and another last entry move nothing else. -/
theorem steady_begin (e : Engine) (q : QueueRef) (n : EntryRef) (step : QueueScript.Step) :
    e.Steady (Engine.changeQueue { e with journal := step :: e.journal } q
      ({ · with last := some n })) := by
  refine (e.steady_note step).trans ⟨Engine.keeps_changeQueue _ _ _, fun p => ?_, fun p hp => ?_, fun _ h => h,
    fun _ h => h⟩
  · exact Engine.queue_changeQueue_keep _ (f := ({ · with last := some n })) (g := Queue.listeners)
      (fun _ => rfl) q p
  · exact (congrArg QueueState.isEnd (Engine.queue_changeQueue_keep _
      (f := ({ · with last := some n })) (g := Queue.state) (fun _ => rfl) q p)).symm.trans hp

/-- While an entry is run it counts among those that are being run. -/
theorem wakeful_begin (hw : e.Wakeful X) (ht : e.Tidy) (q : QueueRef) (n : EntryRef)
    (before : Queue) (previous : Option Entry) :
    Engine.Wakeful (n :: X) (Engine.changeQueue
      { e with journal := .began q n before previous :: e.journal } q
        ({ · with last := some n })) := by
  have steady := steady_begin e q n (.began q n before previous)
  refine ⟨fun {p m} hm => ?_, fun p => ?_, hw.code, hw.catalogue, fun hr => ?_⟩
  · rw [Engine.queue_changeQueue] at hm
    split at hm
    · cases hm
      exact .inl List.mem_cons_self
    · exact (hw.last hm).imp (List.mem_cons_of_mem n) fun h => steady.minds.eases (ht.last hm).1 h
  · rw [steady.listeners]
    exact hw.listeners p
  · rcases List.mem_cons.1 hr with hr | hr
    · cases hr
    · exact hw.returned hr

/-- An entry that was served no longer counts among those that are being run. -/
theorem wakeful_return (hw : e.Wakeful (n :: X)) (hs : Served (n :: X) n e) {ran : Bool}
    (hran : ran = false → (wakeful (n :: X)).marked e n) (q : QueueRef) :
    Engine.Wakeful X { e with journal := .returned q n ran :: e.journal } := by
  refine ⟨fun hm => ?_, hw.listeners, hw.code, hw.catalogue, fun hr => ?_⟩
  · rcases hw.last hm with hm | hm
    · rcases List.mem_cons.1 hm with rfl | hm
      · exact .inr hs.1.2
      · exact .inl hm
    · exact .inr hm
  · rcases List.mem_cons.1 hr with hr | hr
    · cases hr
      refine ⟨hs.1.1, fun h => ?_⟩
      rcases h with h | h
      · exact (hran h).2
      · exact (hs.2 h).2
    · exact hw.returned hr

theorem runsEntries (calls : Calls)
    (h : ∀ X, (wakeful X).ProcedureSafe calls ∧ (wakeful X).StartSafe calls) (X : List EntryRef) :
    (wakeful X).RunsEntries calls := by
  refine BeginsEntries.runs ?_ turns.toServing blocks.emptying
  intro e q n he hq hn _ _ _ _
  let step := QueueScript.Step.began q n (e.queue q) ((e.queue q).last.map e.entry)
  let e₁ := Engine.changeQueue { e with journal := step :: e.journal } q ({ · with last := some n })
  have noted : e.Grows { e with journal := step :: e.journal } :=
    Engine.grows_of_tables rfl rfl rfl
  have grows : e.Grows e₁ :=
    noted.trans (Engine.grows_changeQueue _ q (f := ({ · with last := some n })) fun _ => rfl)
  have begun : (wakeful (n :: X)).inv e₁ := by
    refine ⟨(he.1.note step).changeQueue q (fun _ h => .inl h) (fun m hm => .inr ?_)
      (fun _ h => .inl h) fun _ h => .inl h, wakeful_begin he.2 he.1 q n _ _⟩
    cases hm
    exact noted.live hn
  have hown : (wakeful (n :: X)).own e₁ n := grows.live hn
  have run := (gives_served (h (n :: X)).1 (h (n :: X)).2 hown).run e₁ begun
    ((wakeful (n :: X)).refl e₁)
  show (wakeful X).Leaves e _ (Action.andThen (Executor.execute calls n) (fun ran => do
    Drive.note (.returned q n ran)
    pure ran) e₁)
  have ends := Executor.execute_ends calls n e₁
  unfold Action.andThen
  match hr : Executor.execute calls n e₁ with
  | (.ok ran, e₂) =>
    rw [hr] at run
    obtain ⟨⟨⟨ht, hw⟩, hg, hm⟩, hs, hran⟩ := run
    refine ⟨⟨⟨ht.note _, wakeful_return hw hs hran q⟩, ?_, ?_⟩, trivial⟩
    · exact (grows.trans hg).trans (Engine.grows_of_tables rfl rfl rfl)
    · have minds := (steady_begin e q n step).minds.trans hm grows.queues
      exact minds.trans (e₂.steady_note _).minds (grows.trans hg).queues
  | (.error f, e₂) =>
    rw [hr] at ends
    obtain ⟨_, hok⟩ | hcut := ends
    · cases hok
    · cases hcut
      trivial

theorem calls_runsEntries (fuel : Nat) (X : List EntryRef) :
    (wakeful X).RunsEntries (Drive.calls fuel) :=
  runsEntries _ (callsSafeAll (fun _ => turns) (fun fuel => runsEntries (Drive.calls fuel)) fuel) X

/-! ## Operations -/

theorem hosting : (wakeful X).Hosting where
  toOutreach := outreach
  mine_iff := Iff.rfl
  register he hr hs := still he (Tidy.hosting.register ⟨he.1, trivial⟩ hr hs)
    (Engine.unmoved_of_tables rfl rfl rfl rfl (fun _ h => h) fun _ h => h)
  world files webPlans clock bases attributes heartbeatTime beats he := by
    refine still he (Tidy.hosting.world files webPlans clock bases attributes heartbeatTime beats
      ⟨he.1, trivial⟩) ?_
    exact Engine.unmoved_of_tables rfl rfl rfl rfl (fun _ h => h) fun _ h => h
  pause q he := by
    refine still he (Tidy.hosting.pause q ⟨he.1, trivial⟩) ?_
    refine Engine.unmoved_changeQueue _ q (fun x => ?_) (fun x => ?_) fun x h => ?_
    · split <;> rfl
    · split <;> rfl
    · split at h
      · cases h
      · exact h
  resume q he := by
    refine still he (Tidy.hosting.resume q ⟨he.1, trivial⟩) ?_
    refine Engine.unmoved_changeQueue _ q (fun x => ?_) (fun x => ?_) fun x h => ?_
    · split <;> rfl
    · split <;> rfl
    · split at h
      · cases h
      · exact h
  live he hp := he.1.registry hp
  hear q label error he := kept_hear he label error
  inject he hq hs _ := kept_inject turns.toTurning blocks he hq hs

/-- Work that settles is followed by its handoff. -/
theorem settled {w : Work} {i : Nat} (he : (wakeful X).inv e) (hw : e.inFlight[i]? = some w) :
    (wakeful X).Step e (Background.settleOne { e with inFlight := e.inFlight.eraseIdx i } w) := by
  have tidy : anyTidy.Step e _ := anyTidy_beating.settle ⟨he.1, trivial⟩ hw
  obtain ⟨files, clock, webPlans, webCalls, outcome, h⟩ : ∃ files clock webPlans webCalls outcome,
      Background.settleOne { e with inFlight := e.inFlight.eraseIdx i } w =
        { e with
          inFlight := e.inFlight.eraseIdx i, files, clock, webPlans, webCalls
          handoffs := e.handoffs ++ [.settle w.entry outcome] } := by
    obtain ⟨files, clock, webPlans, webCalls, h⟩ :=
      Background.perform_eq { e with inFlight := e.inFlight.eraseIdx i } w.job
    simp only [Background.settleOne, h]
    exact ⟨_, _, _, _, _, rfl⟩
  rw [h] at tidy ⊢
  have minds : e.Minds { e with
      inFlight := e.inFlight.eraseIdx i, files, clock, webPlans, webCalls
      handoffs := e.handoffs ++ [.settle w.entry outcome] } := by
    refine ⟨Engine.keeps_of_tables rfl rfl, fun {n} _ heases ha => ?_, fun _ h => h⟩
    rcases heases ha with ⟨v, hv, rfl⟩ | ⟨o, ho⟩ | hp
    · obtain ⟨j, hj⟩ := List.mem_iff_getElem?.1 hv
      by_cases hij : j = i
      · rw [hij, hw] at hj
        cases hj
        exact .inr (.inl ⟨_, List.mem_concat_self⟩)
      · exact .inl ⟨v, List.mem_eraseIdx_iff_getElem?.2 ⟨j, hij, hj⟩, rfl⟩
    · exact .inr (.inl ⟨o, List.mem_append_left _ ho⟩)
    · exact .inr (.inr hp)
  exact join tidy (minds.wakeful he.1 he.2 rfl (fun q _ hn => ⟨q, hn⟩) he.2.listeners) minds

/-- A beat takes all handoffs, and each of them marks its entry. -/
theorem safe_takeOverAll : (wakeful X).Safe e₀ Heartbeat.takeOverAll := by
  refine ⟨fun e he hl => leaves ((Discipline.safe_takeOverAll (Tidy.taking (R := fun _ => True))).run e
    ⟨he.1, trivial⟩ hl.1) fun _ => ?_⟩
  let e₁ := { e with handoffs := [] }
  let e₂ := (Action.each Heartbeat.takeOverSafely e.handoffs e₁).2
  show e₂.Wakeful X ∧ e.Minds e₂
  have moved : e₁.Unmoved e₂ := (Action.still_each Heartbeat.still_takeOverSafely).run e₁
  have taken : e.Keeps e₁ := Engine.keeps_of_tables rfl rfl
  have keeps : e.Keeps e₂ := taken.trans moved.toKeeps
  have minds : e.Minds e₂ := by
    refine ⟨keeps, fun {n} hn heases ha => ?_, fun {q} _ hq => ?_⟩
    · rcases heases (keeps.awaited hn ha) with hw | ⟨o, ho⟩ | hp
      · exact moved.settles (.inl hw)
      · have tidy : e₁.Tidy := he.1.setHandoffs nofun
        have marked : (e₂.entry n).isFinished = true :=
          Heartbeat.marked_each tidy (fun _ _ h => he.1.handoffs h) ho
        simp [Entry.isAwaited, marked] at ha
      · exact moved.settles (.inr (.inr hp))
    · rw [moved.listeners]
      exact hq
  refine ⟨minds.wakeful he.1 he.2 moved.journal (fun q n hn => ⟨q, ?_⟩) fun q => ?_, minds⟩
  · rw [moved.last] at hn
    exact hn
  · rw [moved.listeners]
    exact he.2.listeners q

theorem beating : (wakeful X).Beating where
  toHosting := hosting
  schedule label error again he := by
    refine still he (anyTidy_beating.schedule label error again ⟨he.1, trivial⟩) ?_
    exact Engine.unmoved_of_tables rfl rfl rfl rfl (fun _ h => h)
      fun _ h => List.mem_append_left _ h
  settle he hw := settled he hw
  takeOver _ := safe_takeOverAll

end Discipline.Wakeful

/-! ## Reachable engines -/

theorem Host.create_wakeful (config : Config) : (Host.create config []).Wakeful [] := by
  have hnew := Host.create_isNew config []
  refine ⟨fun {q n} hl => ?_, fun q => ?_, fun {n} hn => ?_, Host.create_catalogue_sound config,
    fun {q n ran} hr => ?_⟩
  · rw [hnew.queue_eq] at hl
    cases hl
  · rw [hnew.queue_eq]
    exact List.Pairwise.nil
  · rw [hnew.entries] at hn
    cases hn
  · rw [hnew.journal] at hr
    cases hr

theorem Reachable.wakeful {config : Config} {e : Engine} (h : Reachable (Host.create config []) e) :
    e.Wakeful [] :=
  (Discipline.inv_reachable Discipline.Wakeful.beating
    (fun fuel => Discipline.Wakeful.calls_runsEntries fuel [])
    ⟨(Host.create_isNew config []).tidy, Host.create_wakeful config⟩ h).2

/-- An entry whose condition does not hold is marked at once. -/
theorem Executor.attempt_skip {fuel : Nat} {n : EntryRef} {x y : Engine} {outcome : String}
    (hx : x.Tidy) (hn : x.Live n)
    (h : prelude (Drive.calls fuel) n none (x.entry n).code.metaArgs x = (.ok (.skip outcome), y))
    (scope : Scope) :
    ∃ z, attempt (Drive.calls fuel) n scope x = (.ok (), z) ∧ (z.entry n).isFinished = true := by
  have calls := Discipline.Tidy.calls_safe Engine.Tidy.notes fuel
  have resolved : (Discipline.tidy fun _ _ => True).Safe x
      (prelude (Drive.calls fuel) n none (x.entry n).code.metaArgs) :=
    Discipline.safe_prelude Discipline.Tidy.bookkeeping.toNoting calls.1 hn none _
  have safe := resolved.run x ⟨hx, trivial⟩ (Engine.Grows.refl x)
  rw [h] at safe
  have hy : n < y.entries.size := (safe.1.2.live hn).1
  obtain ⟨events, hev⟩ := y.emit_eq
    (.trace ("Skipping '" ++ (x.entry n).code.keyword ++ "': if:" ++ outcome) scope) scope
  refine ⟨({ y with events } : Engine).changeEntry n ({ · with isFinished := true }), ?_, ?_⟩
  · show Action.andThen (prelude _ n none (x.entry n).code.metaArgs) _ x = _
    simp only [Action.andThen, h]
    show (Except.ok (), (y.emit _ scope).changeEntry n _) = _
    rw [hev]
  · exact congrArg Entry.isFinished (Engine.entry_changeEntry_self _ hy _)

/-- An entry that is done is not waited for. -/
theorem Entry.not_awaited {x : Entry} (h : x.isFinished = true) : x.isAwaited = false := by
  simp [Entry.isAwaited, h]

/-- A queue that has not ended and is held by the entry it ran last will be woken: work for the entry
is under way, or its handoff is queued, or a queue that has not ended has a listener for it.  Entries
that fail, are refused, have no command or are skipped hold no queue. -/
theorem no_lost_wakeup {config : Config} {e : Engine} (h : Reachable (Host.create config []) e) :
    (∀ q, (e.queue q).state.isEnd = false → Drive.isWaiting e q = true →
      ∃ n, (e.queue q).last = some n ∧
        ((∃ w ∈ e.inFlight, w.entry = n) ∨ (∃ o, Handoff.settle n o ∈ e.handoffs) ∨
          ∃ p, Listener.finish n ∈ (e.queue p).listeners ∧ (e.queue p).state.isEnd = false)) ∧
    (∀ q n ran, Step.returned q n ran ∈ e.journal →
      (ran = false ∨ (e.entry n).code.handler.isStub = true) → (e.entry n).isAwaited = false) ∧
    ∀ fuel n scope x y outcome, Engine.Tidy x → x.Live n →
      Executor.prelude (Drive.calls fuel) n none (x.entry n).code.metaArgs x =
        (.ok (.skip outcome), y) →
      ((Executor.attempt (Drive.calls fuel) n scope x).2.entry n).isAwaited = false := by
  refine ⟨fun q _ hwaiting => ?_, fun q n ran hret hor => ?_, fun fuel n scope x y outcome hx hn hs => ?_⟩
  · obtain ⟨n, hlast, hawaited⟩ := (Option.any_eq_true _ _).1 hwaiting
    refine ⟨n, hlast, ?_⟩
    exact (h.wakeful.last hlast).resolve_left List.not_mem_nil hawaited
  · exact Entry.not_awaited ((h.wakeful.returned hret).2 hor)
  · obtain ⟨z, heq, hz⟩ := Executor.attempt_skip hx hn hs scope
    rw [heq]
    exact Entry.not_awaited hz

/-- A queue that waits for a script: the queue of the script is replaced by a timed one while the
script waits, and the listener has moved there.  An unknown command that is to be waited for holds
nothing. -/
theorem no_lost_wakeup_run :
    let e₀ := ((Operation.register { name := "s", source := "wait 1" }).act 10 (Host.create {} [])).2
    let e := ((Operation.runCommands "~nope\n~run s" none {} true).act 20 e₀).2
    let e' := ((Operation.tick none).act 20 e).2
    Drive.isWaiting e' 0 = true ∧ (e'.queue 1).replacedBy = some 2 ∧
      ∃ n, (e'.queue 0).last = some n ∧
        ((∃ w ∈ e'.inFlight, w.entry = n) ∨ (∃ o, Handoff.settle n o ∈ e'.handoffs) ∨
          ∃ p, Listener.finish n ∈ (e'.queue p).listeners ∧ (e'.queue p).state.isEnd = false) := by
  intro e₀ e e'
  have hr₀ : Reachable (Host.create {} []) e₀ :=
    Reachable.ok .first 10 (.register { name := "s", source := "wait 1" }) trivial (by decide +kernel)
  have hr : Reachable (Host.create {} []) e :=
    Reachable.ok hr₀ 20 (.runCommands "~nope\n~run s" none {} true) trivial (by decide +kernel)
  have hr' : Reachable (Host.create {} []) e' :=
    Reachable.ok hr 20 (.tick none) trivial (by decide +kernel)
  have hwaiting : Drive.isWaiting e' 0 = true := by decide +kernel
  refine ⟨hwaiting, by decide +kernel, ?_⟩
  exact (no_lost_wakeup hr').1 0 (by decide +kernel) hwaiting

end QueueScript
