import QueueScript.Proofs.BeatOrder
import QueueScript.Proofs.Pacing.Course

/-!
# Turns, starts and beats

An instant queue runs entries until one fails, a timed queue until one is not instant, and neither runs any
while it is held.  All this is seen from the engine alone but for the tempo of the queue, which decides no
more than where a turn ends.  So turns, starts and beats keep to the course of the queue
(`Drive.tracks_advance`, `Heartbeat.tracks_tick`), and so does a whole run (`Host.tracks_drive`).
-/

namespace QueueScript

namespace Drive

open Discipline

variable {q : QueueRef} {b x e : Engine} {n : EntryRef}

/-! ## One step -/

theorem isActive_paced (h : x.SameButPace q e) : isActive e q = isActive x q :=
  h.resembles.seeQueue (f := fun z => z.state == .running && z.replacedBy.isNone) (fun _ _ => rfl) q

theorem isWaiting_paced (h : x.SameButPace q e) : isWaiting e q = isWaiting x q := by
  have last := h.resembles.seeQueue (f := Queue.last) (fun _ _ => rfl) q
  have entry : e.entry = x.entry := funext h.entry
  unfold isWaiting
  rw [last, entry]

theorem pending_paced (h : x.SameButPace q e) : (e.queue q).pending = (x.queue q).pending :=
  h.resembles.seeQueue (f := Queue.pending) (fun _ _ => rfl) q

/-- Whether a turn goes on is a matter of the pace, and so is the pause that begins if not. -/
theorem goesOnAfter_pace (q : QueueRef) (n : EntryRef) (ran : Bool) (e : Engine) :
    ∃ goesOn e₁, goesOnAfter q n ran e = (.ok goesOn, e₁) ∧ e.SameButPace q e₁ := by
  cases ran with
  | false => exact ⟨false, e, rfl, .refl q e⟩
  | true =>
  cases hp : (e.queue q).pace with
  | instant => exact ⟨true, e, goesOnAfter_of_instant hp true, .refl q e⟩
  | timed =>
    let pause : Action Bool := do
      if 0.0 < (e.queue q).speed then
        let delay ← Action.look (Queues.delayOf · (e.queue q).speed false)
        Action.changeQueue q ({ · with delay := some delay })
      pure false
    have unfolded : goesOn q n e = (if (e.queue q).delay.isSome then pure false
      else if (e.entry n).isInstant then pure true else pause : Action Bool) e := by
      show (if (e.queue q).delay.isSome then pure false else _ : Action Bool) e = _
      split
      · rfl
      · rfl
    rw [goesOnAfter_of_timed hp, unfolded]
    split
    · exact ⟨false, e, rfl, .refl q e⟩
    split
    · exact ⟨true, e, rfl, .refl q e⟩
    show ∃ goesOn e₁, ((if 0.0 < (e.queue q).speed then _ else _ : Action Bool) e) = (.ok goesOn, e₁) ∧ _
    split
    · exact ⟨false, _, rfl, .delay q e (some (Queues.delayOf e (e.queue q).speed false))⟩
    · exact ⟨false, e, rfl, .refl q e⟩

/-- A queue whose entries ran out is finished, and goes nowhere from then on. -/
theorem finish_mirrors (h : Mirrors b q x e) :
    ∃ y e₁, Queues.finish q e = (.ok (), e₁) ∧ Mirrors b q y e₁ ∧ Leads q x [] y := by
  obtain ⟨y, done, -, ended, -⟩ := h.onTask.inv.2.ends (f := ({ · with state := .finished }))
    (fun z => ⟨_, _, _, _, _, _, rfl⟩) (fun _ => rfl) (fun _ => rfl) fun _ _ hn => hn
  have finished : Queues.finish q x = (.ok (), y) := done
  have ends := (Paired.steady_finishQueue (Paired.owning_pace q).toActing q).run h.same
  rw [finished] at ends
  obtain ⟨e₁, done', same⟩ := ends.ok
  -- The queue is not back from any entry when it ends.
  have safe : (recording b q (x.outcomes q)).Safe x (Queues.finish q) :=
    Inside.safe_finish.also fun z _ _ hz _ => (aloof_outcomes q _).ends
      (f := ({ · with state := .finished })) ⟨fun _ => rfl, fun _ => rfl, fun _ => rfl, fun _ _ hl => hl⟩ rfl hz
  have run := safe.run x ⟨h.onTask.inv, rfl⟩ ((tasking b q).refl x)
  rw [finished] at run
  obtain ⟨onTask, executed⟩ := h.onTask.still run.1
  refine ⟨y, e₁, done', ⟨onTask, same⟩, fun hc => ?_, executed ▸ .none _⟩
  have inactive : isActive y q = false := by
    unfold isActive
    cases hs : (y.queue q).state with
    | running =>
      rw [hs] at ended
      cases ended
    | _ => rfl
  rw [hc.of_inactive inactive]
  exact .none x

/-- A queue that may not run an entry, or has none, goes nowhere. -/
theorem step_unready (h : Mirrors b q x e) (hr : isReady e q = false) (calls : Calls) :
    ∃ y e₁, step calls q e = (.ok false, e₁) ∧ Mirrors b q y e₁ ∧ Leads q x [] y := by
  cases ha : isActive e q with
  | false => exact ⟨x, e, step_of_inactive ha, h, .refl q x⟩
  | true =>
  cases hw : isWaiting e q with
  | true => exact ⟨x, e, step_of_waiting hw, h, .refl q x⟩
  | false =>
  cases hp : (e.queue q).pending with
  | nil =>
    obtain ⟨y, e₁, done, mirrors, leads⟩ := finish_mirrors h
    refine ⟨y, e₁, ?_, mirrors, leads⟩
    rw [step_of_empty ha hw hp, Action.bind_ok done]
    rfl
  | cons n rest =>
    unfold isReady at hr
    rw [ha, hw, hp] at hr
    cases hr

/-- A queue that may run an entry and has one takes the next step of its course, unless it is cut off. -/
theorem step_ready (h : Mirrors b q x e) (hr : isReady e q = true) (fuel : Nat) :
    (∃ e₁, step (calls fuel) q e = (.error .exhausted, e₁)) ∨
      ∃ goesOn y e₁, step (calls fuel) q e = (.ok goesOn, e₁) ∧ Mirrors b q y e₁ ∧ Leads q x [e₁] y := by
  unfold isReady at hr
  simp only [Bool.and_eq_true, Bool.not_eq_true'] at hr
  obtain ⟨⟨ha, hw⟩, hp⟩ := hr
  obtain ⟨n, rest, hp⟩ : ∃ n rest, (e.queue q).pending = n :: rest := by
    cases hc : (e.queue q).pending with
    | nil =>
      rw [hc] at hp
      cases hp
    | cons n rest => exact ⟨n, rest, rfl⟩
  rw [step_of_pending ha hw hp]
  have first := Passes.of_same h.onTask h.same ((isActive_paced h.same).symm.trans ha)
    ((isWaiting_paced h.same).symm.trans hw) ((pending_paced h.same).symm.trans hp) fuel
  obtain ⟨e₁, cut⟩ | ⟨ran, y, e₁, back, passes, same⟩ := first
  · exact .inl ⟨e₁, Action.bind_error ((runEntry_eq _ _ _ _ _).trans cut)⟩
  · obtain ⟨goesOn, e₂, after, paced⟩ := goesOnAfter_pace q n ran e₁
    have mirrors : Mirrors b q y e₂ := ⟨(passes.onTask h.onTask).1, same.trans paced⟩
    have stepped := (Action.bind_ok ((runEntry_eq _ _ _ _ _).trans back)).trans after
    exact .inr ⟨goesOn, y, e₂, stepped, mirrors, .passes passes h.onTask mirrors.same⟩

/-! ## Turns -/

/-- Until its turn is over, a queue keeps to its course. -/
theorem tracks_advance (h : Mirrors b q x e) (level fuel : Nat) :
    Tracks b q x (moments (calls level) q fuel e) (advance (calls level) fuel q e) := by
  induction fuel generalizing x e with
  | zero => exact .exhausted x e
  | succ fuel ih =>
    show Tracks b q x _ (Action.repeatWhile (step (calls level) q) (fuel + 1) e)
    unfold moments Action.repeatWhile
    cases hr : isReady e q with
    | false =>
      obtain ⟨y, e₁, stepped, mirrors, leads⟩ := step_unready h hr (calls level)
      rw [stepped, if_neg Bool.false_ne_true]
      exact ⟨y, mirrors, leads⟩
    | true =>
      rw [if_pos rfl]
      obtain ⟨e₁, stepped⟩ | ⟨goesOn, y, e₁, stepped, mirrors, leads⟩ := step_ready h hr level
      · rw [stepped]
        exact .exhausted x e₁
      · rw [stepped]
        cases goesOn with
        | true => exact .after leads (ih mirrors)
        | false => exact ⟨y, mirrors, leads⟩

/-- In its turn, a queue keeps to its course. -/
theorem tracks_heartbeat (h : Mirrors b q x e) (level fuel : Nat) :
    Tracks b q x (turnMoments (calls level) fuel q e) (heartbeat (calls level) fuel q e) := by
  unfold turnMoments
  by_cases running : (e.queue q).state = .running
  · rw [if_pos running]
    cases pace : (e.queue q).pace with
    | instant =>
      rw [heartbeat_of_instant running pace]
      exact tracks_advance h level fuel
    | timed =>
      rw [heartbeat_of_timed running pace]
      cases hd : (e.queue q).delay with
      | none =>
        rw [isHeldBack_of_none hd, Action.bind_ok (isHeldBack_of_none hd)]
        exact tracks_advance h level fuel
      | some d =>
        have held := isHeldBack_of_some hd
        split at held
        · rw [held, Action.bind_ok held]
          exact .still h
        · rw [held, Action.bind_ok held]
          exact tracks_advance (h.next (.delay q e none)) level fuel
  · rw [if_neg running, heartbeat_of_still running]
    exact .still h

end Drive

/-! ## Beats -/

namespace Heartbeat

open Drive

variable {q : QueueRef} {b x e : Engine}

/-- A turn fails only if it is cut off, so nothing is reported. -/
theorem tracks_beatSafely (h : Mirrors b q x e) (fuel : Nat) :
    Tracks b q x (turnMoments (calls fuel) fuel q e) (beatSafely fuel q e) := by
  have turn := tracks_heartbeat h fuel fuel
  unfold beatSafely
  rcases hr : heartbeat (calls fuel) fuel q e with ⟨f | _, e₁⟩ <;> rw [hr] at turn
  · obtain rfl := turn.1
    rw [Action.orElse_exhausted hr]
    exact turn
  · rw [Action.orElse_ok hr]
    exact turn

/-- Without handoffs, a beat is nothing but turns. -/
theorem tick_of_none (h : e.handoffs = []) (fuel : Nat) (seconds : Option Float) :
    tick fuel seconds e = beatAll fuel (opened e seconds) := by
  show Action.andThen (Action.each takeOverSafely e.handoffs) (fun _ => beatAll fuel) (opened e seconds) = _
  rw [h]
  rfl

theorem takenUpTo_of_none (h : e.handoffs = []) (seconds : Option Float) :
    takenUpTo e seconds e.handoffs = opened e seconds := by
  rw [h]
  rfl

/-- No queue but the one that runs is registered, and nothing is handed over, so a beat is a turn of it. -/
theorem tracks_tick (hr : b.registry = []) (hh : b.handoffs = []) (h : Mirrors b q x e) (beat : Beat) :
    Tracks b q x (tickMoments q beat e) (tick beat.fuel beat.seconds e) := by
  let e₁ := opened e beat.seconds
  have handoffs : e.handoffs = [] := by
    rw [h.same.resembles.see (f := Engine.handoffs) fun _ _ => rfl, h.onTask.inv.2.handoffs, hh]
  have still : e.SameButPace q e₁ := by
    show Engine.unpaced q { e with heartbeatTime := _, beats := _, handoffs := [] } = e.unpaced q
    rw [← handoffs]
    rfl
  have mirrors : Mirrors b q x e₁ := h.next still
  have registry : e₁.registry = x.ticket q := by
    rw [mirrors.same.resembles.see (f := Engine.registry) fun _ _ => rfl, h.onTask.inv.2.registry, hr]
    rfl
  unfold tickMoments
  rw [tick_of_none handoffs, takenUpTo_of_none handoffs]
  show Tracks b q x (turnsMoments beat.fuel q e₁.registry.values e₁)
    (Action.each (beatSafely beat.fuel) e₁.registry.values e₁)
  rw [registry, Engine.ticket]
  split
  · show Tracks b q x ((if q = q then _ else []) ++ _) ((beatSafely beat.fuel q >>= fun _ => pure ()) e₁)
    rw [if_pos rfl]
    exact (tracks_beatSafely mirrors beat.fuel).bind fun _ _ => .still
  · exact .still mirrors

theorem tracks_beats (hr : b.registry = []) (hh : b.handoffs = []) (h : Mirrors b q x e) (bs : List Beat) :
    Tracks b q x (beatsMoments q bs e) (beats bs e) := by
  induction bs generalizing x e with
  | nil => exact .still h
  | cons beat bs ih => exact (tracks_tick hr hh h beat).bind fun _ _ mirrors => ih mirrors

end Heartbeat

/-! ## Whole runs -/

namespace Host

open Drive Discipline

variable {q : QueueRef} {b x e : Engine}

/-- The engine that stands for one with an idle queue, when the queue was started. -/
theorem launch_mirrors (h : Mirrors b q x e) :
    Queues.launch q e = (.ok (), (Queues.launch q e).2) ∧
      Mirrors b q (Queues.launch q x).2 (Queues.launch q e).2 ∧
      (Queues.launch q x).2.executed q = x.executed q := by
  obtain ⟨events, launched⟩ := x.launch_eq q
  obtain ⟨events', launched'⟩ := e.launch_eq q
  have ends := (Paired.steady_launch (Paired.owning_pace q).toActing q).run h.same
  have safe : (recording b q (x.outcomes q)).Safe x (Queues.launch q) :=
    Inside.safe_launch.also fun z _ _ hz _ => (aloof_outcomes q _).launch rfl hz
  have run := safe.run x ⟨h.onTask.inv, rfl⟩ ((tasking b q).refl x)
  rw [launched] at ends run
  rw [launched'] at ends
  rw [launched, launched']
  obtain ⟨onTask, executed⟩ := h.onTask.still run.1
  exact ⟨rfl, ⟨onTask, ends.2⟩, executed⟩

/-- A run from the start of a queue on keeps to the course of the queue. -/
theorem tracks_drive (hr : b.registry = []) (hh : b.handoffs = []) (h : Mirrors b q x e)
    (idle : (e.queue q).state = .idle) (fuel : Nat) (bs : List Heartbeat.Beat) :
    Tracks b q (Queues.launch q x).2 (moments fuel q bs e) (drive fuel q bs e) := by
  obtain ⟨-, mirrors, -⟩ := launch_mirrors h
  have turn : Tracks b q (Queues.launch q x).2 (startMoments (calls fuel) fuel q e) (start fuel q e) := by
    unfold startMoments
    obtain ⟨w, launched, started⟩ := Drive.start_of_idle idle
    rw [launched] at mirrors
    rw [if_pos idle, launched, start, started]
    exact tracks_heartbeat mirrors fuel fuel
  exact turn.bind fun _ _ mirrors => Heartbeat.tracks_beats hr hh mirrors bs

end Host

end QueueScript
