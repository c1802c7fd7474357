import QueueScript.Proofs.Pacing.Turns

/-!
# Instant queues get on

An instant queue is given as many beats as entries are asked of it.  In each of them it runs an entry at
least, as long as there is one to run, so with enough fuel it gets as far on its course as is asked
(`Host.instant_far`).
-/

namespace QueueScript

open Discipline

variable {q : QueueRef} {b x y e : Engine} {ms : List Engine}

/-! ## The same course at another pace -/

namespace Drive

/-- An entry may be run at another pace. -/
theorem Passes.paced (h : Passes q x y) (hx : b.OnTask q x) (hs : x.SameButPace q e) :
    ∃ y', Passes q e y' ∧ y.SameButPace q y' := by
  obtain @⟨fuel, n, rest, ran, z, active, waiting, pending, ends⟩ := h
  have paced := returns_paced hx hs pending fuel
  rw [returns_ok ends] at paced
  obtain ⟨y', back, same⟩ := paced.ok
  rcases hr : Executor.execute (calls fuel) n (e.begun q n rest) with ⟨f | ran', z'⟩
  · rw [returns_error hr] at back
    cases back
  · rw [returns_ok hr] at back
    cases back
    exact ⟨_, .mk ((isActive_paced hs).trans active) ((isWaiting_paced hs).trans waiting)
      ((pending_paced hs).trans pending) hr, same⟩

/-- The course of a queue does not depend on its pace. -/
theorem Course.paced (h : Course q x ms) (hx : b.OnTask q x) (hs : x.SameButPace q e) : Course q e ms := by
  induction h generalizing e with
  | none => exact .none e
  | next passes same rest ih =>
    obtain ⟨y', passes', same'⟩ := passes.paced hx hs
    exact .next passes' (same'.symm.trans same) (ih (passes.onTask hx).1 same')

/-! ## Steps of instant queues -/

/-- The turn of an instant queue is held back by nothing. -/
theorem turnMoments_of_instant {calls : Calls} {fuel : Nat} (hs : (e.queue q).state = .running)
    (hi : (e.queue q).pace = .instant) : turnMoments calls fuel q e = moments calls q fuel e := by
  rw [turnMoments, if_pos hs, hi]

/-- The pace of a queue stays the same while entries run. -/
theorem Passes.pace (h : Passes q e y) (hx : b.OnTask q e) : (y.queue q).pace = (e.queue q).pace :=
  (Inside.serving.pace (h.onTask hx).2.1 hx.inv.2.here).2

/-- With enough fuel, a step of an instant queue is the next one of its course. -/
theorem Passes.step (h : Passes q e y) (hx : b.OnTask q e) (hi : (e.queue q).pace = .instant) :
    isReady e q = true ∧
      ∃ least, ∀ level, least ≤ level → ∃ ran, Drive.step (calls level) q e = (.ok ran, y) := by
  have pace := h.pace hx
  obtain @⟨fuel, n, rest, ran, z, active, waiting, pending, ends⟩ := h
  refine ⟨by rw [isReady, active, waiting, pending]; rfl, fuel, fun level hl => ⟨ran, ?_⟩⟩
  have long := (Executor.longer_execute (longer_calls hl) n).eq_ok ends
  rw [step_of_pending active waiting pending]
  refine (Action.bind_ok ((runEntry_eq _ _ _ _ _).trans (returns_ok long))).trans ?_
  exact goesOnAfter_of_instant (pace.trans hi) ran

end Drive

/-! ## Turns and beats of instant queues -/

namespace Heartbeat

open Drive

/-- The engines after each entry that the queue runs in the rest of its turn and in some beats. -/
def onwardMoments (q : QueueRef) (level fuel : Nat) (bs : List Beat) (e : Engine) : List Engine :=
  moments (calls level) q fuel e ++
    match Drive.advance (calls level) fuel q e with
    | (.ok _, e) => beatsMoments q bs e
    | (.error _, _) => []

variable {level fuel : Nat} {bs : List Beat}

/-- The queue runs an entry and goes on. -/
theorem onwardMoments_goesOn (hr : isReady e q = true) (hs : step (calls level) q e = (.ok true, y)) :
    onwardMoments q level (fuel + 1) bs e = y :: onwardMoments q level fuel bs y := by
  have advanced : Drive.advance (calls level) (fuel + 1) q e = Drive.advance (calls level) fuel q y := by
    show Action.repeatWhile (step (calls level) q) (fuel + 1) e = _
    unfold Action.repeatWhile
    rw [hs]
    rfl
  have listed : moments (calls level) q (fuel + 1) e = y :: moments (calls level) q fuel y := by
    rw [moments, if_pos hr, hs]
  unfold onwardMoments
  rw [advanced, listed]
  rfl

/-- The queue runs an entry, and its turn is over. -/
theorem onwardMoments_ends (hr : isReady e q = true) (hs : step (calls level) q e = (.ok false, y)) :
    onwardMoments q level (fuel + 1) bs e = y :: beatsMoments q bs y := by
  have advanced : Drive.advance (calls level) (fuel + 1) q e = (.ok (), y) := by
    show Action.repeatWhile (step (calls level) q) (fuel + 1) e = _
    unfold Action.repeatWhile
    rw [hs]
  have listed : moments (calls level) q (fuel + 1) e = [y] := by
    rw [moments, if_pos hr, hs]
  unfold onwardMoments
  rw [advanced, listed]
  rfl

/-- A beat opens. -/
theorem onTask_opened (hh : b.handoffs = []) (hx : b.OnTask q e) (seconds : Option Float) :
    b.OnTask q (opened e seconds) ∧ e.SameButPace q (opened e seconds) := by
  have handoffs : e.handoffs = [] := hx.inv.2.handoffs.trans hh
  let e₁ : Engine := { e with
    heartbeatTime := e.heartbeatTime + seconds.getD (defaultSeconds e) * 1000.0, beats := e.beats + 1 }
  have begun : opened e seconds = e₁ := by
    unfold opened
    rw [← handoffs]
  have safe : healthy.Step e e₁ := Healthy.hosting.world e.files e.webPlans e.clock e.bases e.attributes
    _ _ hx.inv.1
  have step : (tasking b q).Step e e₁ := Inside.aside hx.inv safe rfl rfl (fun _ => rfl) rfl rfl (.of_same rfl)
  rw [begun]
  exact ⟨⟨step.1, hx.known⟩, rfl⟩

/-- A beat is a turn of an instant queue that runs. -/
theorem beatsMoments_turn (hr : b.registry = []) (hh : b.handoffs = []) (hx : b.OnTask q e)
    (hi : (e.queue q).pace = .instant) (ha : (e.queue q).state = .running) (seconds : Option Float) :
    beatsMoments q (⟨fuel, seconds⟩ :: bs) e = onwardMoments q fuel fuel bs (opened e seconds) := by
  let e₁ := opened e seconds
  have handoffs : e.handoffs = [] := hx.inv.2.handoffs.trans hh
  have onTask : b.OnTask q e₁ := (onTask_opened hh hx seconds).1
  have registry : e₁.registry.values = [q] := by
    have running : (e₁.queue q).state = .running := ha
    rw [onTask.inv.2.registry, hr, Engine.ticket, if_pos running]
    rfl
  have turn : heartbeat (calls fuel) fuel q e₁ = Drive.advance (calls fuel) fuel q e₁ :=
    heartbeat_of_instant ha hi
  have listed : tickMoments q ⟨fuel, seconds⟩ e = moments (calls fuel) q fuel e₁ := by
    unfold tickMoments
    rw [takenUpTo_of_none handoffs]
    show turnsMoments fuel q e₁.registry.values e₁ = _
    have turned : turnMoments (calls fuel) fuel q e₁ = moments (calls fuel) q fuel e₁ :=
      turnMoments_of_instant ha hi
    rw [registry, turnsMoments, if_pos rfl, turned]
    cases beatSafely fuel q e₁ with
    | mk r z => cases r <;> exact List.append_nil _
  have ticked : tick fuel seconds e = Drive.advance (calls fuel) fuel q e₁ := by
    rw [tick_of_none handoffs]
    show Action.each (beatSafely fuel) e₁.registry.values e₁ = _
    rw [registry, ← turn]
    show (beatSafely fuel q >>= fun _ => pure ()) e₁ = _
    have tracks := tracks_heartbeat (x := e₁) ⟨onTask, .refl q e₁⟩ fuel fuel
    rcases hd : heartbeat (calls fuel) fuel q e₁ with ⟨f | _, z⟩ <;> rw [hd] at tracks
    · obtain rfl := tracks.1
      exact Action.bind_error (Action.orElse_exhausted hd)
    · exact Action.bind_ok (Action.orElse_ok hd)
  rw [beatsMoments, listed, ticked]
  rfl

/-- With enough fuel and beats, an instant queue gets as far as is asked on its course. -/
theorem onwardMoments_far (hr : b.registry = []) (hh : b.handoffs = []) (hc : Drive.Course q e ms)
    (hx : b.OnTask q e) (hi : (e.queue q).pace = .instant) :
    ∃ least, ∀ level fuel n, least ≤ level → ms.length ≤ fuel → ms.length ≤ n →
      ms.length ≤ (onwardMoments q level fuel (List.replicate n ⟨level, none⟩) e).length := by
  induction ms generalizing e with
  | nil => exact ⟨0, fun _ _ _ _ _ _ => Nat.zero_le _⟩
  | cons m ms ih =>
    obtain _ | @⟨_, y, _, _, passes, -, rest⟩ := hc
    obtain ⟨ready, first, steps⟩ := passes.step hx hi
    have onTask := (passes.onTask hx).1
    have instant := (passes.pace hx).trans hi
    obtain ⟨opening, still⟩ := onTask_opened hh onTask none
    -- The turn goes on, or the rest is left to the beats.
    obtain ⟨going, goes⟩ := ih rest onTask instant
    obtain ⟨beating, beats⟩ := ih (rest.paced onTask still) opening instant
    refine ⟨max first (max (max going beating) ms.length), fun level fuel n hl hf hn => ?_⟩
    rw [List.length_cons] at hf hn ⊢
    obtain ⟨fuel, rfl⟩ : ∃ k, fuel = k + 1 := ⟨fuel - 1, by omega⟩
    obtain ⟨n, rfl⟩ : ∃ k, n = k + 1 := ⟨n - 1, by omega⟩
    obtain ⟨ran, stepped⟩ := steps level (by omega)
    cases ran with
    | true =>
      rw [onwardMoments_goesOn ready stepped, List.length_cons]
      exact Nat.succ_le_succ (goes level fuel (n + 1) (by omega) (by omega) (by omega))
    | false =>
      rw [onwardMoments_ends ready stepped, List.length_cons]
      refine Nat.succ_le_succ ?_
      by_cases running : (y.queue q).state = .running
      · rw [List.replicate_succ, beatsMoments_turn hr hh onTask instant running]
        exact beats level level n (by omega) (by omega) (by omega)
      · have inactive : isActive y q = false := by
          unfold isActive
          simp [running]
        rw [rest.of_inactive inactive]
        exact Nat.zero_le _

end Heartbeat

/-! ## Whole runs of instant queues -/

namespace Host

open Drive Heartbeat

/-- With enough fuel and beats, a run of an instant queue gets as far as is asked on the course of the
queue. -/
theorem instant_far (hr : b.registry = []) (hh : b.handoffs = []) (hx : b.OnTask q e)
    (idle : (e.queue q).state = .idle) (hi : (e.queue q).pace = .instant)
    (hc : Drive.Course q (Queues.launch q e).2 ms) : ∃ fuel bs, ms.length ≤ (moments fuel q bs e).length := by
  obtain ⟨-, mirrors, -⟩ := launch_mirrors (x := e) ⟨hx, .refl q e⟩
  obtain ⟨e₁, launched, started⟩ := Drive.start_of_idle idle
  rw [launched] at mirrors hc
  have queue : e₁.queue q = { e.queue q with state := .running } := by
    obtain ⟨events, launch⟩ := e.launch_eq q
    have same : { e.launched q with events } = e₁ := congrArg Prod.snd (launch.symm.trans launched)
    rw [← same]
    exact e.queue_launched hx.inv.2.here
  have running : (e₁.queue q).state = .running := by rw [queue]
  have instant : (e₁.queue q).pace = .instant := by rw [queue]; exact hi
  obtain ⟨least, far⟩ := onwardMoments_far hr hh hc mirrors.onTask instant
  let fuel := max least ms.length
  let bs : List Beat := List.replicate ms.length ⟨fuel, none⟩
  have turn : start fuel q e = Drive.advance (calls fuel) fuel q e₁ :=
    (started _ _).trans (heartbeat_of_instant running instant)
  have listed : startMoments (calls fuel) fuel q e = Drive.moments (calls fuel) q fuel e₁ := by
    rw [startMoments, if_pos idle, launched]
    exact turnMoments_of_instant running instant
  refine ⟨fuel, bs, ?_⟩
  have onward : moments fuel q bs e = onwardMoments q fuel fuel bs e₁ := by
    rw [moments, listed, turn]
    rfl
  rw [onward]
  exact far fuel fuel ms.length (Nat.le_max_left _ _) (Nat.le_max_right _ _) (Nat.le_refl _)

end Host

end QueueScript
