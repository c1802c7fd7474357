import QueueScript.Proofs.Tidy.Reachable

/-!
# The guard of executions

Entries pause, stop, delay, hold and replace queues, their own and others, in the middle of a turn,
and they start queues that take turns of their own.  Still, whenever a queue begins an entry it is
running, nothing replaced it, the entry it ran before does not hold it, and no delay is left on it.
The history keeps the queue and that entry as they were at the moment, so this is a property of the
history of every run, also of one that is cut off.
-/

namespace QueueScript

/-- At the beginning of an entry, the queue was free to run it. -/
def Step.Guarded : Step → Prop
  | .began _ _ before previous =>
    before.state = .running ∧ before.replacedBy = none ∧
      previous.isSome = before.last.isSome ∧ (∀ x, previous = some x → x.isAwaited = false) ∧
      (before.pace = .timed → before.delay = none)
  | .returned _ _ _ => True

/-- What a turn makes sure of before it begins an entry guards the beginning. -/
theorem Step.guarded_began {e : Engine} {q : QueueRef} (n : EntryRef)
    (hactive : Drive.isActive e q = true) (hwaiting : Drive.isWaiting e q = false)
    (hu : Discipline.Undelayed e q) :
    (Step.began q n (e.queue q) ((e.queue q).last.map e.entry)).Guarded := by
  obtain ⟨hstate, hreplaced⟩ : (e.queue q).state = .running ∧ (e.queue q).replacedBy = none := by
    simpa [Drive.isActive] using hactive
  refine ⟨hstate, hreplaced, by simp, fun x hx => ?_, hu⟩
  obtain ⟨last, hlast, rfl⟩ := Option.map_eq_some_iff.1 hx
  simpa [Drive.isWaiting, hlast] using hwaiting

/-- Beginnings that are guarded are carried along by every turn. -/
theorem guarded_notes : Discipline.Tidy.Notes fun j _ => ∀ s ∈ j, Step.Guarded s where
  began {e q} n hj hactive hwaiting hu s hs := by
    rcases List.mem_cons.1 hs with rfl | hs
    · exact Step.guarded_began n hactive hwaiting hu
    · exact hj s hs
  returned q n ran hj s hs := by
    rcases List.mem_cons.1 hs with rfl | hs
    · trivial
    · exact hj s hs

/-- A turn of a timed queue whose delay still holds does nothing. -/
theorem Drive.heartbeat_delayed {e : Engine} {q : QueueRef} {d : Delay}
    (hpace : (e.queue q).pace = .timed) (hdelay : (e.queue q).delay = some d)
    (hholding : Queues.isHolding e d = true) (calls : Calls) (fuel : Nat) :
    Drive.heartbeat calls fuel q e = (.ok (), e) := by
  have held : Drive.isHeldBack q e = (.ok true, e) := by
    rw [Drive.isHeldBack_of_some hdelay, if_pos hholding]
  by_cases hs : (e.queue q).state = .running
  · rw [Drive.heartbeat_of_timed hs hpace]
    exact Action.bind_ok held
  · exact Drive.heartbeat_of_still hs

/-- Whenever a queue begins an entry, in whatever operation and however deep inside other turns, it
is running and not replaced, the entry it ran last is not waited for, and no delay is left on it. -/
theorem execution_guarded {config : Config} {modules : List CommandModule} {e : Engine}
    (h : Reachable (Host.create config modules) e) (fuel : Nat) (op : Operation)
    (hv : op.Valid e) :
    (∀ q n before previous, Step.began q n before previous ∈ (op.act fuel e).2.journal →
      before.state = .running ∧ before.replacedBy = none ∧
        previous.isSome = before.last.isSome ∧ (∀ x, previous = some x → x.isAwaited = false) ∧
        (before.pace = .timed → before.delay = none)) ∧
    ∀ calls q d, (e.queue q).pace = .timed → (e.queue q).delay = some d →
      Queues.isHolding e d = true → Drive.heartbeat calls fuel q e = (.ok (), e) := by
  have beating := Discipline.Tidy.beating (R := fun j => ∀ s ∈ j, Step.Guarded s)
  have runs := Discipline.Tidy.calls_runsEntries guarded_notes
  have hnew := Host.create_isNew config modules
  have first : ∀ s ∈ (Host.create config modules).journal, s.Guarded := by
    rw [hnew.journal]
    exact fun s hs => absurd hs List.not_mem_nil
  have he := Discipline.inv_reachable beating runs ⟨hnew.tidy, first⟩ h
  refine ⟨fun q n before previous hmem => ?_, fun calls q d hp hd hh => ?_⟩
  · exact (Discipline.kept_act beating runs fuel op he hv).cut _ hmem
  · exact Drive.heartbeat_delayed hp hd hh calls fuel

/-- A queue that waits is replaced by a timed one; when the delay is over, that one begins the entry
that is left. -/
theorem execution_guarded_wait :
    let e := ((Operation.runCommands "wait 1\ndebug hi" none {} true).act 10 (Host.create {} [])).2
    let e' := ((Operation.tick (some 2.0)).act 10 e).2
    e'.journal.length = 4 ∧
      ∀ q n before previous, Step.began q n before previous ∈ e'.journal →
        before.state = .running ∧ before.replacedBy = none ∧
          previous.isSome = before.last.isSome ∧ (∀ x, previous = some x → x.isAwaited = false) ∧
          (before.pace = .timed → before.delay = none) := by
  intro e e'
  have hr : Reachable (Host.create {} []) e :=
    Reachable.ok .first 10 (.runCommands "wait 1\ndebug hi" none {} true) trivial (by decide +kernel)
  exact ⟨by decide +kernel, (execution_guarded hr 10 (.tick (some 2.0)) trivial).1⟩

end QueueScript
