import QueueScript.Proofs.Handoffs
import QueueScript.Proofs.Pacing.Basic

/-!
# What a queue goes through

An engine is watched while a host drives a queue: the queue is started, and the heart beats.  The engines
after each entry that the queue runs are its *moments* (`Host.moments`), the first of them first.  They are
listed along the functions that drive queues, and are engines that these go through: a run that is cut off
has the moments up to there.

What is told of a queue at a moment is its account (`Engine.account`): the entries it has run so far with
their outcomes, the output and the errors of the engine, what its entries share, and what is pending.
-/

namespace QueueScript

/-! ## Accounts -/

/-- The entry of a step in which the queue came back from one, and whether the entry ran. -/
def Step.outcome? (q : QueueRef) : Step → Option (EntryRef × Bool)
  | .returned p n ran => if p = q then some (n, ran) else none
  | .began .. => none

/-- What is told of a queue. -/
structure Account where
  /-- The entries it has run as they are shown, the first one first, and whether they ran or failed. -/
  executed : List (String × Bool)
  /-- Output and errors, the latest first. -/
  shown : List Event
  /-- The definitions. -/
  definitions : Keyed Value
  /-- The determinations. -/
  determinations : Option (List Value)
  /-- The entries that were saved. -/
  held : Keyed EntryRef
  /-- The entries still to run, as they are shown. -/
  pending : List String

namespace Engine

/-- The entries that the queue is back from and whether they ran, the latest first. -/
def outcomes (e : Engine) (q : QueueRef) : List (EntryRef × Bool) :=
  e.journal.filterMap (·.outcome? q)

/-- An entry as it is shown. -/
def shownEntry (e : Engine) (n : EntryRef) : String :=
  (e.entry n).code.render

/-- The entries that the queue has run as they are shown, and whether they ran, the first one first. -/
def executed (e : Engine) (q : QueueRef) : List (String × Bool) :=
  (e.outcomes q).reverse.map fun p => (e.shownEntry p.1, p.2)

/-- What is told of a queue. -/
def account (e : Engine) (q : QueueRef) : Account where
  executed := e.executed q
  shown := e.events.filter (!·.kind.isTrace)
  definitions := e.definitions q
  determinations := e.determinations? q
  held := (e.memory (e.queue q).memory).held
  pending := (e.queue q).pending.map e.shownEntry

theorem outcomes_returned (e : Engine) (q : QueueRef) (n : EntryRef) (ran : Bool) :
    outcomes { e with journal := .returned q n ran :: e.journal } q = (n, ran) :: e.outcomes q :=
  List.filterMap_cons_some (if_pos rfl)

/-- Steps of other queues are nothing to the queue. -/
theorem Continues.outcomes {e e' : Engine} {s q : QueueRef} (h : e.Continues s e') (hq : q < s) :
    e'.outcomes q = e.outcomes q := by
  obtain ⟨steps, journal, new⟩ := h
  have none : steps.filterMap (·.outcome? q) = [] := by
    refine List.filterMap_eq_nil_iff.2 fun x hx => ?_
    have ne := Nat.ne_of_gt (Nat.lt_of_lt_of_le hq (new x hx))
    cases x with
    | began p n before previous => rfl
    | returned p n ran => exact if_neg ne
  unfold Engine.outcomes
  rw [journal, List.filterMap_append, none, List.nil_append]

/-- The account of a queue is the same at any pace. -/
theorem SameButPace.account {q : QueueRef} {e e' : Engine} (h : SameButPace q e e') :
    e'.account q = e.account q := by
  refine h.see (f := (Engine.account · q)) fun e => ?_
  have queue : (e.unpaced q).queue q = (e.queue q).unpaced := by rw [queue_unpaced, if_pos rfl]
  have outcomes : (e.unpaced q).outcomes q = e.outcomes q := by
    have each : (fun x : Step => x.unpaced.outcome? q) = fun x => x.outcome? q := by
      funext x
      cases x <;> rfl
    show (e.journal.map Step.unpaced).filterMap (·.outcome? q) = _
    rw [List.filterMap_map]
    exact congrArg (e.journal.filterMap ·) each
  have shown : (e.events.filter (!·.kind.isTrace)).filter (!·.kind.isTrace) =
      e.events.filter (!·.kind.isTrace) := by simp
  unfold Engine.account Engine.executed Engine.definitions Engine.determinations?
  rw [queue, outcomes]
  show Account.mk _ ((e.events.filter (!·.kind.isTrace)).filter (!·.kind.isTrace)) _ _ _ _ = _
  rw [shown]
  rfl

end Engine

/-! ## Moments -/

namespace Drive

/-- Whether a queue may run entries and has one to run. -/
def isReady (e : Engine) (q : QueueRef) : Bool :=
  isActive e q && !isWaiting e q && !(e.queue q).pending.isEmpty

/-- The engines after each entry that the queue runs until its turn is over. -/
def moments (calls : Calls) (q : QueueRef) : Nat → Engine → List Engine
  | 0, _ => []
  | fuel + 1, e =>
    if isReady e q then
      match step calls q e with
      | (.ok true, e) => e :: moments calls q fuel e
      | (.ok false, e) => [e]
      | (.error _, _) => []
    else []

/-- The engines after each entry that the queue runs when it is given its turn. -/
def turnMoments (calls : Calls) (fuel : Nat) (q : QueueRef) (e : Engine) : List Engine :=
  if (e.queue q).state = .running then
    match (e.queue q).pace with
    | .instant => moments calls q fuel e
    | .timed =>
      match isHeldBack q e with
      | (.ok false, e) => moments calls q fuel e
      | _ => []
  else []

/-- The engines after each entry that the queue runs when it is started. -/
def startMoments (calls : Calls) (fuel : Nat) (q : QueueRef) (e : Engine) : List Engine :=
  if (e.queue q).state = .idle then turnMoments calls fuel q (Queues.launch q e).2 else []

end Drive

namespace Heartbeat

/-- A beat, with its fuel and the time that has passed. -/
structure Beat where
  /-- The fuel. -/
  fuel : Nat
  /-- The time in seconds, if it comes with one. -/
  seconds : Option Float

/-- The engines after each entry that the queue runs while live queues are given their turns. -/
def turnsMoments (fuel : Nat) (q : QueueRef) : List QueueRef → Engine → List Engine
  | [], _ => []
  | p :: live, e =>
    (if p = q then Drive.turnMoments (Drive.calls fuel) fuel q e else []) ++
      match beatSafely fuel p e with
      | (.ok _, e) => turnsMoments fuel q live e
      | (.error _, _) => []

/-- The engines after each entry that the queue runs in a beat. -/
def tickMoments (q : QueueRef) (b : Beat) (e : Engine) : List Engine :=
  let e := takenUpTo e b.seconds e.handoffs
  turnsMoments b.fuel q e.registry.values e

/-- A number of beats. -/
def beats (bs : List Beat) : Action Unit :=
  Action.each (fun b => tick b.fuel b.seconds) bs

/-- The engines after each entry that the queue runs in a number of beats. -/
def beatsMoments (q : QueueRef) : List Beat → Engine → List Engine
  | [], _ => []
  | b :: bs, e =>
    tickMoments q b e ++
      match tick b.fuel b.seconds e with
      | (.ok _, e) => beatsMoments q bs e
      | (.error _, _) => []

end Heartbeat

namespace Host

/-- Starts a queue and lets the heart beat. -/
def drive (fuel : Nat) (q : QueueRef) (bs : List Heartbeat.Beat) : Action Unit := do
  start fuel q
  Heartbeat.beats bs

/-- The engines after each entry that the queue runs when it is started and the heart beats. -/
def moments (fuel : Nat) (q : QueueRef) (bs : List Heartbeat.Beat) (e : Engine) : List Engine :=
  Drive.startMoments (Drive.calls fuel) fuel q e ++
    match start fuel q e with
    | (.ok _, e) => Heartbeat.beatsMoments q bs e
    | (.error _, _) => []

end Host

end QueueScript
