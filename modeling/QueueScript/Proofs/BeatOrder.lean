import QueueScript.Proofs.Handoffs
import QueueScript.Proofs.Roster

/-!
# The order of turns

A beat gives one turn to each queue that is registered when its handoffs are taken, in the order of the
registry (`Heartbeat.tick_turns`).  Turns change the registry, but not which queues the beat calls: a queue
that is started meanwhile has its first turn when it is started, and is called by the next beat for the
first time.  From beat to beat, two ids that stay registered keep their order.
-/

namespace QueueScript

/-! ## Orders of two -/

/-- Images that are all different stand in the order of what they are images of. -/
theorem sublist_map_pair {α β : Type} {f : α → β} {l : List α} (hn : (l.map f).Nodup) {a b : α}
    (ha : a ∈ l) (hb : b ∈ l) : [f a, f b].Sublist (l.map f) ↔ [a, b].Sublist l := by
  refine ⟨fun h => ?_, fun h => h.map f⟩
  obtain ⟨pair, sub, eq⟩ := List.sublist_map_iff.1 h
  have inj {x y : α} (hx : x ∈ l) (hy : y ∈ l) (hxy : f x = f y) : x = y :=
    List.inj_on_of_nodup_map hn hx hy hxy
  obtain ⟨x, y, rfl⟩ := List.length_eq_two.1 (by simpa using (congrArg List.length eq).symm)
  obtain ⟨hx, hy⟩ : f a = f x ∧ f b = f y := by simpa using eq
  rwa [inj ha (sub.subset (by simp)) hx, inj hb (sub.subset (by simp)) hy]

namespace Engine

namespace Rostered

variable {e : Engine} {k l : String} {q r : QueueRef} (h : e.Rostered)

include h

/-- No queue is registered twice. -/
theorem values_nodup : e.registry.values.Nodup := by
  refine (List.nodup_map_iff_inj_on (List.Nodup.of_map Prod.fst h.keys)).2 fun p hp p' hp' eq => ?_
  refine Prod.ext ?_ eq
  rw [← h.id hp, ← h.id hp', eq]

theorem mem_values_iff : q ∈ e.registry.values ↔ e.registered? (e.queue q).id = some q := by
  constructor
  · intro hq
    obtain ⟨p, hp, rfl⟩ := List.mem_map.1 hq
    unfold registered?
    rw [h.id hp]
    exact Keyed.get?_of_mem h.keys hp
  · exact fun found => List.mem_map.2 ⟨_, Keyed.pair_mem_of_get? found, rfl⟩

theorem started_of_mem (hq : q ∈ e.registry.values) : (e.queue q).state ≠ .idle := by
  obtain ⟨p, hp, rfl⟩ := List.mem_map.1 hq
  exact h.begun hp

/-- Queues stand in the order of their keys. -/
theorem sublist_iff (hq : e.registry.get? k = some q) (hr : e.registry.get? l = some r) :
    [q, r].Sublist e.registry.values ↔ [k, l].Sublist e.registry.keys := by
  have hq := Keyed.pair_mem_of_get? hq
  have hr := Keyed.pair_mem_of_get? hr
  exact (sublist_map_pair h.values_nodup hq hr).trans (sublist_map_pair h.keys hq hr).symm

end Rostered

/-- Two keys that stay registered keep their order, and so do the queues under them. -/
theorem Later.order {x e : Engine} (hx : x.Rostered) (he : e.Rostered) {k l : String}
    (hk : x.StaysListed e k) (hl : x.StaysListed e l) :
    ∃ q r q' r', (x.registry.get? k = some q ∧ x.registry.get? l = some r) ∧
      (e.registry.get? k = some q' ∧ e.registry.get? l = some r') ∧
      ([q, r].Sublist x.registry.values ↔ [q', r'].Sublist e.registry.values) := by
  obtain ⟨recent, split, hk⟩ := hk
  obtain ⟨recent', split', hl⟩ := hl
  obtain rfl : recent' = recent := List.append_cancel_right (split'.symm.trans split)
  -- The registry is the latest one in its history, also when it has not changed.
  have now : e.registry ∈ recent' ++ [x.registry] := by
    cases recent' <;> exact (List.cons.inj split).1 ▸ List.mem_cons_self
  have find {t : Keyed QueueRef} {j : String} (h : t.has j = true) : ∃ q, t.get? j = some q := by
    rw [Keyed.has_eq_isSome] at h
    exact Option.isSome_iff_exists.1 h
  have chain := he.changes
  rw [split] at chain
  have kept := Keyed.sublist_iff_of_history chain
    (fun t ht => (Keyed.has_iff_mem_keys t k).1 (hk t ht))
    (fun t ht => (Keyed.has_iff_mem_keys t l).1 (hl t ht)) e.registry now
  have before : x.registry ∈ recent' ++ [x.registry] := by simp
  obtain ⟨q, hq⟩ := find (hk x.registry before)
  obtain ⟨r, hr⟩ := find (hl x.registry before)
  obtain ⟨q', hq'⟩ := find (hk e.registry now)
  obtain ⟨r', hr'⟩ := find (hl e.registry now)
  refine ⟨q, r, q', r', ⟨hq, hr⟩, ⟨hq', hr'⟩, ?_⟩
  exact (hx.sublist_iff hq hr).trans (kept.symm.trans (he.sublist_iff hq' hr').symm)

end Engine

/-! ## The turns of a beat -/

namespace Action

variable {α : Type} {f : α → Action Unit} {a : α} {xs ys : List α} {e : Engine}

/-- Actions that only fail when they are cut off all succeed one after the other, or one is cut off. -/
theorem each_split (hf : ∀ a e, (f a e).1 = .ok () ∨ (f a e).1 = .error .exhausted)
    (h : (each f (xs ++ a :: ys) e).1 ≠ .error .exhausted) :
    ∃ y z, each f xs e = (.ok (), y) ∧ f a y = (.ok (), z) ∧ each f (xs ++ a :: ys) e = each f ys z := by
  have first {a : α} {rest : List α} {e : Engine} (h : (each f (a :: rest) e).1 ≠ .error .exhausted) :
      ∃ z, f a e = (.ok (), z) ∧ each f (a :: rest) e = each f rest z := by
    match hr : f a e with
    | (.ok (), z) => exact ⟨z, rfl, bind_ok hr⟩
    | (.error err, z) =>
      have failed : each f (a :: rest) e = (.error err, z) := bind_error hr
      have exhausted := hf a e
      rw [hr] at exhausted
      rw [failed] at h
      exact absurd (exhausted.resolve_left nofun) h
  induction xs generalizing e with
  | nil =>
    obtain ⟨z, done, rest⟩ := first h
    exact ⟨e, z, rfl, done, rest⟩
  | cons b xs ih =>
    rw [List.cons_append] at h ⊢
    obtain ⟨x, done, rest⟩ := first h
    rw [rest] at h
    obtain ⟨y, z, before, here, after⟩ := ih h
    exact ⟨y, z, (bind_ok done).trans before, here, rest.trans after⟩

end Action

namespace Heartbeat

variable {fuel : Nat} {seconds : Option Float} {q : QueueRef} {e : Engine}

theorem beatSafely_ok (fuel : Nat) (q : QueueRef) (e : Engine) :
    (beatSafely fuel q e).1 = .ok () ∨ (beatSafely fuel q e).1 = .error .exhausted := by
  unfold beatSafely
  match hr : Drive.heartbeat (Drive.calls fuel) fuel q e with
  | (.ok (), e') =>
    rw [Action.orElse_ok hr]
    exact .inl rfl
  | (.error f, e') =>
    by_cases hf : f = .exhausted
    · subst hf
      rw [Action.orElse_exhausted hr]
      exact .inr rfl
    · rw [Action.orElse_error hf hr]
      exact .inl rfl

/-- A turn of a queue that does not run changes nothing. -/
theorem beatSafely_of_still (h : (e.queue q).state ≠ .running) : beatSafely fuel q e = (.ok (), e) :=
  Action.orElse_ok (Drive.heartbeat_of_still h)

/-- The handoffs of a beat leave the registry and what it has alone. -/
theorem rosters_takenUpTo (ht : e.Tidy) (hr : e.Rostered) (seconds : Option Float) :
    (takenUpTo e seconds e.handoffs).Tidy ∧ e.Rosters (takenUpTo e seconds e.handoffs) := by
  let x : Engine := { e with
    heartbeatTime := e.heartbeatTime + seconds.getD (defaultSeconds e) * 1000.0
    beats := e.beats + 1 }
  have start : (Discipline.rostered e).Step e x :=
    Discipline.Rostered.hosting.world e.files e.webPlans e.clock e.bases e.attributes _ _
      ⟨⟨ht, trivial⟩, hr, .refl e⟩
  have taken : (Discipline.rostered e).Leaves x (fun _ _ => True) (takeOverAll x) :=
    (Discipline.Rostered.beating.takeOver x).run x start.1 ((Discipline.rostered e).refl x)
  have ok : takeOverAll x = (.ok (), takenUpTo e seconds e.handoffs) :=
    Prod.ext (taken_upTo ht seconds e.handoffs fun _ h => h).1 rfl
  rw [ok] at taken
  exact ⟨taken.1.1.1.1, taken.1.1.2⟩

/-- Turns of registered queues that are not cut off. -/
theorem rosters_beats (ht : e.Tidy) (hr : e.Rostered) {qs : List QueueRef} (hqs : ∀ q ∈ qs, q ∈ e.registry.values)
    (hx : (Action.each (beatSafely fuel) qs e).1 ≠ .error .exhausted) :
    (Action.each (beatSafely fuel) qs e).2.Tidy ∧ e.Rosters (Action.each (beatSafely fuel) qs e).2 := by
  have safe : (Discipline.rostered e).Safe e (Action.each (beatSafely fuel) qs) := by
    refine Discipline.safe_beats Discipline.Rostered.bookkeeping.emit Discipline.Rostered.turns.toPacing
      (Discipline.Rostered.calls_runsEntries fuel) fun q hq => ?_
    obtain ⟨p, hp, rfl⟩ := List.mem_map.1 (hqs q hq)
    exact ht.registry hp
  have inv := (safe.kept ⟨⟨ht, trivial⟩, hr, .refl e⟩).inv hx
  exact ⟨inv.1.1, inv.2⟩

end Heartbeat

/-! ## Starts -/

/-- An idle queue that is started is launched and has its first turn. -/
theorem Drive.start_of_idle {e : Engine} {q : QueueRef} (h : (e.queue q).state = .idle) :
    ∃ w, Queues.launch q e = (.ok (), w) ∧
      ∀ calls fuel, start calls fuel q e = heartbeat calls fuel q w := by
  obtain ⟨events, launch⟩ := e.launch_eq q
  refine ⟨_, launch, fun calls fuel => ?_⟩
  show (if (e.queue q).state = .idle then _ else pure () : Action Unit) e = _
  rw [if_pos h]
  exact Action.bind_ok launch

/-- A queue that is replaced leaves its place in the registry to the one that comes for it. -/
theorem Queues.replaceByTimed_listed {e : Engine} {q : QueueRef} (hq : q < e.queues.size) (d : Option Delay) :
    ∃ z w, replaceByTimed q d e = (.ok e.queues.size, z) ∧
      (∀ calls fuel, Drive.start calls fuel e.queues.size z = Drive.heartbeat calls fuel e.queues.size w) ∧
        w.registry.get? (Text.lower (e.queue q).id) = some e.queues.size ∧
          (e.registry.has (Text.lower (e.queue q).id) = true → w.registry.keys = e.registry.keys) ∧
            w.roster = w.registry :: e.roster := by
  obtain ⟨w, -, converts, z, replace, idle, launch⟩ := e.convert_eq hq d
  obtain ⟨w', launch', start⟩ := Drive.start_of_idle idle
  obtain rfl : w' = w := (Prod.mk.inj (launch'.symm.trans launch)).2
  refine ⟨z, w', replace, start, ?_, fun has => ?_, ?_⟩
  · rw [converts.registry]
    exact Keyed.get?_put_self _ _ _
  · rw [converts.registry, Keyed.keys_put, if_pos has]
  · unfold Engine.roster
    rw [converts.registries]

/-! ## The order is stable -/

/-- The tick gives each queue that `x` has registered one turn, in the order of the registry. -/
structure Heartbeat.GivesTurns (fuel : Nat) (x : Engine) (tick : Except Failure Unit × Engine) : Prop where
  calls : tick = Action.each (beatSafely fuel) x.registry.values x
  once : x.registry.values.Nodup
  all (q : QueueRef) : q ∈ x.registry.values ↔ x.registered? (x.queue q).id = some q

/-- After the turns of the queues `before`, and before those of the queues `after`, the queue has its turn.
It leads from `y` to `z`, and changes nothing if the queue does not run any more or was replaced. -/
structure Heartbeat.HasTurn (fuel : Nat) (x : Engine) (tick : Except Failure Unit × Engine)
    (before : List QueueRef) (q : QueueRef) (after : List QueueRef) (y z : Engine) : Prop where
  earlier : Action.each (beatSafely fuel) before x = (.ok (), y)
  turn : beatSafely fuel q y = (.ok (), z)
  rest : tick = Action.each (beatSafely fuel) after z
  later : x.Later y
  still : (y.queue q).state ≠ .running ∨ (y.queue q).replacedBy.isSome = true → z = y

namespace Engine

/-- The keys are registered in both engines, and the queues under them have the same order. -/
def SameOrder (x x' : Engine) (k l : String) : Prop :=
  ∃ q r q' r', (x.registry.get? k = some q ∧ x.registry.get? l = some r) ∧
    (x'.registry.get? k = some q' ∧ x'.registry.get? l = some r') ∧
      ([q, r].Sublist x.registry.values ↔ [q', r'].Sublist x'.registry.values)

/-- The queue has its first turn when it is started in `y`, and is none of those that `x` has registered. -/
structure StartsApart (x y : Engine) (q : QueueRef) : Prop where
  apart : q ∉ x.registry.values
  started : ∃ w, Queues.launch q y = (.ok (), w) ∧
    ∀ calls fuel, Drive.start calls fuel q y = Drive.heartbeat calls fuel q w

/-- The queue `t` is made to replace the queue `q` of `y`, which leads to `z`, and `w` is the engine when it
begins its first turn.  It is none of those that `x` has registered, and takes the place of `q`. -/
structure TakesPlace (x y : Engine) (q : QueueRef) (d : Option Delay) (t : QueueRef) (z w : Engine) : Prop where
  made : Queues.replaceByTimed q d y = (.ok t, z)
  apart : t ∉ x.registry.values
  started (calls : Calls) (fuel : Nat) : Drive.start calls fuel t z = Drive.heartbeat calls fuel t w
  listed : w.registry.get? (Text.lower (y.queue q).id) = some t
  place : y.registry.has (Text.lower (y.queue q).id) = true → w.registry.keys = y.registry.keys
  roster : w.roster = w.registry :: y.roster

end Engine

/-- When the handoffs of a beat are taken, each queue that is registered then has one turn, in the order of
the registry, and the turn changes nothing if the queue does not run any more or was replaced.  A queue that
is idle when it is started meanwhile, or is made to replace another one, is none of these: it has its first
turn when it is started.  It takes the place of the one that it replaces in the registry.  So at any later
beat, two ids that stayed registered have the order that they had. -/
theorem turns_ordered {config : Config} {modules : List CommandModule} {e : Engine}
    (h : Reachable (Host.create config modules) e) (fuel : Nat) (seconds : Option Float) :
    let x := Heartbeat.takenUpTo e seconds e.handoffs
    let tick := Heartbeat.tick fuel seconds e
    Heartbeat.GivesTurns fuel x tick ∧
      (tick.1 ≠ .error .exhausted →
        (∀ before q after, x.registry.values = before ++ q :: after →
          ∃ y z, Heartbeat.HasTurn fuel x tick before q after y z) ∧
        ∀ e' seconds', Reachable tick.2 e' →
          let x' := Heartbeat.takenUpTo e' seconds' e'.handoffs
          x.Later x' ∧ ∀ k l, x.StaysListed x' k → x.StaysListed x' l → x.SameOrder x' k l) ∧
      ∀ y, x.Later y → (∀ q, (y.queue q).state = .idle → x.StartsApart y q) ∧
        ∀ q d, q < y.queues.size → ∃ t z w, x.TakesPlace y q d t z w := by
  intro x tick
  obtain ⟨tidy, rostered, later⟩ := Heartbeat.rosters_takenUpTo h.tidy h.rostered seconds
  have calls : tick = Action.each (Heartbeat.beatSafely fuel) x.registry.values x :=
    Heartbeat.tick_eq h.tidy fuel seconds
  have called {q : QueueRef} (hq : q ∈ x.registry.values) : q < x.queues.size := by
    obtain ⟨p, hp, rfl⟩ := List.mem_map.1 hq
    exact tidy.registry hp
  refine ⟨⟨calls, rostered.values_nodup, fun q => rostered.mem_values_iff⟩, fun hx => ⟨?_, ?_⟩, fun y hy => ⟨?_, ?_⟩⟩
  · intro before q after split
    rw [calls, split] at hx
    obtain ⟨y, z, done, here, rest⟩ := Action.each_split (Heartbeat.beatSafely_ok fuel) hx
    have ran : (Action.each (Heartbeat.beatSafely fuel) before x).1 ≠ .error .exhausted := by rw [done]; nofun
    obtain ⟨-, rosters⟩ := Heartbeat.rosters_beats tidy rostered (fun p hp => split ▸ List.mem_append_left _ hp) ran
    rw [done] at rosters
    refine ⟨y, z, done, here, calls.trans (split ▸ rest), rosters.2, fun still => ?_⟩
    have stopped : (y.queue q).state ≠ .running := by
      refine still.elim (fun h => h) fun replaced hrun => ?_
      obtain ⟨p, hp⟩ := Option.isSome_iff_exists.1 replaced
      have ended := rosters.1.replaced hp
      rw [hrun] at ended
      cases ended
    exact (Prod.mk.inj ((Heartbeat.beatSafely_of_still stopped).symm.trans here)).2.symm
  · intro e' seconds' h' x'
    have ticked := Heartbeat.rosters_beats tidy rostered (fun q hq => hq) (calls ▸ hx)
    rw [← calls] at ticked
    have reached : Reachable (Host.create config modules) e' :=
      h'.runs.reachable (h.next fuel (.tick seconds) trivial hx)
    have since := h'.rosters ticked.1 ticked.2.1
    have taken := (Heartbeat.rosters_takenUpTo reached.tidy reached.rostered seconds').2
    exact ⟨ticked.2.2.trans (since.2.trans taken.2), fun k l hk hl => Engine.Later.order rostered taken.1 hk hl⟩
  · intro q idle
    refine ⟨fun hq => ?_, Drive.start_of_idle idle⟩
    exact rostered.started_of_mem hq (hy.idle (called hq) idle)
  · intro q d hq
    obtain ⟨z, w, replace, started, listed, place, roster⟩ := Queues.replaceByTimed_listed hq d
    exact ⟨y.queues.size, z, w, replace, fun ht => absurd (called ht) (Nat.not_lt.2 hy.queues), started, listed,
      place, roster⟩

/-- Two queues that wait, the first of which is replaced between two beats: the replacement has its turn
before the other queue. -/
theorem turns_ordered_replaced :
    let e₁ := ((Operation.runCommands "wait 5" none { id := some "a" } true).act 10 (Host.create {} [])).2
    let e := ((Operation.runCommands "wait 5" none { id := some "B" } true).act 10 e₁).2
    let x := Heartbeat.takenUpTo e none e.handoffs
    let tick := Heartbeat.tick 10 none e
    let e' := ((Operation.forceToTimed 1 (some ⟨5000.0, false⟩)).act 10 tick.2).2
    let x' := Heartbeat.takenUpTo e' none e'.handoffs
    (Reachable (Host.create {} []) e ∧ tick.1 ≠ .error .exhausted ∧ Reachable tick.2 e' ∧
      x.StaysListed x' "a" ∧ x.StaysListed x' "b") ∧
    (x.registry.values = [1, 3] ∧ x'.registry.values = [4, 3]) ∧
    x.SameOrder x' "a" "b" := by
  intro e₁ e x tick e' x'
  have run₁ : Reachable (Host.create {} []) e₁ :=
    .ok .first 10 (.runCommands "wait 5" none { id := some "a" } true) trivial (by decide +kernel)
  have run : Reachable (Host.create {} []) e :=
    .ok run₁ 10 (.runCommands "wait 5" none { id := some "B" } true) trivial (by decide +kernel)
  obtain ⟨⟨done, here, replaced⟩, ⟨history, stays⟩, before, after⟩ :
      (tick.1.toBool = true ∧ 1 < tick.2.queues.size ∧
        ((Operation.forceToTimed 1 (some ⟨5000.0, false⟩)).act 10 tick.2).1.toBool = true) ∧
      (x'.roster = [x'.registry] ++ x.roster ∧
        ∀ t ∈ [x'.registry] ++ [x.registry], t.has "a" = true ∧ t.has "b" = true) ∧
      x.registry.values = [1, 3] ∧ x'.registry.values = [4, 3] := by
    decide +kernel
  have ticked : tick.1 ≠ .error .exhausted := by
    intro cut
    rw [cut] at done
    cases done
  have later : Reachable tick.2 e' := .ok .first 10 (.forceToTimed 1 (some ⟨5000.0, false⟩)) here replaced
  have first : x.StaysListed x' "a" := ⟨_, history, fun t ht => (stays t ht).1⟩
  have second : x.StaysListed x' "b" := ⟨_, history, fun t ht => (stays t ht).2⟩
  exact ⟨⟨run, ticked, later, first, second⟩, ⟨before, after⟩,
    (((turns_ordered run 10 none).2.1 ticked).2 e' none later).2 "a" "b" first second⟩

end QueueScript
