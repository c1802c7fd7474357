import QueueScript.Proofs.Fuel
import QueueScript.Proofs.Isolation
import QueueScript.Proofs.Spawning
import QueueScript.Proofs.Pacing.Moments

/-!
# One entry of a script of local commands

A script is looked at all of whose commands touch nothing but their queue (`Compiled.Local`): those that
show, define and determine values, conditions, loops, stops, and commands that are unknown or malformed.
Its queue and its entries are made on a healthy engine, so they keep a discipline (`Discipline.tasking`),
which is the one of procedures without the guard that refuses other commands there.

What an entry of such a script does is described apart from turns and beats (`Drive.Passes`).  It does not
depend on how much fuel there is, it makes the queue come back from one entry more, and it is the same on
engines that are the same but for the pace of the queue.
-/

namespace QueueScript

/-! ## Local commands -/

/-- The command and all commands in its blocks touch nothing but their queue and its entries. -/
inductive Compiled.Local : Compiled → Prop where
  | mk {c : Compiled} : c.handler.behaviour.isLocal = true →
      (∀ bs, c.branches = some bs → ∀ b ∈ bs, ∀ c' ∈ b.body, Compiled.Local c') → Compiled.Local c

namespace Compiled.Local

theorem isLocal {c : Compiled} (h : c.Local) : c.handler.behaviour.isLocal = true := by
  cases h with
  | mk isLocal _ => exact isLocal

theorem enclosed {c c' : Compiled} (h : c.Local) (hc : c.Encloses c') : c'.Local := by
  obtain ⟨bs, hbs, b, hb, hc⟩ := hc
  cases h with
  | mk _ branches => exact branches bs hbs b hb c' hc

theorem loopMark {catalogue : Catalogue} (h : catalogue.Sound) (script : Option ScriptRef) (number : Int) :
    (buildFlat catalogue script "repeat" [Builtin.loopMark] number).1.Local := by
  rw [buildFlat_mark h.loops]
  refine .mk rfl fun bs hbs b hb => ?_
  cases hbs
  cases hb

end Compiled.Local

namespace Compiled

/-- Whether the command touches nothing but its queue and its entries, and so do the commands in its blocks,
which are not nested deeper than that. -/
def isLocalWithin : Nat → Compiled → Bool
  | 0, _ => false
  | depth + 1, c =>
    c.handler.behaviour.isLocal &&
      (c.branches.getD []).all fun b => b.body.all (isLocalWithin depth)

theorem Local.of_isLocalWithin {depth : Nat} {c : Compiled} (h : c.isLocalWithin depth = true) : c.Local := by
  induction depth generalizing c with
  | zero => cases h
  | succ depth ih =>
    obtain ⟨isLocal, blocks⟩ := Bool.and_eq_true_iff.1 h
    refine .mk isLocal fun bs hbs b hb c' hc' => ih ?_
    rw [hbs] at blocks
    exact List.all_eq_true.1 (List.all_eq_true.1 blocks b hb) c' hc'

end Compiled

/-- Only local commands may run on the queue. -/
def Charter.task : Charter where
  kind := Compiled.Local
  isProcedural := false
  branches h henc := h.enclosed henc
  mark h := .loopMark h
  isLocal _ h := h.isLocal

namespace Discipline

open Inside

/-- Healthy engines on which local commands run on the queue `q`, which is made on the engine `b`. -/
abbrev tasking (b : Engine) (q : QueueRef) : Discipline :=
  confined .task b q

variable {b e : Engine} {q : QueueRef} {l : List (EntryRef × Bool)}

/-- Only the moment when a queue comes back from an entry adds to what it is back from. -/
theorem aloof_outcomes (q : QueueRef) (l : List (EntryRef × Bool)) :
    Aloof (· = q) (·.outcomes q = l) where
  tables _ _ _ h _ := h
  queue _ _ h := h
  memory _ _ h := h
  base _ _ h := h
  determine {e p} v _ h := by
    rcases Queues.determine_cases p v e with ⟨i, -, done⟩ | ⟨-, done⟩ <;> rw [done]
    · exact h
    · exact h
  tell {_ _ _ l} _ _ _ h := by
    cases l with
    | finish n => exact h
    | notify label error =>
      cases error with
      | some message => exact h
      | none => exact h

/-- The discipline of local commands, and what the queue is back from. -/
abbrev recording (b : Engine) (q : QueueRef) (l : List (EntryRef × Bool)) : Discipline :=
  (tasking b q).also (·.outcomes q = l)

theorem blocks_recording : (recording b q l).Blocks :=
  (aloof_outcomes q l).blocks (fun hp => hp) Inside.blocks

/-- An entry of the queue is executed; meanwhile the queue does not come back from any. -/
theorem safe_record {calls : Calls} (hi : calls.Isolated) {n : EntryRef}
    (hn : (tasking b q).placed e q n) : (recording b q l).Safe e (Executor.execute calls n) := by
  have called : (recording b q l).ProcedureSafe calls := fun e₀ name args =>
    (procedureSafe hi e₀ name args).also fun e he _ h hr =>
      ((hi e name args he.1 hr).2.journal.outcomes he.2.here).trans h
  exact safe_executeLocal blocks_recording called (fun he => localPlaced he.1)
    (fun hl hn => hl.1.2.code hn.inner.live.1)
    (fun _ _ => .inl trivial) (rfl : q = q) hn

/-- The queue takes its first entry and begins it. -/
theorem step_taken {n : EntryRef} {rest : List EntryRef} (he : (tasking b q).inv e)
    (hp : (e.queue q).pending = n :: rest) :
    (tasking b q).Step e (e.begun q n rest) ∧ (tasking b q).placed (e.begun q n rest) q n := by
  let D := tasking b q
  let x := e.changeQueue q ({ · with pending := rest })
  have placed : D.placed e q n := serving.waiting he rfl (hp ▸ List.mem_cons_self)
  have taken : D.Step e x := blocks.pending (fun _ => rest) he rfl fun m hm =>
    .inl (hp ▸ List.mem_cons_of_mem n hm)
  have noted := taken.trans
    (note taken.1 (s := .began q n (x.queue q) ((x.queue q).last.map x.entry)) rfl)
  have begun := noted.trans (last noted.1 (D.own_mono noted.2 placed.1))
  exact ⟨begun, D.placed_mono begun.2 placed⟩

end Discipline

/-! ## One entry -/

/-- The engine with the queue `q`, made on the engine `b`, on which only local commands run. -/
structure Engine.OnTask (b : Engine) (q : QueueRef) (x : Engine) : Prop where
  inv : (Discipline.tasking b q).inv x
  known : ∀ p ∈ x.outcomes q, p.1 < x.entries.size

namespace Engine

variable {b x y : Engine} {q : QueueRef}

/-- What the queue is back from is shown as before. -/
theorem OnTask.shown (h : b.OnTask q x) (hk : x.Keeps y) :
    (x.outcomes q).reverse.map (fun p => (y.shownEntry p.1, p.2)) = x.executed q := by
  refine List.map_congr_left fun p hp => ?_
  unfold shownEntry
  rw [hk.code (h.known p (List.mem_reverse.1 hp))]

/-- The queue has not come back from an entry. -/
theorem OnTask.still (h : b.OnTask q x) (hs : (Discipline.recording b q (x.outcomes q)).Step x y) :
    b.OnTask q y ∧ y.executed q = x.executed q := by
  have same : y.outcomes q = x.outcomes q := hs.1.2
  refine ⟨⟨hs.1.1, fun p hp => ?_⟩, ?_⟩
  · rw [same] at hp
    exact Nat.lt_of_lt_of_le (h.known p hp) hs.2.1.2.size
  · unfold Engine.executed
    rw [same]
    exact h.shown hs.2.1.2

end Engine

namespace Drive

open Discipline

variable {b x y y' : Engine} {q : QueueRef}

/-- The queue may run an entry, which leads from the first engine to the second one. -/
inductive Passes (q : QueueRef) (x : Engine) : Engine → Prop where
  | mk {fuel : Nat} {n : EntryRef} {rest : List EntryRef} {ran : Bool} {z : Engine} :
      isActive x q = true → isWaiting x q = false → (x.queue q).pending = n :: rest →
        Executor.execute (calls fuel) n (x.begun q n rest) = (.ok ran, z) →
          Passes q x { z with journal := .returned q n ran :: z.journal }

namespace Passes

/-- What an entry does does not depend on how much fuel there is. -/
theorem unique (h : Passes q x y) (h' : Passes q x y') : y' = y := by
  obtain @⟨fuel, n, rest, ran, z, -, -, pending, ends⟩ := h
  obtain @⟨fuel', n', rest', ran', z', -, -, pending', ends'⟩ := h'
  obtain ⟨rfl, rfl⟩ := List.cons.inj (pending.symm.trans pending')
  have more {k : Nat} (hk : k ≤ max fuel fuel') := Executor.longer_execute (longer_calls hk) n
  have long := (more (Nat.le_max_left _ _)).eq_ok ends
  have long' := (more (Nat.le_max_right _ _)).eq_ok ends'
  obtain ⟨ran, rfl⟩ := Prod.mk.inj (long'.symm.trans long)
  obtain rfl := Except.ok.inj ran
  rfl

/-- The queue comes back from one entry more. -/
theorem onTask (h : Passes q x y) (hx : b.OnTask q x) :
    b.OnTask q y ∧ (tasking b q).le x y ∧ ∃ t, y.executed q = x.executed q ++ [t] := by
  obtain @⟨fuel, n, rest, ran, z, -, -, pending, ends⟩ := h
  obtain ⟨begun, placed⟩ := step_taken hx.inv pending
  have outcomes : (x.begun q n rest).outcomes q = x.outcomes q := List.filterMap_cons_none rfl
  have run := (safe_record (l := x.outcomes q) (isolated_calls fuel) placed).run _ ⟨begun.1, outcomes⟩
    ((tasking b q).refl _)
  rw [ends] at run
  obtain ⟨⟨⟨inv, same⟩, le⟩, -⟩ := run
  have kept : (tasking b q).Step x z := begun.trans ⟨inv, le⟩
  have noted := Inside.note kept.1 (s := .returned q n ran) rfl
  have returned := (z.outcomes_returned q n ran).trans (congrArg _ same)
  have size : n < z.entries.size := ((tasking b q).placed_mono le placed).1.inner.live.1
  refine ⟨⟨noted.1, fun p hp => ?_⟩, (kept.trans noted).2, (z.shownEntry n, ran), ?_⟩
  · rw [returned] at hp
    rcases List.mem_cons.1 hp with rfl | hp
    · exact size
    · exact Nat.lt_of_lt_of_le (hx.known p hp) kept.2.1.2.size
  · unfold Engine.executed
    rw [returned, List.reverse_cons, List.map_append]
    exact congrArg (· ++ [(z.shownEntry n, ran)]) (hx.shown (kept.trans noted).2.1.2)

end Passes

/-- The queue runs an entry that it has begun. -/
def returns (calls : Calls) (q : QueueRef) (n : EntryRef) : Action Bool := do
  let ran ← Executor.execute calls n
  note (.returned q n ran)
  pure ran

theorem runEntry_eq (calls : Calls) (q : QueueRef) (n : EntryRef) (rest : List EntryRef) (e : Engine) :
    runEntry calls q n (e.changeQueue q ({ · with pending := rest })) = returns calls q n (e.begun q n rest) :=
  rfl

theorem returns_error {calls : Calls} {n : EntryRef} {f : Failure} {e z : Engine}
    (h : Executor.execute calls n e = (.error f, z)) : returns calls q n e = (.error f, z) :=
  Action.bind_error h

theorem returns_ok {calls : Calls} {n : EntryRef} {ran : Bool} {e z : Engine}
    (h : Executor.execute calls n e = (.ok ran, z)) :
    returns calls q n e = (.ok ran, { z with journal := .returned q n ran :: z.journal }) :=
  Action.bind_ok h

/-- On engines that are the same but for the pace, an entry ends alike. -/
theorem returns_paced {e : Engine} {n : EntryRef} {rest : List EntryRef} (hx : b.OnTask q x)
    (h : x.SameButPace q e) (hp : (x.queue q).pending = n :: rest) (fuel : Nat) :
    Paired.Ends (Engine.SameButPace q) Eq (returns (calls fuel) q n (x.begun q n rest))
      (returns (calls fuel) q n (e.begun q n rest)) := by
  obtain ⟨begun, placed⟩ := step_taken hx.inv hp
  have hO := Paired.owning_pace q
  exact Paired.ends_returns hO (paired_calls hO fuel) (isolated_calls fuel) (h.begun n rest) begun.1 placed
    begun.1.2.here fun _ hn => by cases hn

namespace Passes

/-- An entry leads the first one of such engines to where it leads the second one. -/
theorem of_same {e : Engine} {n : EntryRef} {rest : List EntryRef} (hx : b.OnTask q x)
    (h : x.SameButPace q e) (ha : isActive x q = true) (hw : isWaiting x q = false)
    (hp : (x.queue q).pending = n :: rest) (fuel : Nat) :
    (∃ e₁, returns (calls fuel) q n (e.begun q n rest) = (.error .exhausted, e₁)) ∨
      ∃ ran y e₁, returns (calls fuel) q n (e.begun q n rest) = (.ok ran, e₁) ∧ Passes q x y ∧
        y.SameButPace q e₁ := by
  have ends := returns_paced hx h hp fuel
  rcases hr : Executor.execute (calls fuel) n (x.begun q n rest) with ⟨f | ran, z⟩
  · obtain rfl := (Executor.sure_execute (calls fuel) n).on _ f (congrArg Prod.fst hr)
    rw [returns_error hr] at ends
    generalize returns (calls fuel) q n (e.begun q n rest) = r at ends ⊢
    obtain ⟨f' | ran', e₁⟩ := r
    · exact .inl ⟨e₁, by rw [ends.1]⟩
    · exact ends.elim
  · rw [returns_ok hr] at ends
    obtain ⟨e₁, back, same⟩ := ends.ok
    exact .inr ⟨ran, _, e₁, back, .mk ha hw hp hr, same⟩

end Passes

end Drive

end QueueScript
