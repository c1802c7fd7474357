import QueueScript.Proofs.Structured.Apart

/-!
# Turn after turn

A queue that is the only live one takes step after step: after an entry that ran it goes on at once,
and after an entry that failed it goes on with the next beat.  `Leads` says which engines follow on
each other in this way, without counting turns or steps.  Every step puts something into the history
of executions, so a history that is shorter than the fuel of a turn bounds the steps of every turn.
-/

namespace QueueScript.Structured

variable {fuel : Nat} {seconds : Option Float} {q : QueueRef} {e e' e'' E : Engine}

/-- An instant queue is running, and a beat does nothing but give it its turn. -/
structure Alone (q : QueueRef) (e : Engine) : Prop where
  tidy : e.Tidy
  state : (e.queue q).state = .running
  pace : (e.queue q).pace = .instant
  registry : ∃ key, e.registry = [(key, q)]
  handoffs : e.handoffs = []

/-- Steps of a queue and beats lead from one engine to another. -/
inductive Leads (fuel : Nat) (seconds : Option Float) (q : QueueRef) : Engine → Engine → Prop where
  | refl (e : Engine) : Leads fuel seconds q e e
  | step {e e₁ e' : Engine} : Drive.step (Drive.calls fuel) q e = (.ok true, e₁) →
      e.journal.length < e₁.journal.length → Leads fuel seconds q e₁ e' → Leads fuel seconds q e e'
  | beat {e e₁ e' : Engine} : Drive.step (Drive.calls fuel) q e = (.ok false, e₁) →
      e.journal.length < e₁.journal.length → Alone q e₁ →
      Leads fuel seconds q (Heartbeat.opened e₁ seconds) e' → Leads fuel seconds q e e'

theorem Leads.trans (h : Leads fuel seconds q e e') (h' : Leads fuel seconds q e' e'') :
    Leads fuel seconds q e e'' := by
  induction h with
  | refl e => exact h'
  | step hs hj _ ih => exact .step hs hj (ih h')
  | beat hs hj ha _ ih => exact .beat hs hj ha (ih h')

theorem Leads.journal (h : Leads fuel seconds q e e') : e.journal.length ≤ e'.journal.length := by
  induction h with
  | refl e => exact Nat.le_refl _
  | step _ hj _ ih => exact Nat.le_trans (Nat.le_of_lt hj) ih
  | beat _ hj _ _ ih => exact Nat.le_trans (Nat.le_of_lt hj) ih

/-- A beat gives the queue its turn. -/
theorem tick_alone (h : Alone q e)
    (hturn : Drive.advance (Drive.calls fuel) fuel q (Heartbeat.opened e seconds) = (.ok (), e')) :
    Heartbeat.tick fuel seconds e = (.ok (), e') := by
  obtain ⟨key, hr⟩ := h.registry
  have hbeat : Drive.heartbeat (Drive.calls fuel) fuel q (Heartbeat.opened e seconds) =
      (.ok (), e') :=
    (Drive.heartbeat_of_instant (e := Heartbeat.opened e seconds) h.state h.pace).trans hturn
  have hsafe : Heartbeat.beatSafely fuel q (Heartbeat.opened e seconds) = (.ok (), e') :=
    Action.orElse_ok hbeat
  rw [Heartbeat.tick_eq h.tidy, h.handoffs]
  show Action.each (Heartbeat.beatSafely fuel) (e.registry.map (·.2)) (Heartbeat.opened e seconds) = _
  rw [hr]
  exact Action.bind_ok hsafe

theorem advance_true {calls : Calls} {k : Nat} (h : Drive.step calls q e = (.ok true, e')) :
    Drive.advance calls (k + 1) q e = Drive.advance calls k q e' := by
  unfold Drive.advance
  rw [Action.repeatWhile]
  simp only [h]

theorem advance_false {calls : Calls} {k : Nat} (h : Drive.step calls q e = (.ok false, e')) :
    Drive.advance calls (k + 1) q e = (.ok (), e') := by
  unfold Drive.advance
  rw [Action.repeatWhile]
  simp only [h]

/-- Where steps and beats lead to an engine on which the queue ends its turn for good, enough fuel for
the history gets it there in a number of beats. -/
theorem Leads.run (h : Leads fuel seconds q e e')
    (hend : Drive.step (Drive.calls fuel) q e' = (.ok false, E))
    (hfuel : e'.journal.length < fuel) (k : Nat) (hk : e'.journal.length < k + e.journal.length) :
    ∃ x beats, Drive.advance (Drive.calls fuel) k q e = (.ok (), x) ∧
      Heartbeat.ticks fuel seconds beats x = (.ok (), E) := by
  induction h generalizing k with
  | refl e =>
    obtain ⟨k, rfl⟩ : ∃ j, k = j + 1 := ⟨k - 1, by omega⟩
    exact ⟨E, 0, advance_false hend, rfl⟩
  | step hs hj hl ih =>
    have hle := hl.journal
    obtain ⟨k, rfl⟩ : ∃ j, k = j + 1 := ⟨k - 1, by omega⟩
    obtain ⟨x, beats, hx, hb⟩ := ih hend hfuel k (by omega)
    exact ⟨x, beats, (advance_true hs).trans hx, hb⟩
  | @beat _ e₁ e' hs hj ha hl ih =>
    have hle : e₁.journal.length ≤ e'.journal.length := hl.journal
    obtain ⟨k, rfl⟩ : ∃ j, k = j + 1 := ⟨k - 1, by omega⟩
    -- The turn is over; the rest comes with the next beats, whose turns have all the fuel.
    obtain ⟨x, beats, hx, hb⟩ := ih hend hfuel fuel (Nat.lt_add_right _ hfuel)
    refine ⟨_, beats + 1, advance_false hs, ?_⟩
    exact (Action.bind_ok (tick_alone ha hx)).trans hb

end QueueScript.Structured
