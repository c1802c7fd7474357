import QueueScript.Proofs.Operations
import QueueScript.Proofs.Tidy.Laws

/-!
# Reachable engines are tidy

Every operation of a host keeps an engine tidy, and with it any property of the history that running
entries keeps.
-/

namespace QueueScript

/-- A new engine has no queues and no entries yet. -/
structure Engine.IsNew (e : Engine) : Prop where
  queues : e.queues = #[]
  entries : e.entries = #[]
  scripts : e.scripts = #[]
  registry : e.registry = []
  registries : e.registries = []
  inFlight : e.inFlight = []
  handoffs : e.handoffs = []
  journal : e.journal = []

theorem Host.addModule_isNew {e : Engine} (h : e.IsNew) (m : CommandModule) :
    (Host.addModule e m).IsNew :=
  ⟨h.queues, h.entries, h.scripts, h.registry, h.registries, h.inFlight, h.handoffs, h.journal⟩

theorem Host.create_isNew (config : Config) (modules : List CommandModule) :
    (Host.create config modules).IsNew := by
  have add (ms : List CommandModule) {e : Engine} (h : e.IsNew) :
      (ms.foldl Host.addModule e).IsNew := by
    induction ms generalizing e with
    | nil => exact h
    | cons m rest ih => exact ih (Host.addModule_isNew h m)
  exact add _ ⟨rfl, rfl, rfl, rfl, rfl, rfl, rfl, rfl⟩

theorem Engine.IsNew.queue_eq {e : Engine} (h : e.IsNew) (q : QueueRef) : e.queue q = default :=
  e.queue_of_size_le (by simp [h.queues])

theorem Engine.IsNew.entry_eq {e : Engine} (h : e.IsNew) (n : EntryRef) : e.entry n = default :=
  e.entry_of_size_le (by simp [h.entries])

theorem Engine.IsNew.based {e : Engine} (h : e.IsNew) : e.Based := by
  have none (n : EntryRef) : ¬ e.IsBase n := by
    rintro (⟨i, ns, hb, -⟩ | ⟨m, hm⟩)
    · unfold script at hb
      rw [h.scripts] at hb
      cases hb
    · rw [h.entry_eq] at hm
      cases hm
  exact ⟨fun hn => absurd hn (none _), fun hn => absurd hn (none _), fun n => by rw [h.entry_eq]; rfl⟩

theorem Engine.IsNew.tidy {e : Engine} (h : e.IsNew) : e.Tidy where
  pending q n hn := by rw [h.queue_eq] at hn; cases hn
  last hl := by rw [h.queue_eq] at hl; cases hl
  listeners hl := by rw [h.queue_eq] at hl; cases hl
  replacedBy hp := by rw [h.queue_eq] at hp; cases hp
  residing hm := by rw [h.entry_eq] at hm; cases hm
  owner hm := by rw [h.entry_eq] at hm; cases hm
  registry hk := by rw [h.registry] at hk; cases hk
  inFlight w hw := by rw [h.inFlight] at hw; cases hw
  handoffs hh := by rw [h.handoffs] at hh; cases hh
  based := h.based

namespace Discipline.Tidy

variable {P : List QueueScript.Step → List Handoff → Prop} {R : List QueueScript.Step → Prop}
  {e₀ e : Engine}

/-! ## Handing over -/

theorem safe_handOver {n : EntryRef} (hn : e₀.Live n) (outcome : Outcome) :
    (tidy P).Safe e₀ (Background.handOver n outcome) :=
  Discipline.safe_handOver bookkeeping hn (fun _ he => he) outcome

theorem setHandoffs {handoffs : List Handoff} (he : (tidy fun j _ => R j).inv e)
    (hh : ∀ n o, Handoff.settle n o ∈ handoffs → e.Live n) :
    (tidy fun j _ => R j).Step e { e with handoffs } :=
  ⟨⟨he.1.setHandoffs hh, he.2⟩, Engine.grows_of_tables rfl rfl rfl⟩

/-- A task of the host is queued. -/
theorem queueTask (he : (tidy fun j _ => R j).inv e) (label : String) (count : Nat)
    (error : Option String) (again : Bool) :
    (tidy fun j _ => R j).Step e
      { e with handoffs := e.handoffs ++ [.task label count error again] } := by
  refine setHandoffs he fun n o h => ?_
  rcases List.mem_append.1 h with h | h
  · exact he.1.handoffs h
  · cases List.mem_singleton.1 h

theorem taking : (tidy fun j _ => R j).Taking where
  toBookkeeping := bookkeeping
  cut _ he := he
  settles he h := he.1.handoffs h
  clears he := setHandoffs he fun _ _ h => absurd h List.not_mem_nil
  fires _ _ he := aside he ⟨rfl, rfl, fun _ h => .inl h, rfl, rfl, rfl, fun _ => rfl⟩
  asks label count he := queueTask he label count none false

/-! ## Operations -/

theorem hosting : (tidy P).Hosting where
  toOutreach := outreach
  mine_iff := Iff.rfl
  register he hr _ := aside he ⟨rfl, rfl, fun _ h => .inl h, rfl, rfl, rfl, Engine.base_push _ hr⟩
  world _ _ _ _ _ _ _ he := aside he ⟨rfl, rfl, fun _ h => .inl h, rfl, rfl, rfl, fun _ => rfl⟩
  pause q he := soft q he (.of_same fun x => by split <;> exact ⟨rfl, rfl, rfl, rfl, rfl⟩)
  resume q he := soft q he (.of_same fun x => by split <;> exact ⟨rfl, rfl, rfl, rfl, rfl⟩)
  live he hp := he.1.registry hp
  hear _ _ _ he := (closing.safe_onComplete fun _ h => by cases h).kept he
  inject he hq hs _ := kept_inject turns.toTurning blocks he hq hs

theorem beating : (tidy fun j _ => R j).Beating where
  toHosting := hosting
  schedule label error again he := queueTask he label 0 error again
  settle {e w i} he hw := by
    have hmem : w ∈ e.inFlight := List.mem_of_getElem? hw
    obtain ⟨files, clock, webPlans, webCalls, h⟩ :=
      Background.perform_eq { e with inFlight := e.inFlight.eraseIdx i } w.job
    unfold Background.settleOne
    dsimp only
    rw [h]
    refine ⟨⟨⟨he.1.pending, he.1.last, he.1.listeners, he.1.replacedBy, he.1.residing, he.1.owner,
      he.1.registry, fun v hv => he.1.inFlight v (List.mem_of_mem_eraseIdx hv), fun {n o} hh => ?_,
      he.1.based.of_tables rfl rfl⟩, he.2⟩,
      Engine.grows_of_tables rfl rfl rfl⟩
    rcases List.mem_append.1 hh with hh | hh
    · exact he.1.handoffs hh
    · cases List.mem_singleton.1 hh
      exact he.1.inFlight w hmem
  takeOver _ := safe_takeOverAll taking

end Discipline.Tidy

namespace Engine.Tidy

variable {e : Engine} (he : e.Tidy)

/-- Nothing is asked of the history. -/
theorem notes : Discipline.Tidy.Notes fun _ _ => True :=
  ⟨fun _ _ _ _ _ => trivial, fun _ _ _ _ => trivial⟩

include he

/-- Executing an entry keeps an engine tidy, unless it is cut off. -/
theorem execute {n : EntryRef} (hn : e.Live n) (fuel : Nat)
    (hr : (Executor.execute (Drive.calls fuel) n e).1 ≠ .error .exhausted) :
    (Executor.execute (Drive.calls fuel) n e).2.Tidy := by
  have calls := Discipline.Tidy.calls_safe notes fuel
  have executed := Discipline.gives_executor Discipline.Tidy.outreach Discipline.Tidy.blocks calls.1 calls.2 hn
  exact ((executed.kept ⟨he, trivial⟩).inv hr).1

/-- Work that settles keeps an engine tidy. -/
theorem settleAt (i : Nat) : (Background.settleAt i e).2.Tidy :=
  ((Discipline.kept_act (Discipline.Tidy.beating (R := fun _ => True)) (Discipline.Tidy.calls_runsEntries notes)
    0 (.settle i) ⟨he, trivial⟩ trivial).inv nofun).1

end Engine.Tidy

/-- Reachable engines are tidy. -/
theorem Reachable.tidy {config : Config} {modules : List CommandModule} {e : Engine}
    (h : Reachable (Host.create config modules) e) : e.Tidy :=
  (Discipline.inv_reachable (Discipline.Tidy.beating (R := fun _ => True))
    (Discipline.Tidy.calls_runsEntries Engine.Tidy.notes) ⟨(Host.create_isNew config modules).tidy, trivial⟩ h).1

end QueueScript
