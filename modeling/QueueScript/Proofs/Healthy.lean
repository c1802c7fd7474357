import QueueScript.Proofs.Wakeful.Laws

/-!
# The discipline of healthy engines

An engine is healthy when all its references are in range and all its commands are sound.  Unlike a
wakeful engine it may be in the middle of anything, so this discipline says the least that holds
between any two steps.
-/

namespace QueueScript

namespace Engine

/-- All references are in range, and all commands are sound. -/
structure Healthy (e : Engine) : Prop where
  tidy : e.Tidy
  code {n : EntryRef} : n < e.entries.size → (e.entry n).code.Sound
  catalogue : e.catalogue.Sound

/-- An engine stays healthy where entries are kept and the rest is tidy. -/
theorem Healthy.keeps {e e' : Engine} (h : e.Healthy) (hk : e.Keeps e') (ht : e'.Tidy) :
    e'.Healthy where
  tidy := ht
  code {n} hn := by
    by_cases hs : n < e.entries.size
    · rw [hk.code hs]
      exact h.code hs
    · exact hk.made (Nat.le_of_not_lt hs) hn
  catalogue := by
    rw [hk.catalogue]
    exact h.catalogue

/-- A wakeful engine is healthy. -/
theorem Wakeful.healthy {e : Engine} {X : List EntryRef} (h : e.Wakeful X) (ht : e.Tidy) :
    e.Healthy :=
  ⟨ht, h.code, h.catalogue⟩

end Engine

namespace Discipline

/-- Healthy engines. -/
def healthy : Discipline where
  inv e := e.Healthy
  le e e' := e.Grows e' ∧ e.Keeps e'
  cut _ := True
  own e n := e.Live n
  mine e q := q < e.queues.size
  fresh e q := q < e.queues.size
  placed e _ n := e.Live n
  fits c := c.Sound
  cared _ _ := True
  marked _ _ := True
  refl e := ⟨.refl e, .refl e⟩
  trans h h' := ⟨h.1.trans h'.1, h.2.trans h'.2⟩
  own_mono h hn := h.1.live hn
  mine_mono h hq := Nat.lt_of_lt_of_le hq h.1.queues
  fresh_mono h hq := Nat.lt_of_lt_of_le hq h.1.queues
  placed_mono h hn := h.1.live hn
  placed_own h := h
  cared_mono _ _ := trivial
  marked_mono _ _ := trivial
  marked_cared _ := trivial

instance : healthy.Lenient :=
  ⟨fun _ => trivial⟩

instance : healthy.Open :=
  ⟨fun _ => trivial, fun _ _ => trivial, fun _ _ _ => trivial⟩

namespace Healthy

open Wakeful (anyTidy)

variable {α : Type} {e₀ e e' : Engine} {q : QueueRef}

/-- A tidy step that keeps entries is a step. -/
theorem step (he : e.Healthy) (ht : anyTidy.Step e e') (hk : e.Keeps e') : healthy.Step e e' :=
  ⟨he.keeps hk ht.1.1, ht.2, hk⟩

/-- An action that keeps engines tidy keeps them healthy if all entries keep their commands. -/
theorem gives_keeps {a : Action α} {Q : α → Engine → Prop} (ht : anyTidy.Gives e₀ a Q)
    (hk : ∀ e : Engine, e.Keeps (a e).2) : healthy.Gives e₀ a Q := by
  refine ⟨fun e he hl => ?_⟩
  have hleaves := ht.run e ⟨he.tidy, trivial⟩ hl.1
  have hkeeps := hk e
  generalize a e = r at hleaves hkeeps
  obtain ⟨r, e'⟩ := r
  cases r with
  | ok x => exact ⟨step he hleaves.1 hkeeps, hleaves.2⟩
  | error f =>
    cases f with
    | exhausted => trivial
    | _ => exact step he hleaves hkeeps

/-- The change of an entry that leaves its mark alone is a step. -/
theorem entry (n : EntryRef) {f : Entry → Entry} (he : e.Healthy)
    (ht : anyTidy.Step e (e.changeEntry n f)) (hs : Entry.Steadies f)
    (hf : ∀ x, (f x).isFinished = x.isFinished) : healthy.Step e (e.changeEntry n f) :=
  step he ht (e.unmoved_changeEntry n hs fun x h => (hf x).trans h).toKeeps

/-- A queue that ends tells its listeners, and entries keep their commands. -/
theorem keeps_complete (e : Engine) (q : QueueRef) : e.Keeps (Queues.complete q e).2 := by
  obtain ⟨x, hx, heq⟩ := Wakeful.complete_eq e q
  rw [heq]
  exact (hx.toKeeps.trans (x.keeps_changeQueue q _)).trans
    ((Action.still_each (Action.still_tell q)).run _).toKeeps

/-- A queue that ends keeps all entries. -/
theorem keeps_end (e : Engine) (q : QueueRef) (f : Queue → Queue) :
    e.Keeps ((do
      unless (← Action.queue q).state.isEnd do
        Action.changeQueue q f
        Queues.complete q : Action Unit) e).2 := by
  show e.Keeps ((if (e.queue q).state.isEnd then pure () else
    Action.changeQueue q f >>= fun _ => Queues.complete q : Action Unit) e).2
  split
  · exact .refl e
  · exact (e.keeps_changeQueue q f).trans (keeps_complete _ q)

/-- A step is put into the history. -/
theorem note (he : e.Healthy) (s : QueueScript.Step) :
    healthy.Step e { e with journal := s :: e.journal } :=
  step he ⟨⟨he.tidy.note s, trivial⟩, Engine.grows_of_tables rfl rfl rfl⟩
    (Engine.keeps_of_tables rfl rfl)

/-- A queue is about to run an entry. -/
theorem last (he : e.Healthy) (q : QueueRef) {n : EntryRef} (hn : e.Live n) :
    healthy.Step e (e.changeQueue q ({ · with last := some n })) := by
  refine step he ⟨⟨he.tidy.changeQueue q (fun _ h => .inl h) (fun m h => .inr ?_)
    (fun _ h => .inl h) fun _ h => .inl h, trivial⟩, Engine.grows_changeQueue _ _ fun _ => rfl⟩
    (Engine.keeps_changeQueue _ _ _)
  cases h
  exact hn

/-- What every command does leaves an engine healthy. -/
theorem bookkeeping : healthy.Bookkeeping where
  emit event s he := step he (Tidy.emit event s ⟨he.tidy, trivial⟩)
    ((Action.still_emit event s).run _).toKeeps
  jot {e n f} he hn hf := by
    refine entry n he (Tidy.bookkeeping.jot ⟨he.tidy, trivial⟩ hn hf) hf.steadies fun x => ?_
    obtain ⟨_, _, _, h⟩ := hf x
    rw [h]
  finish {e n} he hn := ⟨step he (Tidy.bookkeeping.finish ⟨he.tidy, trivial⟩ hn).1
    ((Action.still_finish n).run e).toKeeps, trivial⟩
  memory f he hq := step he (Tidy.bookkeeping.memory f ⟨he.tidy, trivial⟩ hq)
    (Engine.keeps_of_tables rfl rfl)
  residing he _ h := he.tidy.residingQueue_lt h
  eased_mono _ _ _ := .inl trivial

/-- Base entries stay as they were made. -/
theorem entry_of_isBase (he : e.Healthy) (h : healthy.Step e e') {n : EntryRef} (hn : e.IsBase n) :
    e'.entry n = e.entry n := by
  have lt := he.tidy.based.lt hn
  rw [h.1.tidy.based.blank (h.2.1.kept hn), he.tidy.based.blank hn, h.2.2.code lt, h.2.2.blocks lt]

/-- The commands that run blocks leave an engine healthy. -/
theorem blocks : healthy.Blocks where
  toBookkeeping := bookkeeping
  based he := he.tidy.based
  stock_mono h hn := hn.mono h.1 (h.2.code hn.lt)
  grow {e xs ns} he hx hc := by
    obtain ⟨grown, live⟩ := (Tidy.blocks (P := fun _ _ => True)).grow ⟨he.tidy, trivial⟩ hx fun _ _ => trivial
    exact ⟨step he grown (e.unmoved_grown hc).toKeeps, live⟩
  place he hn hr hq := by
    obtain ⟨step, put⟩ := (Tidy.blocks (P := fun _ _ => True)).place ⟨he.tidy, trivial⟩ hn hr hq
    exact ⟨entry _ he step ⟨fun _ => rfl, fun _ => rfl⟩ fun _ => rfl, put⟩
  belong he hn ho :=
    entry _ he (Tidy.blocks.belong ⟨he.tidy, trivial⟩ hn ho) ⟨fun _ => rfl, fun _ => rfl⟩ fun _ => rfl
  loop s he hn :=
    entry _ he (Tidy.blocks.loop s ⟨he.tidy, trivial⟩ hn) ⟨fun _ => rfl, fun _ => rfl⟩ fun _ => rfl
  hurry b he hn :=
    entry _ he (Tidy.blocks.hurry b ⟨he.tidy, trivial⟩ hn) ⟨fun _ => rfl, fun _ => rfl⟩ fun _ => rfl
  owner he _ h := he.tidy.owner h
  pending f he hq h := step he (Tidy.blocks.pending f ⟨he.tidy, trivial⟩ hq h)
    (Engine.keeps_changeQueue _ _ _)
  determine v _ := gives_keeps (Tidy.closing.safe_determine v) fun e =>
    ((Action.still_determine _ v).run e).toKeeps
  stop {_ q} _ := gives_keeps Tidy.closing.safe_stop fun e => keeps_end e q _
  fits_code he hn := he.code hn.1
  fits_branch hc h := hc.enclosed h
  fits_mark script number he := he.catalogue.buildFlat script _ _ number

/-- A queue that starts leaves an engine healthy. -/
theorem safe_launch (hq : q < e₀.queues.size) : healthy.Safe e₀ (Queues.launch q) :=
  gives_keeps (Tidy.safe_launch hq) fun e => ((Action.still_launch q).run e).toKeeps

/-- Queues run and leave an engine healthy. -/
theorem running : healthy.Running where
  toFilling := blocks.filling
  stop hq := blocks.stop hq
  keep {e _ _ _} he hnone ready hc :=
    step he (Tidy.turns.keep ⟨he.tidy, trivial⟩ hnone ready fun _ _ => trivial)
      ((e.unmoved_grown (ready.handed_down .enclosed hc)).trans (Engine.unmoved_keepBase _ _ _)).toKeeps
  fits_base he h _ hm := he.code (he.tidy.based.lt (.inl ⟨_, _, h, hm⟩))
  launch he hq _ := (safe_launch hq).run _ he (healthy.refl _)
  finishQueue {_ q} _ := gives_keeps Tidy.closing.safe_finish fun e => keeps_end e q _
  delay d he hq := step he (Tidy.turns.delay d ⟨he.tidy, trivial⟩ hq) (Engine.keeps_changeQueue _ _ _)
  waiting he _ h := he.tidy.pending _ _ h
  pace hl hq := ⟨Nat.lt_of_lt_of_le hq hl.1.queues, hl.1.pace hq⟩
  fits_source script _ he _ := he.catalogue.buildLines script _
  reads_script _ _ := trivial

/-- Turns of queues leave an engine healthy. -/
theorem turns : healthy.Turns where
  toRunning := running
  counters t he := step he (Tidy.turns.counters t ⟨he.tidy, trivial⟩)
    (Engine.keeps_of_tables rfl rfl)
  make {e x} he hx hm := ⟨step he (Tidy.turns.make ⟨he.tidy, trivial⟩ hx hm).1
    (e.unmoved_withQueue hx).toKeeps, by simp [healthy], by simp [healthy]⟩

/-- A queue is replaced, and entries keep their commands. -/
theorem gives_replace (d : Option Delay) (hq : q < e₀.queues.size) :
    healthy.Gives e₀ (Queues.replaceByTimed q d) fun t e => t < e.queues.size := by
  refine ⟨fun e he hl => ?_⟩
  have hleaves := (Tidy.gives_replaceByTimed (P := fun _ _ => True) d hq).run e ⟨he.tidy, trivial⟩ hl.1
  obtain ⟨y, hy, -, hz⟩ := Wakeful.replaceByTimed_eq d he.tidy q
  have hkeeps : e.Keeps (Queues.replaceByTimed q d e).2 := by
    refine hy.toKeeps.trans (Engine.Keeps.trans ?_ hz.toKeeps)
    exact (y.keeps_changeQueue _ _).trans (Engine.keeps_changeQueue _ _ _)
  generalize Queues.replaceByTimed q d e = r at hleaves hkeeps
  obtain ⟨r, e'⟩ := r
  cases r with
  | ok x => exact ⟨step he hleaves.1 hkeeps, hleaves.2⟩
  | error f =>
    cases f with
    | exhausted => trivial
    | _ => exact step he hleaves hkeeps

/-- A listener keeps all entries. -/
theorem keeps_onComplete (e : Engine) (q : QueueRef) (l : Listener) :
    e.Keeps (Queues.onComplete q l e).2 := by
  show e.Keeps ((if (e.queue q).state.isEnd then _ else _ : Action Unit) e).2
  split
  · exact ((Action.still_tell q l).run e).toKeeps
  · exact e.keeps_changeQueue q _

/-- The commands that reach beyond their queue leave an engine healthy. -/
theorem outreach : healthy.Outreach where
  toTurns := turns
  replace d hq := gives_replace d hq
  work job he hn := ⟨step he (Tidy.outreach.work job ⟨he.tidy, trivial⟩ hn).1
    (Engine.keeps_of_tables rfl rfl), trivial⟩
  perform {e} job he := by
    refine step he (Tidy.outreach.perform job ⟨he.tidy, trivial⟩) ?_
    obtain ⟨files, clock, webPlans, webCalls, h⟩ := Background.perform_eq e job
    rw [h]
    exact Engine.keeps_of_tables rfl rfl
  listen _ hn := (gives_keeps (Tidy.closing.safe_onComplete fun _ h => by cases h; exact hn)
    fun e => keeps_onComplete e _ _).mono fun _ _ _ _ _ => trivial
  registered he h := he.tidy.registered?_lt h
  unheld _ _ _ := .inl trivial

/-! ## Hosts and beats -/

/-- The host listens to a queue. -/
theorem safe_notify (label : String) (error : Option String) :
    healthy.Safe e₀ (Queues.onComplete q (.notify label error)) :=
  gives_keeps (Tidy.closing.safe_onComplete fun _ h => by cases h) fun e => keeps_onComplete e q _

/-- The host leaves an engine healthy. -/
theorem hosting : healthy.Hosting where
  toOutreach := outreach
  mine_iff := Iff.rfl
  register he hr hs := step he (Tidy.hosting.register ⟨he.tidy, trivial⟩ hr hs)
    (Engine.keeps_of_tables rfl rfl)
  world files webPlans clock bases attributes heartbeatTime beats he := step he
    (Tidy.hosting.world files webPlans clock bases attributes heartbeatTime beats ⟨he.tidy, trivial⟩)
    (Engine.keeps_of_tables rfl rfl)
  pause q he := step he (Tidy.hosting.pause q ⟨he.tidy, trivial⟩) (Engine.keeps_changeQueue _ _ _)
  resume q he := step he (Tidy.hosting.resume q ⟨he.tidy, trivial⟩) (Engine.keeps_changeQueue _ _ _)
  live he hp := he.tidy.registry hp
  hear {e} q label error he := by
    exact (safe_notify label error).kept he
  inject he hq hs _ := kept_inject turns.toTurning blocks he hq hs

/-- Everything that was handed over is done, and entries keep their commands. -/
theorem safe_takeOverAll : healthy.Safe e₀ Heartbeat.takeOverAll := by
  refine gives_keeps (Discipline.safe_takeOverAll (Tidy.taking (R := fun _ => True))) fun e => ?_
  have taken : e.Keeps { e with handoffs := [] } := Engine.keeps_of_tables rfl rfl
  exact taken.trans ((Action.still_each Heartbeat.still_takeOverSafely).run _).toKeeps

/-- Beats leave an engine healthy. -/
theorem beating : healthy.Beating where
  toHosting := hosting
  schedule label error again he := step he
    (Wakeful.anyTidy_beating.schedule label error again ⟨he.tidy, trivial⟩)
    (Engine.keeps_of_tables rfl rfl)
  settle {e w i} he hw := by
    refine step he (Wakeful.anyTidy_beating.settle ⟨he.tidy, trivial⟩ hw) ?_
    obtain ⟨files, clock, webPlans, webCalls, h⟩ :=
      Background.perform_eq { e with inFlight := e.inFlight.eraseIdx i } w.job
    unfold Background.settleOne
    dsimp only
    rw [h]
    exact Engine.keeps_of_tables rfl rfl
  takeOver _ := safe_takeOverAll

end Healthy

end Discipline

end QueueScript
