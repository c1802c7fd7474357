import QueueScript.Proofs.Tidy.Basic

/-!
# The discipline of tidy engines

Commands touch neither the history nor the handoffs.  So a property `P` of these two is carried along
by everything that commands do, and `tidy P` is the discipline of tidy engines with the property `P`.
What is made of several changes, such as the end of a queue or its replacement, is taken apart here
once, for every `P`.
-/

namespace QueueScript

/-! ## Work -/

/-- Work touches the files, the clock and the web, and nothing else. -/
theorem Background.perform_eq (e : Engine) (job : Job) :
    ∃ files clock webPlans webCalls, (Background.perform e job).1 =
      { e with files, clock, webPlans, webCalls } := by
  have after (r : FileSystem × Option FileFault) :
      (Background.afterFiles e r).1 = { e with files := r.1 } := by
    unfold Background.afterFiles
    dsimp only
    split <;> rfl
  have send (r : WebRequest) : ∃ clock webPlans webCalls, (Background.send e r).1 =
      { e with clock, webPlans, webCalls } := by
    unfold Background.send
    dsimp only
    split
    · exact ⟨_, _, _, rfl⟩
    · split <;> exact ⟨_, _, _, rfl⟩
  cases job with
  | read path =>
    unfold Background.perform
    dsimp only
    split <;> exact ⟨_, _, _, _, rfl⟩
  | write path content => exact ⟨_, _, _, _, after _⟩
  | copy origin destination => exact ⟨_, _, _, _, after _⟩
  | request r =>
    obtain ⟨clock, webPlans, webCalls, h⟩ := send r
    simp only [Background.perform, Background.fetch, h]
    split
    · split <;> exact ⟨_, _, _, _, rfl⟩
    · exact ⟨_, _, _, _, rfl⟩
  | give v => exact ⟨_, _, _, _, rfl⟩
  | fail message => exact ⟨_, _, _, _, rfl⟩
  | giveUnusable message => exact ⟨_, _, _, _, rfl⟩

namespace Discipline

/-- Tidy engines whose history and handoffs have a property. -/
def tidy (P : List QueueScript.Step → List Handoff → Prop) : Discipline where
  inv e := e.Tidy ∧ P e.journal e.handoffs
  le e e' := e.Grows e'
  cut e := P e.journal e.handoffs
  own e n := e.Live n
  mine e q := q < e.queues.size
  fresh e q := q < e.queues.size
  placed e _ n := e.Live n
  fits _ := True
  cared _ _ := True
  marked _ _ := True
  refl := Engine.Grows.refl
  trans := Engine.Grows.trans
  own_mono h hn := h.live hn
  mine_mono h hq := Nat.lt_of_lt_of_le hq h.queues
  fresh_mono h hq := Nat.lt_of_lt_of_le hq h.queues
  placed_mono h hn := h.live hn
  placed_own h := h
  cared_mono _ _ := trivial
  marked_mono _ _ := trivial
  marked_cared _ := trivial

instance (P : List QueueScript.Step → List Handoff → Prop) : (tidy P).Lenient :=
  ⟨And.right⟩

instance (P : List QueueScript.Step → List Handoff → Prop) : (tidy P).Open :=
  ⟨fun _ => trivial, fun _ _ => trivial, fun _ _ _ => trivial⟩

variable {P : List QueueScript.Step → List Handoff → Prop} {e₀ e : Engine} {q : QueueRef}

/-! ## Single changes -/

namespace Tidy

/-- What is done aside is a step. -/
theorem aside {e' : Engine} (he : (tidy P).inv e) (h : e.Aside e') : (tidy P).Step e e' := by
  refine ⟨⟨he.1.aside h, ?_⟩, h.grows⟩
  rw [h.journal, h.handoffs]
  exact he.2

/-- The change of an entry is a step, when what the tables refer to is kept. -/
theorem entry {n : EntryRef} {f : Entry → Entry} (he : (tidy P).inv e) (hn : e.Live n)
    (hf : Entry.Steadies f) (hr : ∀ x, (f x).residing = x.residing)
    (ho : ∀ x, (f x).owner = x.owner) : (tidy P).Step e (e.changeEntry n f) := by
  refine ⟨⟨he.1.changeEntry hn.2 hf (fun x q h => .inl ?_) fun x m h => .inl ?_, he.2⟩,
    e.grows_changeEntry n hf⟩
  · rwa [hr] at h
  · rwa [ho] at h

/-- The change of a queue is a step, when what the tables refer to is kept. -/
theorem soft (q : QueueRef) {f : Queue → Queue} (he : (tidy P).inv e) (hf : Queue.Soft f) :
    (tidy P).Step e (e.changeQueue q f) :=
  ⟨⟨he.1.soft q hf, he.2⟩, e.grows_changeQueue q hf.pace⟩

/-- A report is a step. -/
theorem emit (event : Event) (s : Scope) (he : (tidy P).inv e) :
    (tidy P).Step e (e.emit event s) := by
  refine aside he ?_
  unfold Engine.emit
  split <;> exact ⟨rfl, rfl, fun _ h => .inl h, rfl, rfl, rfl, fun _ => rfl⟩

/-- What every command does leaves an engine tidy. -/
theorem bookkeeping : (tidy P).Bookkeeping where
  emit event s he := emit event s he
  jot he hn hf := by
    refine entry he hn hf.steadies (fun x => ?_) fun x => ?_ <;>
    · obtain ⟨_, _, _, h⟩ := hf x
      rw [h]
  finish he hn := ⟨entry he hn ⟨fun _ => rfl, fun _ => rfl⟩ (fun _ => rfl) fun _ => rfl, trivial⟩
  memory _ he _ := aside he ⟨rfl, rfl, fun _ h => .inl h, rfl, rfl, rfl, fun _ => rfl⟩
  residing he _ h := he.1.residingQueue_lt h
  eased_mono _ _ _ := .inl trivial

/-- The ends of queues leave an engine tidy. -/
theorem closing : (tidy P).Closing where
  toBookkeeping := bookkeeping
  soft q _ he hf := soft q he hf
  hear q l he hl := by
    refine ⟨⟨he.1.changeQueue q (fun _ hn => .inl hn) (fun _ hn => .inl hn) (fun n hn => ?_)
      fun _ hp => .inl hp, he.2⟩, Engine.grows_changeQueue _ _ fun _ => rfl⟩
    refine (List.mem_append.1 hn).imp id fun hn => hl n ?_
    exact (List.mem_singleton.1 hn).symm
  heard he h := bookkeeping.mayFinish (he.1.listeners h)
  books _ _ he := aside he ⟨rfl, rfl, fun _ h => .inl h, rfl, rfl, rfl, fun _ => rfl⟩
  setRegistry he hr := aside he ⟨rfl, rfl, hr, rfl, rfl, rfl, fun _ => rfl⟩

/-! ## Blocks, queues and replacement -/

/-- Base entries leave an engine tidy. -/
theorem basing : (tidy P).Basing where
  based he := he.1.based
  stock_mono h hn := ⟨Nat.lt_of_lt_of_le hn.lt h.entries, h.kept hn.base, trivial⟩

/-- The commands that run blocks leave an engine tidy. -/
theorem blocks : (tidy P).Blocks where
  toBookkeeping := bookkeeping
  toBasing := basing
  grow he hx _ :=
    ⟨⟨⟨he.1.grown hx, he.2⟩, hx.grows⟩, fun _ hn => hx.live he.1.based.lt hn⟩
  place {e n q} he hn _ hq := by
    have steady : Entry.Steadies ({ · with residing := q }) := ⟨fun _ => rfl, fun _ => rfl⟩
    have grows := e.grows_changeEntry n steady
    refine ⟨⟨⟨he.1.changeEntry hn.2 steady (fun _ p h => .inr (hq p h)) fun _ _ h => .inl h, he.2⟩,
      grows⟩, fun _ _ => grows.live hn⟩
  belong {e n owner} he hn ho := by
    have steady : Entry.Steadies ({ · with owner := some owner }) := ⟨fun _ => rfl, fun _ => rfl⟩
    refine ⟨⟨he.1.changeEntry hn.2 steady (fun _ _ h => .inl h) fun _ m h => .inr ?_, he.2⟩,
      e.grows_changeEntry n steady⟩
    cases h
    exact ho
  loop _ he hn := entry he hn ⟨fun _ => rfl, fun _ => rfl⟩ (fun _ => rfl) fun _ => rfl
  hurry _ he hn := entry he hn ⟨fun _ => rfl, fun _ => rfl⟩ (fun _ => rfl) fun _ => rfl
  owner he _ h := he.1.owner h
  pending f he _ h := by
    refine ⟨⟨he.1.changeQueue _ h (fun _ hn => .inl hn) (fun _ hn => .inl hn) fun _ hp => .inl hp,
      he.2⟩, Engine.grows_changeQueue _ _ fun _ => rfl⟩
  determine v _ := closing.safe_determine v
  stop _ := closing.safe_stop
  fits_code _ _ := trivial
  fits_branch _ _ := trivial
  fits_mark _ _ _ := trivial

/-- A queue that starts leaves an engine tidy. -/
theorem safe_launch (hq : q < e₀.queues.size) : (tidy P).Safe e₀ (Queues.launch q) :=
  closing.safe_launch fun _ hl => Nat.lt_of_lt_of_le hq hl.queues

/-- Turns of queues leave an engine tidy. -/
theorem turns : (tidy P).Turns where
  toFilling := blocks.filling
  stop hq := blocks.stop hq
  counters _ he := aside he ⟨rfl, rfl, fun _ h => .inl h, rfl, rfl, rfl, fun _ => rfl⟩
  make he hx _ := by
    refine ⟨⟨⟨he.1.withQueue hx, he.2⟩, Engine.grows_withQueue _ _⟩, ?_, ?_⟩
    · simp [tidy]
    · simp [tidy]
  keep he hi ready _ := ⟨⟨he.1.keepBase ready.brings hi, he.2⟩, ready.brings.grows_keepBase hi⟩
  fits_base _ _ _ _ := trivial
  launch he hq _ := (safe_launch hq).run _ he (.refl _)
  finishQueue _ := closing.safe_finish
  delay _ he _ := soft _ he (.of_same fun _ => ⟨rfl, rfl, rfl, rfl, rfl⟩)
  waiting he _ h := he.1.pending _ _ h
  pace hl hq := ⟨Nat.lt_of_lt_of_le hq hl.queues, hl.pace hq⟩
  fits_source _ _ _ _ _ _ := trivial
  reads_script _ _ := trivial

/-- The pending entries of a queue are taken over by one that was made later. -/
theorem safe_adopt {new : QueueRef} (hnew : new < e₀.queues.size) (hold : q < new) :
    (tidy P).Safe e₀ (Queues.adopt new q) := by
  refine look_bind fun e₁ he₁ hl₁ => ?_
  have hnew₁ : new < e₁.queues.size := Nat.lt_of_lt_of_le hnew hl₁.queues
  refine safe_bind (safe_append blocks hnew₁ fun n hn => he₁.1.pending q n hn) fun _ => ?_
  refine gives_bind (gives_look (Q := fun o e => o = e.queue q) fun _ _ _ => rfl) ?_
  rintro o e₂ he₂ hl₂ rfl
  have hnew₂ : new < e₂.queues.size := Nat.lt_of_lt_of_le hnew₁ hl₂.queues
  refine safe_bind (safe_change fun e he hl => ?_) fun _ => safe_change fun e he hl => ?_
  · exact ⟨⟨he.1.changeQueue new (fun _ hn => .inl hn) (fun n hn => .inr (hl.live (he₂.1.last hn)))
      (fun n hn => .inr (hl.live (he₂.1.listeners hn))) fun _ hp => .inl hp, he.2⟩,
      Engine.grows_changeQueue _ _ fun _ => rfl⟩
  · refine ⟨⟨he.1.changeQueue q (fun _ hn => by cases hn) (fun _ hn => .inl hn)
      (fun _ hn => by cases hn) fun p hp => .inr ?_, he.2⟩, Engine.grows_changeQueue _ _ fun _ => rfl⟩
    cases hp
    exact ⟨hold, Nat.lt_of_lt_of_le hnew₂ hl.queues⟩

/-- The replacement of a queue is there. -/
theorem gives_replaceByTimed (d : Option Delay) (hq : q < e₀.queues.size) :
    (tidy P).Gives e₀ (Queues.replaceByTimed q d) fun t e => t < e.queues.size := by
  refine safe_bind (safe_queue q) fun old => ?_
  refine gives_bind (gives_createQueue turns.toPreparing .timed _ _) fun timed e₁ _ _ hmade => ?_
  obtain ⟨-, hsize, -, hold⟩ := hmade
  refine safe_bind (safe_adopt hsize (hold q hq)) fun _ => ?_
  have rest : (tidy P).Gives e₁ (do
      Action.trace ("Converted instant queue '" ++ old.id ++ "' to a timed queue") (← Queues.scope q)
      pure timed) fun t e => t < e.queues.size := by
    refine safe_bind (safe_queueScope q) fun s => safe_bind (safe_trace bookkeeping.toNoting _ s) fun _ => ?_
    exact gives_pure fun _ _ hl => Nat.lt_of_lt_of_le hsize hl.queues
  dsimp only
  split
  · exact safe_bind (closing.safe_soft (.of_same fun _ => ⟨rfl, rfl, rfl, rfl, rfl⟩)) fun _ => rest
  · exact rest

/-- Jobs are done aside. -/
theorem aside_perform (e : Engine) (job : Job) : e.Aside (Background.perform e job).1 := by
  obtain ⟨files, clock, webPlans, webCalls, h⟩ := Background.perform_eq e job
  rw [h]
  exact ⟨rfl, rfl, fun _ h => .inl h, rfl, rfl, rfl, fun _ => rfl⟩

/-- The commands that reach beyond their queue leave an engine tidy. -/
theorem outreach : (tidy P).Outreach where
  toTurns := turns
  replace d hq := gives_replaceByTimed d hq
  work job he hn := ⟨⟨⟨he.1.work hn job, he.2⟩, Engine.grows_of_tables rfl rfl rfl⟩, trivial⟩
  perform job he := aside he (aside_perform _ job)
  listen _ hn := (closing.safe_onComplete fun _ h => by cases h; exact hn).mono fun _ _ _ _ _ => trivial
  registered he h := he.1.registered?_lt h
  unheld _ _ _ := .inl trivial

/-! ## Running entries -/

/-- The property of the history survives when a queue begins an entry and when it is back. -/
structure Notes (P : List QueueScript.Step → List Handoff → Prop) : Prop where
  began {e : Engine} {q : QueueRef} (n : EntryRef) : P e.journal e.handoffs →
    Drive.isActive e q = true → Drive.isWaiting e q = false → Undelayed e q →
      P (.began q n (e.queue q) ((e.queue q).last.map e.entry) :: e.journal) e.handoffs
  returned {journal : List QueueScript.Step} {handoffs : List Handoff} (q : QueueRef) (n : EntryRef)
    (ran : Bool) : P journal handoffs → P (.returned q n ran :: journal) handoffs

variable (hP : Notes P)

include hP

/-- Entries leave an engine tidy where procedures and starts do. -/
theorem runsEntries (calls : Calls) (hp : (tidy P).ProcedureSafe calls)
    (hs : (tidy P).StartSafe calls) : (tidy P).RunsEntries calls := by
  refine runsNoted outreach blocks hp hs (fun n he hactive hwaiting hu => ?_) (fun q n he hn => ?_)
    fun q n ran he => ?_
  · exact ⟨⟨he.1.note _, hP.began n he.2 hactive hwaiting hu⟩, Engine.grows_of_tables rfl rfl rfl⟩
  · refine ⟨⟨he.1.changeQueue q (fun _ h => .inl h) (fun m h => .inr ?_) (fun _ h => .inl h)
      fun _ h => .inl h, he.2⟩,
      Engine.grows_changeQueue _ _ fun _ => rfl⟩
    cases h
    exact hn
  · exact ⟨⟨he.1.note _, hP.returned q n ran he.2⟩, Engine.grows_of_tables rfl rfl rfl⟩

/-- Procedures and starts leave an engine tidy, with any amount of fuel. -/
theorem calls_safe (fuel : Nat) :
    (tidy P).ProcedureSafe (Drive.calls fuel) ∧ (tidy P).StartSafe (Drive.calls fuel) :=
  callsSafe turns (fun fuel => runsEntries hP (Drive.calls fuel)) fuel

/-- Entries leave an engine tidy, with any amount of fuel. -/
theorem calls_runsEntries (fuel : Nat) : (tidy P).RunsEntries (Drive.calls fuel) :=
  runsEntries hP _ (calls_safe hP fuel).1 (calls_safe hP fuel).2

end Tidy

end Discipline

end QueueScript
