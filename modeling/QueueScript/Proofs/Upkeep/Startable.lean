import QueueScript.Proofs.Procedures

/-!
# Queues that may be started

A queue may be started under an id that no other queue is registered under (`Engine.Startable`).  A new
queue that makes its own id is of this kind, and so is one whose id was looked up before.  It stays so
while it is filled and reported, since then no queue starts or ends (`Engine.Rests`).
-/

namespace QueueScript

namespace Engine

/-- No queue starts or ends, and ids stay as they are. -/
structure Rests (e e' : Engine) : Prop where
  queues : e.queues.size ≤ e'.queues.size
  id {q : QueueRef} : q < e.queues.size → (e'.queue q).id = (e.queue q).id
  state {q : QueueRef} : q < e.queues.size → (e'.queue q).state = (e.queue q).state
  registry : e'.registry = e.registry

namespace Rests

variable {e e' e'' : Engine}

/-- An engine rests while nothing is done. -/
theorem refl (e : Engine) : e.Rests e :=
  ⟨Nat.le_refl _, fun _ => rfl, fun _ => rfl, rfl⟩

/-- Rests follow one another. -/
theorem trans (h : e.Rests e') (h' : e'.Rests e'') : e.Rests e'' where
  queues := Nat.le_trans h.queues h'.queues
  id hq := (h'.id (Nat.lt_of_lt_of_le hq h.queues)).trans (h.id hq)
  state hq := (h'.state (Nat.lt_of_lt_of_le hq h.queues)).trans (h.state hq)
  registry := h'.registry.trans h.registry

/-- An engine rests where queues and registry stay. -/
theorem of_tables (hq : e'.queues = e.queues) (hr : e'.registry = e.registry) : e.Rests e' where
  queues := Nat.le_of_eq (by rw [hq])
  id _ := by rw [queue_congr hq]
  state _ := by rw [queue_congr hq]
  registry := hr

/-- An engine rests while it reports. -/
theorem emit (e : Engine) (event : Event) (s : Scope) : e.Rests (e.emit event s) := by
  obtain ⟨events, h⟩ := e.emit_eq event s
  rw [h]
  exact of_tables rfl rfl

/-- An engine rests while a queue is changed but for its id and its state. -/
theorem changeQueue (e : Engine) (q : QueueRef) {f : Queue → Queue} (hi : ∀ x, (f x).id = x.id)
    (hs : ∀ x, (f x).state = x.state) : e.Rests (e.changeQueue q f) where
  queues := Nat.le_of_eq (e.size_changeQueue q f).symm
  id _ := e.queue_changeQueue_keep hi q _
  state _ := e.queue_changeQueue_keep hs q _
  registry := rfl

end Rests

/-- The queue is idle and its id is free. -/
structure Startable (e : Engine) (q : QueueRef) : Prop where
  here : q < e.queues.size
  idle : (e.queue q).state = .idle
  free : e.registered? (e.queue q).id = none

/-- A queue that may be started may still be started after a rest. -/
theorem Startable.later {e e' : Engine} {q : QueueRef} (h : e.Startable q) (hr : e.Rests e') :
    e'.Startable q := by
  refine ⟨Nat.lt_of_lt_of_le h.here hr.queues, (hr.state h.here).trans h.idle, ?_⟩
  unfold registered?
  rw [hr.id h.here, hr.registry]
  exact h.free

/-- What is done apart leaves the registry as it is. -/
theorem Apart.registered? {X : List EntryRef} {e e' : Engine} (h : e.Apart X e') (id : String) :
    e'.registered? id = e.registered? id := by
  unfold Engine.registered?
  rw [h.registry]

/-- A new queue under a free id may be started. -/
theorem startable_withQueue (e : Engine) {x : Queue} (hx : x.IsNew)
    (hid : e.registered? x.id = none) : (e.withQueue x).Startable e.queues.size := by
  have here : (e.withQueue x).queue e.queues.size = x := (e.queue_withQueue _ _).trans (if_pos rfl)
  refine ⟨by simp, ?_, ?_⟩
  · rw [here]
    exact hx.state
  · rw [here]
    exact hid

end Engine

/-! ## Actions that start and end nothing -/

namespace Action

variable {α β : Type}

/-- The action starts and ends no queue. -/
structure Restful (a : Action α) : Prop where
  run (e : Engine) : e.Rests (a e).2

/-- Nothing done is restful. -/
theorem restful_pure (x : α) : Restful (pure x : Action α) :=
  ⟨fun e => .refl e⟩

/-- A look at the engine is restful. -/
theorem restful_look (f : Engine → α) : Restful (look f) :=
  ⟨fun e => .refl e⟩

/-- One restful action after another. -/
theorem restful_bind {a : Action α} {f : α → Action β} (ha : Restful a) (hf : ∀ x, Restful (f x)) :
    Restful (a >>= f) := by
  refine ⟨fun e => ?_⟩
  have hae := ha.run e
  match hr : a e with
  | (.ok x, e') =>
    rw [hr] at hae
    rw [bind_ok hr]
    exact hae.trans ((hf x).run e')
  | (.error err, e') =>
    rw [hr] at hae
    rw [bind_error hr]
    exact hae

/-- One of two restful actions. -/
theorem restful_ite {c : Prop} [Decidable c] {a b : Action α} (ha : Restful a) (hb : Restful b) :
    Restful (if c then a else b) := by
  split
  · exact ha
  · exact hb

/-- A restful action on every item of a list. -/
theorem restful_each {f : α → Action Unit} (h : ∀ x, Restful (f x)) (xs : List α) :
    Restful (each f xs) := by
  induction xs with
  | nil => exact restful_pure ()
  | cons x rest ih => exact restful_bind (h x) fun _ => ih

/-- A restful action on every item of a list, with the results collected. -/
theorem restful_collect {f : α → Action β} (h : ∀ x, Restful (f x)) (xs : List α) :
    Restful (collect f xs) := by
  induction xs with
  | nil => exact restful_pure []
  | cons x rest ih => exact restful_bind (h x) fun _ => restful_bind ih fun _ => restful_pure _

/-- A report is restful. -/
theorem restful_emit (event : Event) (s : Scope) : Restful (change (·.emit event s)) :=
  ⟨fun e => .emit e event s⟩

/-- The change of an entry is restful. -/
theorem restful_changeEntry (n : EntryRef) (f : Entry → Entry) : Restful (changeEntry n f) :=
  ⟨fun _ => .of_tables rfl rfl⟩

/-- Reporting what was noted is restful. -/
theorem restful_noteAll (notes : List BuildNote) : Restful (noteAll notes) := by
  refine ⟨fun e => ?_⟩
  show e.Rests (notes.foldl (fun e n => e.emit n.event n.scope) e)
  induction notes generalizing e with
  | nil => exact .refl e
  | cons n rest ih => exact (Engine.Rests.emit e _ _).trans (ih _)

/-- Reporting values is restful. -/
theorem restful_report (n : EntryRef) (values : List (String × String)) :
    Restful (Commands.report n values) :=
  restful_bind (restful_look _) fun _ => restful_bind (restful_look _) fun s => restful_emit _ s

/-- Putting entries behind a queue is restful. -/
theorem restful_append (q : QueueRef) (ns : List EntryRef) : Restful (Queues.append q ns) := by
  refine restful_bind (restful_each (fun n => ?_) ns) fun _ => ⟨fun e => ?_⟩
  · refine restful_bind (restful_changeEntry n _) fun _ => ?_
    exact restful_bind (restful_look _) fun _ => restful_changeEntry n _
  · exact .changeQueue e q (fun _ => rfl) fun _ => rfl

/-- Making definitions is restful. -/
theorem restful_defineAll (q : QueueRef) (ps : List (String × Value)) :
    Restful (Queues.defineAll q ps) :=
  restful_each (fun _ => ⟨fun _ => .of_tables rfl rfl⟩) ps

/-- Creating entries is restful. -/
theorem restful_createAll (codes : List Compiled) : Restful (Entries.createAll codes) := by
  refine ⟨fun e => ?_⟩
  obtain ⟨xs, ys, run, -⟩ := Entries.createAll_eq e codes
  rw [run]
  exact .of_tables rfl rfl

/-- Cloning entries is restful. -/
theorem restful_cloneAll (ms : List EntryRef) : Restful (Entries.cloneAll ms) := by
  refine restful_collect (fun m => restful_bind (restful_look _) fun original => ?_) ms
  refine restful_bind ⟨fun _ => .of_tables rfl rfl⟩ fun copy => ?_
  refine restful_bind (restful_bind (restful_look _) fun o => ?_) fun _ => restful_pure _
  refine restful_bind (restful_changeEntry copy _) fun _ => ?_
  refine restful_bind (restful_changeEntry copy _) fun _ => ?_
  exact restful_bind (restful_look _) fun _ => restful_changeEntry copy _

/-- Compiling a source is restful. -/
theorem restful_compile (source : String) (script : Option ScriptRef) :
    Restful (Scripts.compile source script) := by
  refine restful_bind ?_ fun lines => restful_bind (restful_look _) fun c => ?_
  · exact restful_bind (restful_each (fun _ => restful_emit _ _) _) fun _ => restful_pure _
  · exact restful_bind (restful_noteAll _) fun _ => restful_pure _

/-- Loading a script is restful. -/
theorem restful_load (q : QueueRef) (n : Nat) (args : List Value) (ps : List (String × Value)) :
    Restful (Scripts.load q n args ps) := by
  have based : Restful (Scripts.baseEntries n) := by
    refine restful_bind (restful_look _) fun record => ?_
    split
    · exact restful_pure _
    · refine restful_bind (restful_compile _ _) fun codes => ?_
      refine restful_bind (restful_createAll codes) fun _ => ?_
      exact restful_bind ⟨fun _ => .of_tables rfl rfl⟩ fun _ => restful_pure _
  refine restful_bind (restful_look _) fun record => ?_
  refine restful_bind (restful_defineAll q _) fun _ => restful_bind (restful_defineAll q _) fun _ => ?_
  refine restful_bind based fun base => ?_
  exact restful_bind (restful_cloneAll base) fun ns => restful_append q ns

/-- An entry waits for a queue, or is done at once. -/
theorem restful_await (q : QueueRef) (n : EntryRef) :
    Restful (Queues.onComplete q (.finish n)) := by
  refine restful_bind (restful_look _) fun queue => restful_ite (restful_changeEntry n _) ⟨fun e => ?_⟩
  exact .changeQueue e q (fun _ => rfl) fun _ => rfl

end Action

/-- One action after another, where the first one starts and ends no queue. -/
theorem Discipline.leaves_bindRests {α β : Type} {D : Discipline} {e : Engine} {a : Action α}
    {f : α → Action β} {Q : α → Engine → Prop} {R : β → Engine → Prop} (hr : Action.Restful a)
    (ha : D.Leaves e Q (a e))
    (hf : ∀ x e', D.inv e' → D.le e e' → Q x e' → e.Rests e' → D.Leaves e' R (f x e')) :
    D.Leaves e R ((a >>= f) e) := by
  refine leaves_bind (ha.and (R := fun _ e' => e.Rests e') fun x e' h => ?_)
    fun x e' he hl hq => hf x e' he hl hq.1 hq.2
  have rests := hr.run e
  rwa [h] at rests

open QueueScript.Action

/-! ## New queues -/

/-- The id that a queue is asked to have, if there is one, is free. -/
def Engine.Vacant (e : Engine) (id : Option String) : Prop :=
  ∀ k, id = some k → e.registered? k = none

namespace Queues

/-- A new queue may be started if the id that it is asked to have is free. -/
theorem create_startable {e : Engine} (options : Options) (hid : e.Vacant options.id) (pace : Pace)
    (name : String) :
    ∃ e', create pace name options e = (.ok e.queues.size, e') ∧ e.Rests e' ∧
      e'.Startable e.queues.size := by
  have made (y : Engine) (hy : e.Rests y) (hq : y.queues.size = e.queues.size) (id : String)
      (hfree : y.registered? id = none) :
      let x : Queue :=
        { id, name, pace, isProcedural := options.isProcedural, script := options.script,
          memory := y.memories.size, speed := options.speed }
      e.Rests (y.withQueue x) ∧ (y.withQueue x).Startable e.queues.size := by
    intro x
    refine ⟨hy.trans ⟨by simp, fun hp => ?_, fun hp => ?_, rfl⟩, ?_⟩
    · rw [y.queue_withQueue_of_lt hp]
    · rw [y.queue_withQueue_of_lt hp]
    · rw [← hq]
      exact y.startable_withQueue ⟨rfl, rfl, rfl, rfl, rfl, rfl, rfl⟩ hfree
  unfold create
  dsimp only
  cases hgiven : options.id with
  | some id => exact ⟨_, rfl, made e (.refl e) rfl id (hid id hgiven)⟩
  | none =>
    obtain ⟨id, counters, hgen, hfree⟩ := generateId_free name e
    have free : e.registered? id = none := by
      rw [← Keyed.has_iff_mem_keys, Keyed.has_eq_isSome] at hfree
      simpa [Engine.registered?] using hfree
    refine ⟨_, (bind_ok hgen).trans rfl, ?_⟩
    exact made { e with counters } (.of_tables rfl rfl) rfl id free

end Queues

namespace Scripts

variable {e e' : Engine} {q : QueueRef} {options : RunOptions}

/-- A queue that is created under a free id may be started. -/
theorem createQueue_startable (hid : e.Vacant options.id) (name : String)
    (script : Option ScriptRef) :
    ∃ e', createQueue options name script e = (.ok e.queues.size, e') ∧ e.Rests e' ∧
      e'.Startable e.queues.size :=
  Queues.create_startable { id := options.id, speed := options.speed, script } hid _ name

/-- A queue that was made and filled may be started. -/
theorem filled_startable (hid : e.Vacant options.id) {name : String} {script : Option ScriptRef}
    (fill : QueueRef → Action Unit) (hf : ∀ q, Restful (fill q))
    (h : (do
      let q ← createQueue options name script
      fill q
      pure q : Action QueueRef) e = (.ok q, e')) : e.Rests e' ∧ e'.Startable q := by
  obtain ⟨x, hcreate, rests, startable⟩ := createQueue_startable hid name script
  rw [bind_ok hcreate] at h
  have filled := (hf e.queues.size).run x
  match hr : fill e.queues.size x with
  | (.ok _, y) =>
    rw [bind_ok hr] at h
    rw [hr] at filled
    cases h
    exact ⟨rests.trans filled, startable.later filled⟩
  | (.error f, y) =>
    rw [bind_error hr] at h
    cases h

/-- A script that is prepared under a free id may be started. -/
theorem prepare_startable (hid : e.Vacant options.id) {name : String}
    (h : prepare name options e = (.ok q, e')) : e.Rests e' ∧ e'.Startable q := by
  cases hn : e.scriptNamed? name with
  | none =>
    rw [prepare_of_none hn] at h
    cases h
  | some n =>
    rw [prepare_of_some hn] at h
    exact filled_startable hid _ (fun q => restful_load q n _ _) h

/-- A source that is prepared under a free id may be started. -/
theorem prepareSource_startable (hid : e.Vacant options.id) {source : String} {name : Option String}
    (h : prepareSource source name options e = (.ok q, e')) : e.Rests e' ∧ e'.Startable q := by
  let fill (q : QueueRef) : Action Unit := do
    Queues.defineAll q options.definitions
    Queues.append q (← Entries.createAll (← compile source none))
  have unfolded : prepareSource source name options e = (do
      let q ← createQueue options (name.getD defaultName) none
      fill q
      pure q : Action QueueRef) e := by
    unfold prepareSource
    simp only [fill, bind_assoc]
  refine filled_startable hid fill (fun q => ?_) (unfolded.symm.trans h)
  refine restful_bind (restful_defineAll q _) fun _ => restful_bind (restful_compile _ _) fun codes => ?_
  exact restful_bind (restful_createAll codes) fun ns => restful_append q ns

end Scripts

end QueueScript
