import QueueScript.Proofs.Discipline.Blocks

/-!
# Making and preparing queues keeps a discipline

A queue is made empty and idle, entries of a script are put on it, and it is started.  Scripts are
compiled when they are first needed, so the commands that a discipline admits must include what is
compiled from any source with the commands of the engine.
-/

namespace QueueScript

/-- A queue as it is made: idle, with no entries and nobody listening. -/
structure Queue.IsNew (x : Queue) : Prop where
  state : x.state = .idle
  pending : x.pending = []
  last : x.last = none
  listeners : x.listeners = []
  replacedBy : x.replacedBy = none
  determinations : x.determinations = none
  delay : x.delay = none

/-- What the source of a script is compiled to. -/
def Engine.compiled (e : Engine) (n : Nat) : List Compiled :=
  (buildLines e.catalogue (some ⟨n, (e.script n).name⟩) (Source.parse (e.script n).source).lines).1

/-- A script that is not there has no commands. -/
theorem Engine.compiled_of_size_le {e : Engine} {n : Nat} (h : e.scripts.size ≤ n) :
    e.compiled n = [] := by
  have script : e.script n = default := by
    simp [Engine.script, Array.getD_eq_getD_getElem?, h]
  have lines : (Source.parse (default : ScriptRecord).source).lines = [] := by
    decide +kernel
  unfold Engine.compiled
  rw [script, lines]
  rfl

/-- Compiling shows what is wrong, and changes nothing else. -/
theorem Scripts.compile_eq (source : String) (script : Option ScriptRef) (e : Engine) :
    ∃ events, compile source script e =
      (.ok (buildLines e.catalogue script (Source.parse source).lines).1, { e with events }) := by
  have lines (name : Option String) (notes : List Source.ScriptNote) (x : Engine) :
      Action.each (fun note => Action.error note.fault.message (noteScope name note) none) notes x =
        (.ok (), notes.foldl (fun x note => x.emit
          (.error note.fault.message (noteScope name note) none) (noteScope name note)) x) := by
    induction notes generalizing x with
    | nil => rfl
    | cons note rest ih => exact ih _
  obtain ⟨events, shown⟩ := e.emitAll_eq
    (fun note => .error note.fault.message (noteScope (script.map (·.name)) note) none)
    (noteScope (script.map (·.name))) (Source.parse source).notes
  have read : readLines source (script.map (·.name)) e =
      (.ok (Source.parse source).lines, { e with events }) :=
    Action.bind_ok ((lines _ _ e).trans (congrArg (Except.ok (), ·) shown))
  obtain ⟨events', noted⟩ := Engine.emitAll_eq { e with events } BuildNote.event BuildNote.scope
    (buildLines e.catalogue script (Source.parse source).lines).2
  exact ⟨events', (Action.bind_ok read).trans (congrArg (Prod.mk _) noted)⟩

/-- The entries that a script is made into become base entries. -/
theorem Engine.Prepares.isBase_kept {e : Engine} {i : Nat} {xs ys : List Entry}
    (h : e.Prepares (e.compiled i) xs ys) : ∀ m ∈ List.range' (e.grown xs).entries.size ys.length,
      ((e.grown (xs ++ ys)).keepBase i (List.range' (e.grown xs).entries.size ys.length)).IsBase m := by
  refine fun m hm => Engine.isBase_kept (Nat.lt_of_not_le fun hle => ?_) hm
  have none : ys = [] := List.map_eq_nil_iff.1 (h.codes_eq.trans (e.compiled_of_size_le hle))
  rw [none] at hm
  exact absurd hm List.not_mem_nil

/-- The entries of a script are those that are kept, or what its source is compiled to is made into
entries, which are then kept. -/
theorem Scripts.baseEntries_eq (n : Nat) (e : Engine) :
    (∃ ns, (e.script n).base = some ns ∧ baseEntries n e = (.ok ns, e)) ∨
      ∃ events xs ys ns, (e.script n).base = none ∧
        ns = List.range' (e.grown xs).entries.size ys.length ∧
        compile (e.script n).source (some ⟨n, (e.script n).name⟩) e =
          (.ok (e.compiled n), { e with events }) ∧
        Engine.Prepares { e with events } (e.compiled n) xs ys ∧
        baseEntries n e = (.ok ns, (Engine.grown { e with events } (xs ++ ys)).keepBase n ns) ∧
        ∀ m ∈ ns, ((Engine.grown { e with events } (xs ++ ys)).keepBase n ns).IsBase m := by
  cases hb : (e.script n).base with
  | some ns =>
    exact .inl ⟨ns, rfl, baseEntries_of_some hb⟩
  | none =>
    obtain ⟨events, compiled⟩ := compile_eq (e.script n).source (some ⟨n, (e.script n).name⟩) e
    obtain ⟨xs, ys, made, ready⟩ := Entries.createAll_eq { e with events } (e.compiled n)
    refine .inr ⟨events, xs, ys, _, rfl, rfl, compiled, ready, ?_, ready.isBase_kept⟩
    exact (baseEntries_of_none hb).trans ((Action.bind_ok compiled).trans (Action.bind_ok made))

namespace Discipline

/-- What is done to a queue between its entries. -/
structure Pacing (D : Discipline) : Prop where
  finishQueue {e₀ : Engine} {q : QueueRef} : D.mine e₀ q → D.Safe e₀ (Queues.finish q)
  delay {e : Engine} {q : QueueRef} (d : Option Delay) : D.inv e → D.mine e q →
    D.Step e (e.changeQueue q ({ · with delay := d }))
  pace {e e' : Engine} {q : QueueRef} : D.le e e' → q < e.queues.size →
    q < e'.queues.size ∧ (e'.queue q).pace = (e.queue q).pace

/-- What is done to a queue while its entries are run, and what is known of the entries that wait. -/
structure Serving (D : Discipline) : Prop extends Pacing D where
  waiting {e : Engine} {q : QueueRef} {n : EntryRef} :
    D.inv e → D.mine e q → n ∈ (e.queue q).pending → D.placed e q n

/-- What is done to a queue while its entries are put on it and run. -/
structure Turning (D : Discipline) : Prop extends Filling D, Serving D where
  keep {e : Engine} {n : Nat} {xs ys : List Entry} : D.inv e → (e.script n).base = none →
    e.Prepares (e.compiled n) xs ys → (∀ c ∈ e.compiled n, D.fits c) →
      D.Step e ((e.grown (xs ++ ys)).keepBase n (List.range' (e.grown xs).entries.size ys.length))
  fits_base {e : Engine} {n : Nat} {ns : List EntryRef} : D.inv e → (e.script n).base = some ns →
    ∀ m ∈ ns, D.fits (e.entry m).code
  fits_source {e : Engine} (script : Option ScriptRef) {source : String} : D.inv e →
    D.reads source → ∀ c ∈ (buildLines e.catalogue script (Source.parse source).lines).1, D.fits c
  reads_script {e : Engine} (n : Nat) : D.inv e → D.reads (e.script n).source

/-- What is done to make a queue. -/
structure Preparing (D : Discipline) : Prop extends Turning D where
  counters {e : Engine} (t : Keyed Nat) : D.inv e → D.Step e { e with counters := t }
  make {e : Engine} {x : Queue} : D.inv e → x.IsNew → x.memory = e.memories.size →
    D.Step e (e.withQueue x) ∧
      D.mine (e.withQueue x) e.queues.size ∧ D.fresh (e.withQueue x) e.queues.size

/-- Any queue that is idle may be started, and any queue may be stopped at any time. -/
structure Running (D : Discipline) : Prop extends Turning D where
  launch {e : Engine} {q : QueueRef} : D.inv e → D.mine e q → (e.queue q).state = .idle →
    D.Leaves e (fun _ _ => True) (Queues.launch q e)
  stop {e₀ : Engine} {q : QueueRef} : D.mine e₀ q → D.Safe e₀ (Queues.stop q)

/-- What is done to queues besides running their entries. -/
structure Turns (D : Discipline) : Prop extends Running D, Preparing D

variable {D : Discipline} {e₀ : Engine} {q : QueueRef}

/-! ## Loading scripts -/

/-- Compiling only shows what is wrong. -/
theorem safe_compile (hb : D.Bookkeeping) (source : String) (script : Option ScriptRef) :
    D.Safe e₀ (Scripts.compile source script) := by
  refine safe_bind (safe_bind (safe_each fun _ _ => safe_error hb _ _ _) fun _ => safe_pure _) ?_
  refine fun lines => safe_bind (safe_look _) fun catalogue => ?_
  exact safe_bind (safe_noteAll hb _) fun _ => safe_pure _

section Loading

variable (hr : D.Turning)

include hr

/-- A source that may be read is compiled, and its lines fit. -/
theorem gives_compile {source : String} (hs : D.reads source) (script : Option ScriptRef) :
    D.Gives e₀ (Scripts.compile source script) fun codes _ => ∀ c ∈ codes, D.fits c := by
  refine ⟨fun e he hl => ?_⟩
  have safe := (safe_compile hr.toBookkeeping source script).run e he hl
  obtain ⟨events, compiled⟩ := Scripts.compile_eq source script e
  rw [compiled] at safe ⊢
  exact ⟨safe.1, hr.fits_source script he hs⟩

/-- The entries of a script are base entries of commands that may run. -/
theorem gives_baseEntries (n : Nat) :
    D.Gives e₀ (Scripts.baseEntries n) fun ns e => ∀ m ∈ ns, D.Stock e m := by
  refine ⟨fun e he _ => ?_⟩
  obtain ⟨ns, hbase, eq⟩ | ⟨events, xs, ys, ns, hbase, rfl, compiles, ready, eq, based⟩ :=
    Scripts.baseEntries_eq n e
  · rw [eq]
    refine ⟨Step.refl he, fun m hm => ?_⟩
    have base : e.IsBase m := .inl ⟨n, ns, hbase, hm⟩
    exact ⟨(hr.based he).lt base, base, hr.fits_base he hbase m hm⟩
  · have compiled := (gives_compile hr (hr.reads_script n he) (some ⟨n, (e.script n).name⟩)).run
      e he (D.refl e)
    rw [compiles] at compiled
    rw [eq]
    have kept := hr.keep (e := { e with events }) (n := n) compiled.1.1 hbase ready compiled.2
    refine ⟨compiled.1.trans kept, fun m hm => ?_⟩
    have among := Engine.Adds.of_mem_range hm
    have made := among.mem
    rw [Engine.grown_grown] at made
    exact ⟨among.right.2, based m hm, compiled.2 _ (ready.codes_eq ▸ List.mem_map_of_mem made)⟩

/-- A script is loaded onto a queue, with arguments and definitions. -/
theorem safe_load (hq : D.mine e₀ q) (n : Nat) (args : List Value)
    (definitions : List (String × Value)) : D.Safe e₀ (Scripts.load q n args definitions) := by
  refine safe_bind (safe_look _) fun record => ?_
  refine safe_bind (safe_defineAll hr.toBookkeeping hq _) fun _ => ?_
  refine safe_bind (safe_defineAll hr.toBookkeeping hq _) fun _ => ?_
  refine gives_bind (gives_baseEntries hr n) fun ms e₁ _ hl hm => ?_
  exact hr.loadBase (D.mine_mono hl hq) hm

/-- The commands of a source are put at the end of a queue. -/
theorem safe_loadSource {source : String} (hs : D.reads source) (hq : D.mine e₀ q) :
    D.Safe e₀ (do Queues.append q (← Entries.createAll (← Scripts.compile source none))) :=
  gives_bind (gives_compile hr hs none) fun _ _ _ hl hc => hr.load (D.mine_mono hl hq) hc

end Loading

/-! ## Making queues -/

/-- What is known of a queue that was just made: it comes after all others. -/
def Made (D : Discipline) (e₀ : Engine) (pace : Pace) (q : QueueRef) (e : Engine) : Prop :=
  (D.mine e q ∧ D.fresh e q) ∧ q < e.queues.size ∧ (e.queue q).pace = pace ∧
    ∀ p, p < e₀.queues.size → p < q

section Preparing

variable (ht : D.Preparing)

include ht

/-- A queue is created with options. -/
theorem gives_createQueue (pace : Pace) (name : String) (options : Queues.Options) :
    D.Gives e₀ (Queues.create pace name options) (D.Made e₀ pace) := by
  have rest (id : String) : D.Gives e₀ (fun e =>
      let q : Queue :=
        { id, name, pace, isProcedural := options.isProcedural, script := options.script,
          memory := e.memories.size, speed := options.speed }
      (.ok e.queues.size, { e with queues := e.queues.push q, memories := e.memories.push {} }))
      (D.Made e₀ pace) := by
    refine ⟨fun e he hl => ?_⟩
    have h := ht.make he
      (x := { id, name, pace, isProcedural := options.isProcedural, script := options.script,
              memory := e.memories.size, speed := options.speed })
      ⟨rfl, rfl, rfl, rfl, rfl, rfl, rfl⟩ rfl
    refine ⟨h.1, h.2, ?_, ?_, fun p hp => (ht.pace hl hp).1⟩
    · simp
    · exact congrArg Queue.pace ((e.queue_withQueue _ _).trans (if_pos rfl))
  unfold Queues.create
  dsimp only
  split
  · exact safe_bind (safe_pure _) fun id => rest id
  · exact safe_bind ⟨fun e he _ => ⟨ht.counters _ he, trivial⟩⟩ fun id => rest id

/-- A queue is created for a run, and nobody else knows of it yet. -/
theorem gives_createForRun (options : Scripts.RunOptions) (name : String)
    (script : Option ScriptRef) :
    D.Gives e₀ (Scripts.createQueue options name script) fun q e => D.mine e q ∧ D.fresh e q :=
  safe_bind (safe_look _) fun _ => (gives_createQueue ht _ _ _).mono fun _ _ _ _ h => h.1

/-- A script is prepared on a fresh queue. -/
theorem gives_prepare (name : String) (options : Scripts.RunOptions) :
    D.Gives e₀ (Scripts.prepare name options) fun q e => D.mine e q ∧ D.fresh e q := by
  refine safe_bind (safe_look _) fun found => ?_
  split
  · exact gives_breakOff _
  · refine safe_bind (safe_bind (safe_look _) fun _ => safe_pure _) fun script => ?_
    refine gives_bind (gives_createForRun ht _ _ _) fun q e₁ _ _ hq => ?_
    refine safe_bind (safe_load ht.toTurning hq.1 _ _ _) fun _ => gives_pure fun _ _ hl => ?_
    exact ⟨D.mine_mono hl hq.1, D.fresh_mono hl hq.2⟩

/-- A source is prepared on a fresh queue. -/
theorem gives_prepareSource {source : String} (hs : D.reads source) (name : Option String)
    (options : Scripts.RunOptions) :
    D.Gives e₀ (Scripts.prepareSource source name options)
      fun q e => D.mine e q ∧ D.fresh e q := by
  refine gives_bind (gives_createForRun ht _ _ _) fun q e₁ _ _ hq => ?_
  refine safe_bind (safe_defineAll ht.toBookkeeping hq.1 _) fun _ => ?_
  have put : D.Gives e₁ ((do
      Queues.append q (← Entries.createAll (← Scripts.compile source none))) >>= fun _ => pure q)
      fun q e => D.mine e q ∧ D.fresh e q := by
    refine safe_bind (safe_loadSource ht.toTurning hs hq.1) fun _ => gives_pure fun _ _ hl => ?_
    exact ⟨D.mine_mono hl hq.1, D.fresh_mono hl hq.2⟩
  simpa only [bind_assoc] using put

end Preparing

end Discipline

end QueueScript
