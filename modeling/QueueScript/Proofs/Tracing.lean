import QueueScript.Proofs.Likeness.Operations

/-!
# Tracing changes nothing but traces

Whether traces are shown is a setting of the engine and of every script, and a host may change both at
any time.  Traces, reports and announcements are made up in any case, so these settings decide only what
is shown of them: two runs that differ in the settings give the same answers, go through the same states
and log the same output and the same errors.

This is a statement about two runs.  What they have in common is what is left of an engine without its
traces (`Engine.untraced`), and engines with the same rest are treated alike (`Likeness.traces`).
-/

namespace QueueScript

/-! ## What is left without traces -/

/-- The script with its commands traced, otherwise the same. -/
def ScriptRecord.untraced (r : ScriptRecord) : ScriptRecord :=
  { r with traced := true }

/-- The engine without its settings of traces, which are those of the configuration, of the engine and of
its scripts, and without the traces that were shown.  The output and the errors of scripts stay. -/
def Engine.untraced (e : Engine) : Engine :=
  { e with
    config := { e.config with debug := false }
    tracing := false
    scripts := e.scripts.map ScriptRecord.untraced
    events := e.events.filter fun event => !event.kind.isTrace }

/-- The operation as it is when every script is traced. -/
def Operation.untraced : Operation → Operation
  | register record => register record.untraced
  | op => op

theorem ScriptRecord.eq_of_untraced {r r' : ScriptRecord} (h : r'.untraced = r.untraced) :
    r' = { r with traced := r'.traced } := by
  cases r
  cases r'
  cases h
  rfl

theorem ScriptRecord.map_modify (scripts : Array ScriptRecord) (n : Nat)
    {f g : ScriptRecord → ScriptRecord} (h : ∀ r, (f r).untraced = g r.untraced) :
    (scripts.modify n f).map untraced = (scripts.map untraced).modify n g := by
  refine Array.ext (by simp) fun i _ _ => ?_
  simp only [Array.getElem_map, Array.getElem_modify]
  split
  · exact h _
  · rfl

theorem ScriptRecord.modify_id (scripts : Array ScriptRecord) (n : Nat) :
    scripts.modify n id = scripts := by
  refine Array.ext (by simp) fun i _ _ => ?_
  simp only [Array.getElem_modify]
  split <;> rfl

namespace Engine

variable {e e' : Engine}

/-- The engine with a script changed. -/
theorem untraced_modifyScript (e : Engine) (n : Nat) {f g : ScriptRecord → ScriptRecord}
    (h : ∀ r, (f r).untraced = g r.untraced) :
    untraced { e with scripts := e.scripts.modify n f } =
      { e.untraced with scripts := e.untraced.scripts.modify n g } := by
  unfold untraced
  simp only [ScriptRecord.map_modify e.scripts n h]

theorem untraced_script (e : Engine) (n : Nat) : e.untraced.script n = (e.script n).untraced := by
  simp only [script, untraced, Array.getD_eq_getD_getElem?, Array.getElem?_map]
  cases e.scripts[n]? with
  | none => rfl
  | some r => rfl

/-- A diagnostic is left if it is no trace, whatever is shown. -/
theorem untraced_emit (e : Engine) (event : Event) (s : Scope) :
    (e.emit event s).untraced =
      if event.kind.isTrace then e.untraced
      else { e.untraced with events := event :: e.untraced.events } := by
  cases hk : event.kind.isTrace with
  | true =>
    unfold emit Event.isShown
    split
    · simp [untraced, hk]
    · rfl
  | false =>
    unfold emit Event.isShown
    simp [untraced, hk]

/-- Work does not look at traces. -/
theorem untraced_perform (e : Engine) (job : Job) :
    Background.perform e.untraced job =
      ((Background.perform e job).1.untraced, (Background.perform e job).2) := by
  have after (r : FileSystem × Option FileFault) : Background.afterFiles e.untraced r =
      ((Background.afterFiles e r).1.untraced, (Background.afterFiles e r).2) := by
    unfold Background.afterFiles
    dsimp only
    split <;> rfl
  have sends (r : WebRequest) : Background.send e.untraced r =
      ((Background.send e r).1.untraced, (Background.send e r).2) := by
    unfold Background.send untraced
    dsimp only
    split
    · rfl
    · split <;> rfl
  cases job with
  | read path =>
    unfold Background.perform untraced
    dsimp only
    split <;> rfl
  | write path content => exact after _
  | copy origin destination => exact after _
  | request r =>
    simp only [Background.perform, Background.fetch, sends]
    split
    · rename_i path _ hpath
      simp only [untraced]
      split <;> rfl
    · rfl
  | give v => rfl
  | fail message => rfl
  | giveUnusable message => rfl

end Engine

/-! ## Engines that are the same without their traces -/

namespace Engine

variable {e e' : Engine} (h : e'.untraced = e.untraced)

include h

theorem script_of_untraced (n : Nat) :
    e'.script n = { e.script n with traced := (e'.script n).traced } := by
  refine ScriptRecord.eq_of_untraced ?_
  rw [← untraced_script, h, untraced_script]

theorem config_of_untraced : e'.config = { e.config with debug := e'.config.debug } := by
  have config : { e'.config with debug := false } = { e.config with debug := false } :=
    congrArg Engine.config h
  generalize e.config = c at config ⊢
  generalize e'.config = c' at config ⊢
  cases c
  cases c'
  cases config
  rfl

theorem plain_of_untraced : e'.plain = e.plain := by
  have plain : e'.untraced.plain = e.untraced.plain := by rw [h]
  exact plain

/-- An entry stands at the same place, traced or not. -/
theorem scope_of_untraced (n : EntryRef) : (e.scope n).SamePlace (e'.scope n) := by
  have plain := plain_of_untraced h
  have entry : e'.entry n = e.entry n := by
    rw [← Likeness.entry_plain, plain, Likeness.entry_plain]
  have queue : e'.queue = e.queue :=
    funext fun q => by rw [← Likeness.queue_plain, plain, Likeness.queue_plain]
  have residing : e'.residingQueue n = e.residingQueue n := by
    rw [← Likeness.residingQueue_plain, plain, Likeness.residingQueue_plain]
  simp only [Scope.SamePlace, scope, entry, queue, residing]
  cases (e.entry n).code.script with
  | none => rfl
  | some s =>
    have script := script_of_untraced h s.number
    simp only [Option.map_some, Option.getD_some]
    rw [script]

end Engine

/-- Engines that are the same without their traces. -/
def Likeness.traces : Likeness where
  like e e' := e'.untraced = e.untraced
  scopes := Scope.SamePlace
  goes _ := True
  plain h := Engine.plain_of_untraced h
  settings h := Engine.config_of_untraced h
  script n h := Engine.script_of_untraced h n
  scripts_size {e e'} h := by
    have size : e'.untraced.scripts.size = e.untraced.scripts.size := by rw [h]
    simpa [Engine.untraced] using size
  scopes_refl _ := rfl
  samePlace h := h
  scope n h := Engine.scope_of_untraced h n
  path _ _ := trivial
  has {e e' p} h _ := by
    have files : e'.untraced.files = e.untraced.files := by rw [h]
    exact congrArg (FileSystem.has · p) files
  inFlight _ w _ := by
    cases w.job <;> simp [Job.Within]
  lend {e e'} p h _ := by
    have lent : e'.untraced.lend p = e.untraced.lend p := by rw [h]
    exact lent
  emit event h _ := by
    simp only [Engine.untraced_emit, h]
  base {e e'} n codes h := by
    have modified (e : Engine) := e.untraced_modifyScript n
      (f := ({ · with base := some codes })) (g := ({ · with base := some codes })) fun _ => rfl
    rw [modified, modified, h]
  push {e e'} record h := by
    have pushed (e : Engine) : Engine.untraced { e with scripts := e.scripts.push record } =
        { e.untraced with scripts := e.untraced.scripts.push record.untraced } := by
      simp only [Engine.untraced, Array.map_push]
    rw [pushed, pushed, h]
  perform {e e' job} h _ := by
    have same : Background.perform e'.untraced job = Background.perform e.untraced job := by rw [h]
    rw [Engine.untraced_perform, Engine.untraced_perform] at same
    exact ⟨congrArg (·.2) same, congrArg (·.1) same⟩

/-! ## Two runs -/

/-- What a host asks of an engine: an operation with its fuel, or that traces be shown from now on or not
shown any more, those of the engine or those of one script. -/
inductive Request where
  /-- An operation. -/
  | operation (fuel : Nat) (op : Operation)
  /-- Traces are shown, or not. -/
  | showTraces (shown : Bool)
  /-- The commands of a script are traced, or not. -/
  | traceScript (n : Nat) (traced : Bool)

namespace Request

/-- The operation of a request as it is when every script is traced. -/
def untraced? : Request → Option (Nat × Operation)
  | operation fuel op => some (fuel, op.untraced)
  | _ => none

/-- Requests one after the other: the answers to the operations, and the engine in the end. -/
def runAll : List Request → Engine → List (Except Failure Unit) × Engine
  | [], e => ([], e)
  | operation fuel op :: rest, e =>
    let (r, e) := op.act fuel e
    let (rs, e) := runAll rest e
    (r :: rs, e)
  | showTraces tracing :: rest, e => runAll rest { e with tracing }
  | traceScript n traced :: rest, e => runAll rest (Scripts.setTraced n traced e).2

end Request

theorem Operation.act_untraced (fuel : Nat) (op : Operation) (e : Engine) :
    (op.untraced.act fuel e).1 = (op.act fuel e).1 ∧
      (op.untraced.act fuel e).2.untraced = (op.act fuel e).2.untraced := by
  cases op with
  | register record =>
    refine ⟨rfl, ?_⟩
    show Engine.untraced { e with
        scripts := e.scripts.push { record.untraced with base := none }
        scriptNames := e.scriptNames.put (Text.lower record.name) e.scripts.size } =
      Engine.untraced { e with
        scripts := e.scripts.push { record with base := none }
        scriptNames := e.scriptNames.put (Text.lower record.name) e.scripts.size }
    simp only [Engine.untraced, Array.map_push]
    rfl
  | _ => exact ⟨rfl, rfl⟩

/-- Operations of a host and moves of the world give the same answers to engines that are the same without
their traces, and leave them so. -/
theorem Operation.act_alike {e e' : Engine} (h : e'.untraced = e.untraced) (fuel : Nat)
    (op : Operation) :
    (op.act fuel e').1 = (op.act fuel e).1 ∧
      (op.act fuel e').2.untraced = (op.act fuel e).2.untraced := by
  by_cases hop : op.IsWorld
  · cases op with
    | world files webPlans clock =>
      have moved : { e'.untraced with files, webPlans, clock } =
          { e.untraced with files, webPlans, clock } := by rw [h]
      exact ⟨rfl, moved⟩
    | _ => exact hop.elim
  · exact Likeness.twin_run (Likeness.steady_act (L := .traces) fuel hop) h

theorem Scripts.untraced_setTraced (n : Nat) (traced : Bool) (e : Engine) :
    (Scripts.setTraced n traced e).2.untraced = e.untraced := by
  have modified := e.untraced_modifyScript n (f := ({ · with traced := traced })) (g := id) fun _ => rfl
  exact modified.trans (by rw [ScriptRecord.modify_id])

/-- Operations with other requests in between give the answers, and lead to the engine, that they do
alone, apart from traces. -/
theorem Request.runAll_untraced (requests : List Request) {e e' : Engine}
    (h : e'.untraced = e.untraced) :
    (runAll requests e').1 = (Operation.runAll (requests.filterMap untraced?) e).1 ∧
      (runAll requests e').2.untraced =
        (Operation.runAll (requests.filterMap untraced?) e).2.untraced := by
  induction requests generalizing e e' with
  | nil => exact ⟨rfl, h⟩
  | cons request rest ih =>
    cases request with
    | operation fuel op =>
      obtain ⟨answer, hl⟩ := Operation.act_alike h fuel op
      obtain ⟨answer', hl'⟩ := Operation.act_untraced fuel op e
      obtain ⟨answers, end'⟩ := ih (hl.trans hl'.symm)
      have head : (operation fuel op :: rest).filterMap untraced? =
          (fuel, op.untraced) :: rest.filterMap untraced? := rfl
      rw [head, Operation.runAll_cons, answer', ← answer, ← answers]
      exact ⟨rfl, end'⟩
    | showTraces tracing => exact ih h
    | traceScript n traced => exact ih ((Scripts.untraced_setTraced n traced e').trans h)

/-- The setting of traces is the only one that a new engine forgets without its traces. -/
theorem Host.untraced_create {config config' : Config}
    (h : config' = { config with debug := config'.debug }) (modules : List CommandModule) :
    (create config' modules).untraced = (create config modules).untraced := by
  have add (ms : List CommandModule) (e : Engine) :
      (ms.foldl addModule e).untraced = ms.foldl addModule e.untraced := by
    induction ms generalizing e with
    | nil => rfl
    | cons m rest ih => exact ih (addModule e m)
  unfold create
  rw [add, add, h]
  rfl

/-- Tracing changes nothing but traces.

Two engines have configurations that differ in nothing but whether traces are shown, and are asked for
the same operations, with scripts that may differ in whether their commands are traced.  In between, the
traces of either engine and of its scripts may be turned on and off.  Then all answers are the same, and
the engines in the end are the same in everything but settings of traces and traces that were shown: in
queues, entries and what they hold, in the registry, the work under way, the files and the requests that
were sent, in the history, and in the output and the errors that were logged. -/
theorem tracing_changes_traces_only {config config' : Config}
    (hconfig : config' = { config with debug := config'.debug }) (modules : List CommandModule)
    {requests requests' : List Request}
    (hsame : requests'.filterMap Request.untraced? = requests.filterMap Request.untraced?) :
    let run := Request.runAll requests (Host.create config modules)
    let run' := Request.runAll requests' (Host.create config' modules)
    run'.1 = run.1 ∧ run'.2.untraced = run.2.untraced := by
  intro run run'
  have alone := Request.runAll_untraced requests (e := Host.create config modules) rfl
  have alone' := Request.runAll_untraced requests' (Host.untraced_create hconfig modules)
  rw [hsame] at alone'
  exact ⟨alone'.1.trans alone.1.symm, alone'.2.trans alone.2.symm⟩

/-- A procedure is called, a queue is replaced, and a command fails, once with all traces shown and once
with none but those of the beats. -/
theorem tracing_changes_traces_only_wait :
    let source := "define x:<proc[p]>\nwait 1 save:w\nnope\ndebug log <[x]>"
    let requests (traced : Bool) : List Request :=
      [.operation 9 (.register { name := "p", source := "determine 7", kind := .procedure, traced }),
        .operation 9 (.runCommands source none {} true), .showTraces true,
        .operation 9 (.tick (some 2.0)), .operation 9 (.tick none)]
    let run (debug : Bool) := Request.runAll (requests debug) (Host.create { debug } [])
    ((run true).2.events.length = 16 ∧ (run false).2.events.length = 5) ∧
      (run true).1 = (run false).1 ∧ (run true).2.untraced = (run false).2.untraced := by
  intro source requests run
  refine ⟨by decide +kernel, ?_⟩
  have differ : ({ debug := true } : Config) = { ({ debug := false } : Config) with debug := true } := rfl
  have same : (requests true).filterMap Request.untraced? =
      (requests false).filterMap Request.untraced? := rfl
  exact tracing_changes_traces_only differ [] same

end QueueScript
