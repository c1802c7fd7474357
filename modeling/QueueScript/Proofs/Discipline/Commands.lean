import QueueScript.Proofs.Discipline.Queues

/-!
# Running an entry keeps a discipline

The commands that reach beyond their queue: they delay queues, start scripts and work, and wait for
them.  With these, every command is safe, and an entry that was run is cared for: it is done, or
something was set going that will finish it.
-/

namespace QueueScript

/-- Whether a built-in command may return before its entry is done. -/
def Behaviour.mayHold : Behaviour → Bool
  | .run | .fileRead | .fileWrite | .fileCopy | .webRequest => true
  | _ => false

namespace Discipline

/-- What the commands do that may not run in procedures, besides starting queues. -/
structure Reaching (D : Discipline) : Prop extends Preparing D where
  work {e : Engine} {n : EntryRef} (job : Job) : D.inv e → D.own e n →
    D.Step e { e with inFlight := e.inFlight ++ [⟨n, job⟩] } ∧
      D.cared { e with inFlight := e.inFlight ++ [⟨n, job⟩] } n
  perform {e : Engine} (job : Job) : D.inv e → D.Step e (Background.perform e job).1
  listen {e₀ : Engine} {q : QueueRef} {n : EntryRef} : D.fresh e₀ q → D.own e₀ n →
    D.Gives e₀ (Queues.onComplete q (.finish n)) fun _ e => D.cared e n
  unheld {e : Engine} {n : EntryRef} : D.inv e → D.own e n →
    (e.entry n).code.handler.behaviour.mayHold = false → D.Eased e n

/-- Any queue may be started or replaced at any time. -/
structure Outreach (D : Discipline) : Prop extends Turns D, Reaching D where
  registered {e : Engine} {q : QueueRef} {id : String} :
    D.inv e → e.registered? id = some q → D.mine e q
  replace {e₀ : Engine} {q : QueueRef} (d : Option Delay) : D.mine e₀ q →
    D.Gives e₀ (Queues.replaceByTimed q d) fun t e => D.mine e t

/-- The queues that commands start keep the discipline. -/
def StartSafe (D : Discipline) (calls : Calls) : Prop :=
  ∀ e₀ q, D.mine e₀ q → D.Safe e₀ (calls.start q)

variable {D : Discipline} {e₀ : Engine} {calls : Calls} {n : EntryRef}

/-! ## Work -/

section Work

variable (ho : D.Reaching) (hn : D.own e₀ n)

include ho hn

/-- Work is launched for an entry, which is from then on cared for. -/
theorem gives_launch (job : Job) :
    D.Gives e₀ (Background.launch n job) fun _ e => D.cared e n :=
  ⟨fun _ he hl => ho.work job he (D.own_mono hl hn)⟩

omit ho in
/-- The outcome of background work is applied to its entry. -/
theorem safe_apply (hb : D.Bookkeeping) (outcome : Outcome) :
    D.Safe e₀ (Background.apply n outcome) := by
  refine safe_bind (safe_entry n) fun x => ?_
  dsimp only
  split
  · exact safe_store hb hn _ _
  · split
    · exact safe_store hb hn _ _
    · exact safe_pure _
  · refine safe_bind (safe_each fun p _ => safe_store hb hn p.1 p.2) fun _ => ?_
    exact safe_ite (safe_bind (safe_scope n) fun s => safe_error hb _ s _) (safe_pure _)
  · exact safe_store hb hn _ _
  · exact gives_fail nofun
  · split
    · refine safe_bind (safe_store hb hn _ _) fun _ => ?_
      exact safe_bind (safe_scope n) fun s => safe_error hb _ s _
    · exact safe_bind (safe_scope n) fun s => safe_error hb _ s _

omit hn in
/-- A job is done at once. -/
theorem safe_performNow (job : Job) : D.Safe e₀ (Commands.Files.performNow job) :=
  ⟨fun _ he _ => ⟨ho.perform job he, trivial⟩⟩

/-- A job is done at once, and its entry is cared for. -/
theorem gives_finishNow (job : Job) (wrap : FileFault → RuntimeFault) :
    D.Gives e₀ (Commands.Files.finishNow n job wrap) fun _ e => D.cared e n := by
  refine safe_bind (safe_performNow ho job) fun outcome => ?_
  refine gives_bind (gives_finishEntry ho.toBookkeeping hn) fun _ e₁ _ hl hc => ?_
  split
  · exact gives_breakOff _
  · exact (safe_apply (D.own_mono hl hn) ho.toBookkeeping outcome).mono fun _ _ _ hl₂ _ => D.cared_mono hl₂ hc

end Work

/-! ## Files and the web -/

section Files

variable (ho : D.Reaching) (hn : D.own e₀ n)

/-- A setting is asked for. -/
theorem safe_requireAllowed (allowed : Config → Bool) (action setting : String) :
    D.Safe e₀ (Commands.Files.requireAllowed allowed action setting) :=
  safe_bind (safe_look _) fun _ => safe_ite (gives_breakOff _) (safe_pure _)

/-- A path is checked. -/
theorem safe_requirePath (target : String) : D.Safe e₀ (Commands.Files.requirePath target) := by
  refine safe_bind (safe_look _) fun found => ?_
  split
  · exact safe_pure _
  · exact gives_breakOff _

/-- A text that was stored while parsing is read. -/
theorem safe_parsedText (n : EntryRef) (key : String) :
    D.Safe e₀ (Commands.Files.parsedText n key) :=
  safe_bind (safe_element? n key) fun _ => safe_pure _

include ho hn

/-- Work is started for an entry that is waited for, and done at once otherwise. -/
theorem gives_launchOr (job : Job) {now : Action Unit}
    (hnow : D.Gives e₀ now fun _ e => D.cared e n) :
    D.Gives e₀ (do if (← Action.entry n).isAwaited then Background.launch n job else now)
      fun _ e => D.cared e n := by
  refine safe_bind (safe_entry n) fun x => ?_
  split
  · exact gives_launch ho hn job
  · exact hnow

/-- What `fileread` does, and its entry is cared for. -/
theorem gives_readExecute :
    D.Gives e₀ (Commands.Files.Read.execute n) fun _ e => D.cared e n := by
  refine safe_bind (safe_requireAllowed _ _ _) fun _ => safe_bind (safe_parsedText n _) fun _ => ?_
  refine safe_bind (safe_requirePath _) fun path => ?_
  refine safe_bind (safe_reportParsed ho.toBookkeeping n _) fun _ => ?_
  exact gives_launchOr ho hn _ (gives_finishNow ho hn _ _)

/-- What `filewrite` does, and its entry is cared for. -/
theorem gives_writeExecute :
    D.Gives e₀ (Commands.Files.Write.execute n) fun _ e => D.cared e n := by
  refine safe_bind (safe_requireAllowed _ _ _) fun _ => safe_bind (safe_parsedText n _) fun _ => ?_
  refine safe_bind (safe_requirePath _) fun path => safe_bind (safe_object? n _) fun _ => ?_
  refine safe_bind (safe_reveal _) fun _ => ?_
  refine safe_bind (safe_reportParsed ho.toBookkeeping n _) fun _ => ?_
  exact gives_launchOr ho hn _ (gives_finishNow ho hn _ _)

/-- What `filecopy` does, and its entry is cared for. -/
theorem gives_copyExecute :
    D.Gives e₀ (Commands.Files.Copy.execute n) fun _ e => D.cared e n := by
  have hb := ho.toBookkeeping
  refine safe_bind (safe_requireAllowed _ _ _) fun _ => safe_bind (safe_parsedText n _) fun _ => ?_
  refine safe_bind (safe_requirePath _) fun origin => safe_bind (safe_parsedText n _) fun _ => ?_
  refine safe_bind (safe_requirePath _) fun destination => safe_bind (safe_isTrue n _) fun _ => ?_
  refine safe_bind (safe_reportParsed hb n _) fun _ => safe_bind (safe_look _) fun refusal => ?_
  split
  · refine safe_bind (safe_scope n) fun s => safe_bind (safe_error hb _ s _) fun _ => ?_
    exact safe_bind (safe_store hb hn _ _) fun _ => gives_finishEntry hb hn
  · refine gives_launchOr ho hn _ (safe_bind (safe_performNow ho _) fun outcome => ?_)
    exact safe_bind (safe_apply hn hb outcome) fun _ => gives_finishEntry hb hn

omit hn in
/-- What a web request asks for is read off its entry. -/
theorem safe_request [D.Lenient] (hp : D.ProcedureSafe calls) (n : EntryRef) :
    D.Safe e₀ (Commands.Web.request calls n) := by
  have hb := ho.toBookkeeping
  have savePath : D.Safe e₀ (Commands.Web.savePath calls n) := by
    refine safe_bind (safe_argumentText? hb hp _) fun found => ?_
    split
    · exact safe_pure _
    · exact safe_bind (safe_requireAllowed _ _ _) fun _ => safe_map (safe_requirePath _)
  rw [Commands.Web.request_eq]
  refine safe_bind savePath fun saveTo => safe_bind (safe_argument? hb hp _) fun headers => ?_
  refine safe_bind (safe_argument? hb hp _) fun body => safe_bind (safe_element? n _) fun url => ?_
  refine safe_bind (safe_element? n _) fun method => ?_
  have timing (headers : List (String × String)) (body : Option Value) : D.Safe e₀ (do
      let timeout ← Entries.count n "timeout"
      let isSilent ← Entries.flag calls n "hide_failure"
      pure ({ url := url.getD "", method := method.getD "GET", headers, body, timeout, saveTo,
              isSilent } : WebRequest)) :=
    safe_bind (safe_count n _) fun _ => safe_bind (safe_flag hb hp _) fun _ => safe_pure _
  have content (headers : List (String × String)) :
      D.Safe e₀ (Commands.Web.requestWith calls n saveTo body url method headers) := by
    cases body with
    | some a =>
      refine safe_bind (safe_reveal _) fun _ => safe_bind (safe_pure _) fun body => ?_
      exact timing headers body
    | none => exact safe_bind (safe_pure _) fun body => timing headers body
  cases headers with
  | some a =>
    refine safe_bind (safe_reveal _) fun _ => safe_bind (safe_ofExcept_any _) fun headers => ?_
    exact content headers
  | none => exact safe_bind (safe_pure _) fun headers => content headers

/-- What `webget` does, and its entry is cared for. -/
theorem gives_webExecute [D.Lenient] (hp : D.ProcedureSafe calls) :
    D.Gives e₀ (Commands.Web.execute calls n) fun _ e => D.cared e n := by
  refine safe_bind (safe_requireAllowed _ _ _) fun _ => safe_bind (safe_request ho hp n) fun r => ?_
  exact safe_bind (safe_reportParsed ho.toBookkeeping n _) fun _ => gives_launch ho hn _

end Files

/-! ## Other queues -/

section Queues

variable (ho : D.Outreach) (hp : D.ProcedureSafe calls) (hs : D.StartSafe calls)
  (hn : D.own e₀ n)

include hp

omit hn in
/-- What `wait` waits for is looked up. -/
theorem safe_target (hb : D.Noting) : D.Safe e₀ (Commands.Wait.target calls n) := by
  refine safe_bind (safe_argumentText? hb hp _) fun id => ?_
  split
  · exact safe_requireQueue n
  · refine safe_bind (safe_look _) fun found => ?_
    split
    · exact safe_pure _
    · exact gives_breakOff _

include ho hn

/-- The queue that a delay is meant for. -/
theorem gives_target : D.Gives e₀ (Commands.Wait.target calls n) fun q e => D.mine e q := by
  refine safe_bind (safe_argumentText? ho.toBookkeeping hp _) fun id => ?_
  split
  · exact gives_requireQueue ho.toBookkeeping hn
  · refine look_bind fun e₁ he _ => ?_
    split
    · rename_i q h
      exact gives_pure fun _ _ hl => D.mine_mono hl (ho.registered he h)
    · exact gives_breakOff _

include hs

/-- What `wait` does. -/
theorem safe_waitExecute : D.Safe e₀ (Commands.Wait.execute calls n) := by
  have hb := ho.toBookkeeping
  refine safe_bind (safe_count n _) fun millis => ?_
  refine gives_bind (gives_target ho hp hn) fun q e₁ _ hl hq => ?_
  refine safe_bind (safe_flag hb hp _) fun _ => safe_bind (safe_queue q) fun queue => ?_
  refine safe_bind (safe_reportParsed hb n _) fun _ => safe_bind (safe_look _) fun delay => ?_
  split
  · exact safe_change fun e he hl₂ => ho.delay _ he (D.mine_mono hl₂ hq)
  · exact gives_bind (ho.replace _ hq) fun timed e₂ _ _ ht => hs e₂ timed ht

omit ho hn hs in
/-- The pace that `run` asks for. -/
theorem safe_runPace (hb : D.Noting) (n : EntryRef) (speed : Option Value) :
    D.Safe e₀ (Commands.Run.pace calls n speed) := by
  refine safe_ite (safe_pure _) (safe_bind (safe_flag hb hp _) fun _ => ?_)
  exact safe_ite (safe_pure _) (safe_look _)

omit ho hn hs in
/-- The options that `run` hands on. -/
theorem safe_runOptions (hb : D.Noting) (n : EntryRef) : D.Safe e₀ (Commands.Run.options calls n) := by
  have rest (id : Option String) : D.Safe e₀ (Commands.Run.optionsUnder calls n id) := by
    refine safe_bind (safe_argument? hb hp _) fun given => safe_bind (safe_object? n _) fun s => ?_
    refine safe_bind (safe_runPace hp hb n s) fun p => ?_
    cases given with
    | some a =>
      refine safe_bind (safe_reveal _) fun _ => ?_
      exact safe_bind (safe_pure _) fun _ => safe_pure _
    | none => exact safe_bind (safe_pure _) fun _ => safe_pure _
  rw [Commands.Run.options_eq]
  refine safe_bind (safe_argumentText? hb hp _) fun id => ?_
  dsimp only
  split
  · refine safe_bind (safe_look _) fun taken => ?_
    exact safe_ite (safe_bind (gives_breakOff _) fun _ => rest _) (rest _)
  · exact rest _

/-- What `run` does, and its entry is cared for. -/
theorem gives_runExecute :
    D.Gives e₀ (Commands.Run.execute calls n) fun _ e => D.cared e n := by
  have hb := ho.toBookkeeping
  have rest (name : String) : D.Gives e₀ (do
      let options ← Commands.Run.options calls n
      let q ← Scripts.prepare name options
      let queue ← Action.queue q
      Entries.store n "created_queue" (.str queue.id)
      Commands.report n [("script", name), ("queue", queue.id), ("type", queue.pace.name)]
      if (← Action.entry n).isAwaited then
        Queues.onComplete q (.finish n)
      else
        Entries.finish n
      calls.start q) fun _ e => D.cared e n := by
    refine safe_bind (safe_runOptions hp hb n) fun options => ?_
    refine gives_bind (gives_prepare ho.toPreparing name options) fun q e₁ _ hl hq => ?_
    have hn₁ := D.own_mono hl hn
    refine safe_bind (safe_queue q) fun queue => safe_bind (safe_store hb hn₁ _ _) fun _ => ?_
    refine safe_bind (safe_reportParsed hb n _) fun _ => safe_bind (safe_entry n) fun x => ?_
    have start (e₂ : Engine) (hl₂ : D.le e₁ e₂) (hc : D.cared e₂ n) :
        D.Gives e₂ (calls.start q) fun _ e => D.cared e n :=
      (hs e₂ q (D.mine_mono hl₂ hq.1)).mono fun _ _ _ hl₃ _ => D.cared_mono hl₃ hc
    dsimp only
    split
    · exact gives_bind (ho.listen hq.2 hn₁) fun _ e₂ _ hl₂ hc => start e₂ hl₂ hc
    · exact gives_bind (gives_finishEntry hb hn₁) fun _ e₂ _ hl₂ hc => start e₂ hl₂ hc
  refine safe_bind (safe_element? n _) fun name => safe_bind (safe_look _) fun found => ?_
  dsimp only
  split
  · exact safe_bind (gives_breakOff _) fun _ => rest _
  · exact rest _

end Queues

/-! ## Commands of the host -/

section Host

variable (ho : D.Reaching) (hf : D.Weaving) (hn : D.own e₀ n)

include ho hf hn

/-- What a command of the host does. -/
theorem safe_hostExecute (command : HostCommand) :
    D.Safe e₀ (Commands.Host.execute command n) := by
  have hb := ho.toBookkeeping
  unfold Commands.Host.execute
  split
  · exact gives_breakOff _
  · exact gives_refuse _
  · exact gives_fail nofun
  · exact gives_fail nofun
  · exact safe_pure _
  · exact (gives_finishEntry hb hn).safe
  · exact (gives_launch ho hn _).safe
  · exact (gives_launch ho hn _).safe
  · exact (gives_launch ho hn _).safe
  · refine gives_bind (gives_branches hf hn) fun branches e₁ _ hl hbs => ?_
    split
    · exact safe_pure _
    · refine gives_bind (gives_requireQueue hb (D.own_mono hl hn)) fun q e₂ _ hl₂ hq => ?_
      refine hf.block (D.own_mono (D.trans hl hl₂) hn) hq fun m hm => ?_
      exact hf.stock_mono hl₂ (hbs _ List.mem_cons_self m hm)
  · exact gives_bind (gives_requireQueue hb hn) fun _ _ _ _ _ => safe_pure _
  · refine safe_bind (safe_entry n) fun _ => safe_bind (safe_element? n _) fun _ => ?_
    exact safe_bind (safe_scope n) fun s => safe_log hb _ s

end Host

/-! ## The execute step -/

/-- A command that puts blocks on its queue keeps the discipline from an engine on. -/
def RunsBlocks (D : Discipline) (calls : Calls) (n : EntryRef) (e : Engine) : Prop :=
  match (e.entry n).code.handler.behaviour with
  | .condition => D.Safe e (Commands.Condition.execute calls n)
  | .loop => D.Safe e (Commands.Loop.execute calls n)
  | .host command => D.Safe e (Commands.Host.execute command n)
  | _ => True

/-- Blocks are safe when each of them is as a whole. -/
theorem runsBlocks (ho : D.Reaching) (hf : D.Weaving) (hem : D.Emptying)
    (hp : D.ProcedureSafe calls) (hn : D.own e₀ n) : D.RunsBlocks calls n e₀ := by
  unfold RunsBlocks
  split
  · exact safe_conditionExecute hf hp hn
  · exact safe_loopExecute hf hem hp hn
  · exact safe_hostExecute ho hf hn _
  · trivial

/-- Every command is safe if those that run blocks are, and one that can be waited for has cared for
its entry. -/
theorem gives_commandsExecute [D.Lenient] (ho : D.Outreach) (hem : D.Emptying)
    (hp : D.ProcedureSafe calls) (hs : D.StartSafe calls) (hn : D.own e₀ n)
    (hblocks : ∀ e₁, D.inv e₁ → D.le e₀ e₁ → D.RunsBlocks calls n e₁) :
    D.Gives e₀ (Commands.execute calls n) fun _ e => D.Eased e n := by
  refine look_bind fun e₁ he hl => ?_
  have hn₁ := D.own_mono hl hn
  have blocks := hblocks e₁ he hl
  unfold RunsBlocks at blocks
  have unheld {a : Action Unit} (ha : D.Safe e₁ a)
      (hb : (e₁.entry n).code.handler.behaviour.mayHold = false) :
      D.Gives e₁ a fun _ e => D.Eased e n :=
    ha.mono fun _ _ _ hl₂ _ => ho.eased_mono hl₂ hn₁ (ho.unheld he hn₁ hb)
  have cared {a : Action Unit} (ha : D.Gives e₁ a fun _ e => D.cared e n) :
      D.Gives e₁ a fun _ e => D.Eased e n :=
    ha.mono fun _ _ _ _ hc => .inl hc
  split <;> rename_i hb <;> rw [hb] at blocks
  · exact unheld (safe_pure _) (by rw [hb]; rfl)
  · exact unheld (safe_debugExecute ho.toBookkeeping) (by rw [hb]; rfl)
  · exact unheld (safe_defineExecute ho.toBookkeeping hn₁) (by rw [hb]; rfl)
  · exact unheld (safe_determineExecute ho.toFilling hem hn₁) (by rw [hb]; rfl)
  · exact unheld (safe_stopExecute ho.toFilling hem hn₁) (by rw [hb]; rfl)
  · exact unheld blocks (by rw [hb]; rfl)
  · exact unheld blocks (by rw [hb]; rfl)
  · exact unheld (safe_waitExecute ho hp hs hn₁) (by rw [hb]; rfl)
  · exact cared (gives_runExecute ho hp hs hn₁)
  · exact cared (gives_readExecute ho.toReaching hn₁)
  · exact cared (gives_writeExecute ho.toReaching hn₁)
  · exact cared (gives_copyExecute ho.toReaching hn₁)
  · exact cared (gives_webExecute ho.toReaching hn₁ hp)
  · exact unheld blocks (by rw [hb]; rfl)

/-- Every command keeps the discipline on an engine if those do that run blocks, end queues or start
them. -/
theorem leaves_commandsExecute [D.Lenient] {e : Engine} (hr : D.Reaching) (hp : D.ProcedureSafe calls)
    (he : D.inv e) (hn : D.own e n)
    (hdetermine : (e.entry n).code.handler.behaviour = .determine →
      D.Leaves e (fun _ _ => True) (Commands.Determine.execute n e))
    (hstop : (e.entry n).code.handler.behaviour = .stop →
      D.Leaves e (fun _ _ => True) (Commands.Stop.execute n e))
    (hcondition : (e.entry n).code.handler.behaviour = .condition →
      D.Leaves e (fun _ _ => True) (Commands.Condition.execute calls n e))
    (hloop : (e.entry n).code.handler.behaviour = .loop →
      D.Leaves e (fun _ _ => True) (Commands.Loop.execute calls n e))
    (hwait : (e.entry n).code.handler.behaviour = .wait →
      D.Leaves e (fun _ _ => True) (Commands.Wait.execute calls n e))
    (hrun : (e.entry n).code.handler.behaviour = .run →
      D.Leaves e (fun _ _ => True) (Commands.Run.execute calls n e))
    (hhost : ∀ command, (e.entry n).code.handler.behaviour = .host command →
      D.Leaves e (fun _ _ => True) (Commands.Host.execute command n e)) :
    D.Leaves e (fun _ _ => True) (Commands.execute calls n e) := by
  have hb := hr.toBookkeeping
  have run {a : Action Unit} {Q : Unit → Engine → Prop} (h : D.Gives e a Q) :
      D.Leaves e (fun _ _ => True) (a e) :=
    (h.run e he (D.refl e)).mono fun _ _ _ _ => trivial
  rw [Commands.execute, Action.entry_bind]
  cases hbehaviour : (e.entry n).code.handler.behaviour with
  | stub => exact run (safe_pure _)
  | debug => exact run (safe_debugExecute hb)
  | define => exact run (safe_defineExecute hb hn)
  | determine => exact hdetermine hbehaviour
  | stop => exact hstop hbehaviour
  | condition => exact hcondition hbehaviour
  | loop => exact hloop hbehaviour
  | wait => exact hwait hbehaviour
  | run => exact hrun hbehaviour
  | fileRead => exact run (gives_readExecute hr hn)
  | fileWrite => exact run (gives_writeExecute hr hn)
  | fileCopy => exact run (gives_copyExecute hr hn)
  | webRequest => exact run (gives_webExecute hr hn hp)
  | host command => exact hhost command hbehaviour

end Discipline

end QueueScript
