import QueueScript.Proofs.Likeness.Basic

/-!
# Commands on two engines

What commands do on engines that look alike goes alike on engines that are alike.  These have the same queues
and entries besides, so that all other commands go alike too.  Only the file commands look at the settings and
at files: the path that a script names is one that they may go to, and all work that they start or do stays on
such paths.
-/

namespace QueueScript.Likeness

open Paired Commands

variable {α : Type} {L : Likeness} {calls : Calls} {n : EntryRef}

/-- What commands set going goes alike. -/
structure Parallel (L : Likeness) (calls : Calls) : Prop where
  start (q : QueueRef) : Steady L (calls.start q)
  procedure : Calling L calls

attribute [grind ←] Parallel.start Parallel.procedure

/-! ## Entries -/

/-- An entry is forced to run at once alike. -/
@[grind ←]
theorem steady_forceInstant (n : EntryRef) (instant : Bool) :
    Steady L (Entries.forceInstant n instant) :=
  steady_changeEntry n _

/-- An entry is cloned alike, since it is the same. -/
@[grind ←]
theorem steady_clone (n : EntryRef) : Steady L (Entries.clone n) := by
  unfold Entries.clone Entries.takeOver
  grind

/-- Entries are cloned alike. -/
@[grind ←]
theorem steady_cloneAll (entries : List EntryRef) : Steady L (Entries.cloneAll entries) :=
  twin_collect fun n => steady_clone n

/-- Entries are cloned alike for an entry that they belong to then. -/
@[grind ←]
theorem steady_spawn (owner : EntryRef) (entries : List EntryRef) :
    Steady L (Entries.spawn owner entries) := by
  unfold Entries.spawn
  grind

/-! ## Queues -/

/-- An entry is saved under a name alike. -/
@[grind ←]
theorem steady_hold (q : QueueRef) (name : String) (n : EntryRef) :
    Steady L (Queues.hold q name n) :=
  steady_update (fun _ => rfl) fun _ _ h => h

/-- The first pending entry is taken alike. -/
@[grind ←]
theorem steady_removeFirst (q : QueueRef) : Steady L (Queues.removeFirst q) := by
  unfold Queues.removeFirst
  grind

/-- A listener is told of the end of a queue alike, at once or later. -/
@[grind ←]
theorem steady_onComplete (q : QueueRef) (l : Listener) : Steady L (Queues.onComplete q l) := by
  unfold Queues.onComplete
  grind

/-- A queue hands all that it has to another one alike. -/
@[grind ←]
theorem steady_adopt (new old : QueueRef) : Steady L (Queues.adopt new old) := by
  unfold Queues.adopt
  grind

/-- A queue is replaced by a timed one alike. -/
@[grind ←]
theorem steady_replaceByTimed (q : QueueRef) (delay : Option Delay) :
    Steady L (Queues.replaceByTimed q delay) := by
  refine twin_bind (steady_queue q) fun old => ?_
  refine twin_bind (steady_createQueue L.acting _ _ _) fun timed => ?_
  grind

/-! ## Scripts -/

/-- A script is loaded onto a queue alike. -/
@[grind ←]
theorem steady_load (q : QueueRef) (n : Nat) (args : List Value)
    (definitions : List (String × Value)) :
    Steady L (Scripts.load q n args definitions) := by
  refine alike_script L.blind fun record t => ?_
  unfold Scripts.bindParameters
  grind

/-- A queue for a run is made alike, at the pace of the settings. -/
@[grind ←]
theorem steady_createForRun (options : Scripts.RunOptions) (name : String)
    (script : Option ScriptRef) :
    Steady L (Scripts.createQueue options name script) :=
  twin_bind (steady_seeConfig L.blind (f := fun c => options.pace.getD c.defaultQueueType) fun _ _ => rfl)
    fun pace => steady_createQueue L.acting pace name _

/-- A queue that is to run a script is prepared alike. -/
@[grind ←]
theorem steady_prepare (name : String) (options : Scripts.RunOptions) :
    Steady L (Scripts.prepare name options) := by
  unfold Scripts.prepare
  grind

/-- A queue that is to run a source is prepared alike. -/
@[grind ←]
theorem steady_prepareSource (source : String) (name : Option String)
    (options : Scripts.RunOptions) :
    Steady L (Scripts.prepareSource source name options) := by
  unfold Scripts.prepareSource
  grind

/-! ## Work -/

/-- Work on paths that may be gone to is launched alike. -/
theorem steady_launch {job : Job} (h : job.Within L.goes) (n : EntryRef) :
    Steady L (Background.launch n job) := by
  refine twin_change fun e e' hl => ?_
  have lend (e : Engine) : { e with inFlight := e.inFlight ++ [⟨n, job⟩] } =
    e.lend { e.plain with inFlight := e.inFlight ++ [⟨n, job⟩] } := rfl
  rw [lend e, lend e', L.plain hl, see (f := fun e => e.inFlight) (fun _ => rfl) hl]
  refine L.lend _ hl fun w hw => ?_
  rcases List.mem_append.1 hw with hw | hw
  · exact L.inFlight hl w hw
  · rw [List.mem_singleton.1 hw]
    exact h

/-- Work on paths that may be gone to is done alike. -/
theorem steady_performNow {job : Job} (h : job.Within L.goes) : Steady L (Files.performNow job) :=
  ⟨fun hl => ⟨(L.perform hl h).1.symm, (L.perform hl h).2⟩⟩

/-- Work on paths that may be gone to is done, and its entry with it, alike. -/
theorem steady_finishNow {job : Job} (h : job.Within L.goes) (n : EntryRef)
    (wrap : FileFault → RuntimeFault) :
    Steady L (Files.finishNow n job wrap) := by
  refine twin_bind (steady_performNow h) fun outcome => ?_
  grind

/-- The outcome of work is handed over to its entry alike. -/
@[grind ←]
theorem steady_handOver (n : EntryRef) (outcome : Outcome) :
    Steady L (Background.handOver n outcome) := by
  unfold Background.handOver
  grind

/-! ## Paths -/

/-- The path that a script names is one that may be gone to. -/
theorem alike_requirePath (target : String) :
    Alike L (fun p p' => p = p' ∧ L.goes p) (Files.requirePath target)
      (Files.requirePath target) := by
  have found : Alike L (fun p p' => p = p' ∧ ∀ x, p = some x → L.goes x)
      (Action.look (·.config.scriptPath? target)) (Action.look (·.config.scriptPath? target)) := by
    refine ⟨fun hl => ⟨⟨?_, fun x hx => L.path hl hx⟩, hl⟩⟩
    show _ = Config.scriptPath? _ target
    rw [L.settings hl]
    rfl
  refine alike_bind found ?_
  rintro p _ ⟨rfl, hp⟩
  cases p with
  | none => exact alike_breakOff _
  | some p => exact alike_pure ⟨rfl, hp p rfl⟩

/-- What is done with the path that a script names is done with a path that may be gone to. -/
theorem twin_path_bind {target : String} {k k' : Path → Action α}
    (hk : ∀ p, L.goes p → Twin L (k p) (k' p)) :
    Twin L (Files.requirePath target >>= k) (Files.requirePath target >>= k') := by
  refine alike_bind (alike_requirePath target) ?_
  rintro p _ ⟨rfl, hp⟩
  exact hk p hp

/-! ## Executing -/

section Execute

/-- A command of the host is executed alike. -/
@[grind ←]
theorem steady_hostExecute (command : HostCommand) (n : EntryRef) :
    Steady L (Commands.Host.execute command n) := by
  have work {job : Job} (h : job.Within L.goes) := steady_launch h n
  unfold Commands.Host.execute Commands.Host.injectFirst Commands.Host.logArguments
  split <;> grind [Job.Within]

variable (hc : L.Parallel calls)

include hc

/-- A condition is executed alike, with clones of the same entries. -/
@[grind ←]
theorem steady_conditionExecute (n : EntryRef) : Steady L (Condition.execute calls n) := by
  refine twin_bind (steady_requireQueue L.blind n) fun q => twin_bind (steady_branches L.blind n) fun _ => ?_
  refine twin_bind (steady_choose L.blind hc.procedure n 0 _) fun found => ?_
  grind

omit hc in
/-- A round of a loop is put before the pending entries alike. -/
@[grind ←]
theorem steady_injectIteration (owner : EntryRef) (q : QueueRef) (body : List EntryRef) :
    Steady L (Loop.injectIteration owner q body) := by
  unfold Loop.injectIteration
  grind

omit hc in
/-- A loop has the same block. -/
@[grind ←]
theorem steady_body (owner : EntryRef) : Steady L (Loop.body owner) :=
  twin_bind (steady_branches L.blind owner) fun _ => steady_pure _

omit hc in
/-- A loop is started alike. -/
@[grind ←]
theorem steady_startLoop (n : EntryRef) (q : QueueRef) : Steady L (Loop.start n q) := by
  refine twin_bind (steady_count L.blind n _) fun amount => twin_bind (steady_count L.blind n _) fun first => ?_
  refine twin_bind (steady_element? L.blind n _) fun name => twin_bind (steady_report L.blind n _) fun _ => ?_
  split
  · exact steady_pure _
  · refine twin_bind (steady_body n) fun body => ?_
    grind

omit hc in
/-- A loop goes into its next round alike, or is over on both engines. -/
@[grind ←]
theorem steady_iterate (mark : EntryRef) (q : QueueRef) : Steady L (Loop.iterate mark q) := by
  refine twin_bind (steady_see fun _ => rfl) fun found => ?_
  grind

/-- A loop is executed alike, as a control, at its mark or at its start. -/
@[grind ←]
theorem steady_loopExecute (n : EntryRef) : Steady L (Loop.execute calls n) := by
  unfold Loop.execute
  grind

/-- A wait holds its queue back alike. -/
@[grind ←]
theorem steady_waitExecute (n : EntryRef) : Steady L (Wait.execute calls n) := by
  have target : Steady L (Wait.target calls n) := by
    unfold Wait.target
    grind
  refine twin_bind (steady_count L.blind n _) fun millis => twin_bind target fun q => ?_
  refine twin_bind (steady_flag L.blind hc.procedure n _) fun onClock => twin_bind (steady_queue q) fun queue => ?_
  refine twin_bind (steady_report L.blind n _) fun _ => twin_bind (steady_see fun _ => rfl) fun delay => ?_
  grind

/-- A script is run alike, on a queue with the same options. -/
@[grind ←]
theorem steady_runExecute (n : EntryRef) : Steady L (Run.execute calls n) := by
  have pace (speed : Option Value) : Steady L (Run.pace calls n speed) := by
    have config := steady_seeConfig L.blind (f := (·.defaultQueueType)) fun _ _ => rfl
    unfold Run.pace
    grind
  have options : Steady L (Run.options calls n) := by
    rw [Run.options_eq]
    refine twin_bind (steady_argumentText? L.blind hc.procedure n _) fun id => ?_
    have rest : Steady L (Run.optionsUnder calls n id) := by
      unfold Run.optionsUnder
      grind
    dsimp only
    split
    · refine twin_bind (by grind) fun taken => ?_
      split
      · exact twin_bind (alike_breakOff _) fun _ => rest
      · exact rest
    · exact rest
  refine twin_bind (steady_element? L.blind n _) fun name => twin_bind (steady_see fun _ => rfl) fun found => ?_
  have rest : Steady L (do
      let options ← Run.options calls n
      let q ← Scripts.prepare (name.getD "") options
      let queue ← Action.queue q
      Entries.store n "created_queue" (.str queue.id)
      report n [("script", name.getD ""), ("queue", queue.id), ("type", queue.pace.name)]
      if (← Action.entry n).isAwaited then
        Queues.onComplete q (.finish n)
      else
        Entries.finish n
      calls.start q) := by
    refine twin_bind options fun _ => twin_bind (steady_prepare _ _) fun q => ?_
    grind
  grind

omit hc in
/-- A file is read alike, at a path that may be gone to. -/
@[grind ←]
theorem steady_readExecute (n : EntryRef) : Steady L (Files.Read.execute n) := by
  refine twin_bind (steady_requireAllowed L.blind (fun _ _ => rfl) _ _) fun _ => ?_
  refine twin_bind (steady_parsedText L.blind n _) fun target => twin_path_bind fun path hp => ?_
  have work : (Job.read path).Within L.goes := hp
  have later := steady_launch work n
  have now := steady_finishNow work n
  grind

omit hc in
/-- A file is written alike, at a path that may be gone to. -/
@[grind ←]
theorem steady_writeExecute (n : EntryRef) : Steady L (Files.Write.execute n) := by
  refine twin_bind (steady_requireAllowed L.blind (fun _ _ => rfl) _ _) fun _ => ?_
  refine twin_bind (steady_parsedText L.blind n _) fun target => twin_path_bind fun path hp => ?_
  refine twin_bind (steady_object? L.blind n _) fun stored => twin_bind (steady_reveal L.blind _) fun v => ?_
  have work : (Job.write path v.toBytes).Within L.goes := hp
  have later := steady_launch work n
  have now := steady_finishNow work n
  grind

omit hc in
/-- A file is copied alike, between paths that may be gone to. -/
@[grind ←]
theorem steady_copyExecute (n : EntryRef) : Steady L (Files.Copy.execute n) := by
  refine twin_bind (steady_requireAllowed L.blind (fun _ _ => rfl) _ _) fun _ => ?_
  refine twin_bind (steady_parsedText L.blind n _) fun originText => twin_path_bind fun origin ho => ?_
  refine twin_bind (steady_parsedText L.blind n _) fun targetText => twin_path_bind fun target ht => ?_
  have work : (Job.copy origin target).Within L.goes := ⟨ho, ht⟩
  have later := steady_launch work n
  have now := steady_performNow work
  refine twin_bind (steady_isTrue L.blind n _) fun overwrite => twin_bind (steady_report L.blind n _) fun _ => ?_
  refine twin_bind (steady_look fun e e' hl => ?_) fun refusal => ?_
  · simp only [Files.Copy.refusal?, L.has hl ho, L.has hl ht]
  · grind

/-- A web request whose response goes to a path that may be gone to. -/
theorem alike_request (n : EntryRef) :
    Alike L (fun r r' => r = r' ∧ (Job.request r).Within L.goes) (Web.request calls n)
      (Web.request calls n) := by
  have path : Alike L (fun p p' => p = p' ∧ ∀ x, p = some x → L.goes x) (Web.savePath calls n)
      (Web.savePath calls n) := by
    refine twin_bind (steady_argumentText? L.blind hc.procedure n _) fun found => ?_
    cases found with
    | none => exact alike_pure ⟨rfl, nofun⟩
    | some target =>
      refine twin_bind (steady_requireAllowed L.blind (fun _ _ => rfl) _ _) fun _ => ?_
      refine alike_bind (alike_requirePath target) ?_
      rintro p _ ⟨rfl, hp⟩
      exact alike_pure ⟨rfl, fun _ h => Option.some.inj h ▸ hp⟩
  refine alike_bind path ?_
  rintro saveTo _ ⟨rfl, hp⟩
  refine twin_bind (steady_argument? L.blind hc.procedure n _) fun headers => ?_
  refine twin_bind (steady_argument? L.blind hc.procedure n _) fun body => ?_
  refine twin_bind (steady_element? L.blind n _) fun url => ?_
  refine twin_bind (steady_element? L.blind n _) fun method => ?_
  have request (headers : List (String × String)) (body : Option Value) :
      Alike L (fun r r' => r = r' ∧ (Job.request r).Within L.goes)
        (do
          let timeout ← Entries.count n "timeout"
          let isSilent ← Entries.flag calls n "hide_failure"
          pure { url := url.getD "", method := method.getD "GET", headers, body, timeout, saveTo,
                 isSilent })
        (do
          let timeout ← Entries.count n "timeout"
          let isSilent ← Entries.flag calls n "hide_failure"
          pure { url := url.getD "", method := method.getD "GET", headers, body, timeout, saveTo,
                 isSilent }) := by
    refine twin_bind (steady_count L.blind n _) fun timeout => ?_
    exact twin_bind (steady_flag L.blind hc.procedure n _) fun isSilent => alike_pure ⟨rfl, hp⟩
  dsimp only
  split
  · refine twin_bind (steady_reveal L.blind _) fun v => twin_bind (steady_ofExcept _ _) fun _ => ?_
    split
    · refine twin_bind (steady_reveal L.blind _) fun _ => ?_
      exact twin_bind (steady_pure _) fun _ => request _ _
    · exact twin_bind (steady_pure _) fun _ => request _ _
  · refine twin_bind (steady_pure _) fun _ => ?_
    split
    · refine twin_bind (steady_reveal L.blind _) fun _ => ?_
      exact twin_bind (steady_pure _) fun _ => request _ _
    · exact twin_bind (steady_pure _) fun _ => request _ _

/-- A web request is sent alike, and its response goes to a path that may be gone to. -/
@[grind ←]
theorem steady_webExecute (n : EntryRef) : Steady L (Web.execute calls n) := by
  refine twin_bind (steady_requireAllowed L.blind (fun _ _ => rfl) _ _) fun _ => ?_
  refine alike_bind (alike_request hc n) ?_
  rintro r _ ⟨rfl, hr⟩
  exact twin_bind (steady_report L.blind n _) fun _ => steady_launch hr n

/-- Every command is executed alike. -/
theorem steady_executeCommand (n : EntryRef) : Steady L (Commands.execute calls n) := by
  unfold Commands.execute
  grind

end Execute

end QueueScript.Likeness
