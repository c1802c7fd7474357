import QueueScript.Proofs.Paired.Parsing

/-!
# Commands side by side

The commands that touch nothing but their queue and its entries change queues and what these share, and
entries in all but their marks (`Paired.Acting`).  So they are executed alike on two engines that look alike.
Clones of entries have their marks, so that they are made alike only of entries that are the same
(`Paired.Owning`).
-/

namespace QueueScript.Paired

open Commands Engine

variable {α : Type} {R : Pairing} {calls : Calls} {m : EntryRef}

/-! ## Entries and queues -/

/-- What commands do that touch nothing but their queue may be done on engines that are related. -/
structure Acting (R : Pairing) : Prop extends Blind R where
  changeEntry {e e' : Engine} (m : EntryRef) {f : Entry → Entry} :
    (∀ x w, f (x.waiting w) = (f x).waiting w) → R e e' → R (e.changeEntry m f) (e'.changeEntry m f)
  changeQueue {e e' : Engine} (q : QueueRef) {f : Queue → Queue} :
    (∀ x t, f (x.paced t) = (f x).paced t) → (∀ x, (f x).last = x.last) → R e e' →
      R (e.changeQueue q f) (e'.changeQueue q f)
  aside {e e' : Engine} {f : Engine → Engine} : (∀ (e : Engine) v, f (e.veiled v) = (f e).veiled v) →
    (∀ e, (f e).inFlight = e.inFlight) → R e e' → R (f e) (f e')
  push {e e' : Engine} (x : Entry) : R e e' →
    R { e with entries := e.entries.push x } { e' with entries := e'.entries.push x }
  withQueue {e e' : Engine} {x : Queue} : x.last = none → R e e' → R (e.withQueue x) (e'.withQueue x)
  base {e e' : Engine} (i : Nat) (entries : List EntryRef) : R e e' →
    R { e with scripts := e.scripts.modify i ({ · with base := some entries }) }
      { e' with scripts := e'.scripts.modify i ({ · with base := some entries }) }
  /-- A trace may tell the mark of an entry. -/
  announce {e e' : Engine} (m : EntryRef) (command : Entry → String) : R e e' →
    R (e.emit (.executing (command (e.entry m)) (e.scope m)) (e.scope m))
      (e'.emit (.executing (command (e'.entry m)) (e'.scope m)) (e'.scope m))
  /-- A trace may tell the tempo of a queue. -/
  trace {e e' : Engine} (q : QueueRef) (message : Queue → String) (s : Scope) : R e e' →
    R (e.emit (.trace (message (e.queue q)) s) s) (e'.emit (.trace (message (e'.queue q)) s) s)

/-- So may what queues do that run such commands.  Entries are the same but for `D`, and so are queues from
`k` on, which have run none of `D` last. -/
structure Owning (R : Pairing) (k : QueueRef) (D : List EntryRef) : Prop extends Acting R where
  last {e e' : Engine} {m : EntryRef} (q : QueueRef) : m ∉ D → R e e' →
    R (e.changeQueue q ({ · with last := some m })) (e'.changeQueue q ({ · with last := some m }))
  note {e e' : Engine} (s : QueueScript.Step) : R e e' →
    R { e with journal := s :: e.journal } { e' with journal := s :: e'.journal }
  own {e e' : Engine} {p : QueueRef} : k ≤ p → R e e' → e'.queue p = e.queue p ∧
    ∀ m, (e.queue p).last = some m → m ∉ D
  entry {e e' : Engine} {m : EntryRef} : m ∉ D → R e e' → e'.entry m = e.entry m

/-- The same is noted in the history. -/
theorem steady_note {k : QueueRef} {D : List EntryRef} (hO : Owning R k D) (step : QueueScript.Step) :
    Steady R (Drive.note step) :=
  twin_change fun _ _ h => hO.note step h

section Changes

variable {q : QueueRef} (hA : Acting R)

include hA

/-- What may be done to all entries may be done to one. -/
theorem Acting.noting (m : EntryRef) : Noting R m where
  toBlind := hA.toBlind
  jot _ hw h := hA.changeEntry m hw h
  finish h := hA.changeEntry m (fun _ _ => rfl) h

/-- A change of an entry that does not say its mark goes alike. -/
theorem steady_changeEntry (m : EntryRef) {f : Entry → Entry}
    (hf : ∀ x w, f (x.waiting w) = (f x).waiting w) : Steady R (Action.changeEntry m f) :=
  twin_change fun _ _ h => hA.changeEntry m hf h

/-- A change of what does not look another way in one of the engines. -/
theorem steady_aside {f : Engine → Engine} (hf : ∀ (e : Engine) v, f (e.veiled v) = (f e).veiled v)
    (hi : ∀ e, (f e).inFlight = e.inFlight) : Steady R (Action.change f) :=
  twin_change fun _ _ h => hA.aside hf hi h

/-- A change of a queue that says neither its tempo nor which entry ran last. -/
theorem steady_changeQueue (q : QueueRef) {f : Queue → Queue} (hf : ∀ x t, f (x.paced t) = (f x).paced t)
    (hl : ∀ x, (f x).last = x.last) : Steady R (Action.changeQueue q f) :=
  twin_change fun _ _ h => hA.changeQueue q hf hl h

/-- An entry is made alike, at the same place. -/
@[grind ←]
theorem steady_make (code : Compiled) (blocks : List (Branch EntryRef)) :
    Steady R (Entries.make code blocks) :=
  ⟨fun h => ⟨(hA.resembles h).entries.symm, hA.push { code, blocks } h⟩⟩

/-- Entries are made alike, at the same places. -/
theorem steady_makeAll (codes : List Compiled) (blocks : List (List (Branch EntryRef))) :
    Steady R (Entries.makeAll codes blocks) :=
  twin_collect fun x => steady_make hA x.1 x.2

omit hA in
mutual

/-- The entries of the blocks of a command are made alike. -/
theorem steady_furnish (hA : Acting R) (code : Compiled) : Steady R (Entries.furnish code) := by
  match code with
  | { branches := none, .. } => exact steady_pure []
  | { branches := some branches, .. } => exact steady_furnishBranches hA branches

/-- The entries of the blocks of commands are made alike. -/
theorem steady_furnishAll (hA : Acting R) (codes : List Compiled) :
    Steady R (Entries.furnishAll codes) := by
  match codes with
  | [] => exact steady_pure []
  | code :: rest =>
    refine twin_bind (steady_furnish hA code) fun blocks => ?_
    exact twin_bind (steady_furnishAll hA rest) fun others => steady_pure (blocks :: others)

/-- The entries in blocks are made alike. -/
theorem steady_furnishBranches (hA : Acting R) (branches : List (Branch Compiled)) :
    Steady R (Entries.furnishBranches branches) := by
  match branches with
  | [] => exact steady_pure []
  | ⟨key, args, body⟩ :: rest =>
    refine twin_bind (steady_furnishAll hA body) fun blocks => ?_
    refine twin_bind (steady_makeAll hA body blocks) fun entries => ?_
    exact twin_bind (steady_furnishBranches hA rest) fun others => steady_pure _

end

/-- A command is made into an entry alike. -/
@[grind ←]
theorem steady_create (code : Compiled) : Steady R (Entries.create code) :=
  twin_bind (steady_furnish hA code) fun blocks => steady_make hA code blocks

/-- Commands are made into entries alike. -/
@[grind ←]
theorem steady_createAll (codes : List Compiled) : Steady R (Entries.createAll codes) :=
  twin_bind (steady_furnishAll hA codes) fun blocks => steady_makeAll hA codes blocks

/-- Engines are related still with the same further entries. -/
theorem related_grown {e e' : Engine} (h : R e e') (xs : List Entry) : R (e.grown xs) (e'.grown xs) := by
  induction xs generalizing e e' with
  | nil => rwa [grown_nil, grown_nil]
  | cons x rest ih =>
    have next := ih (hA.push x h)
    rwa [← List.singleton_append, ← grown_grown, ← grown_grown, grown_singleton, grown_singleton]

/-- An entry is placed on a queue alike. -/
@[grind ←]
theorem steady_place (m : EntryRef) (q : Option QueueRef) : Steady R (Entries.place m q) :=
  twin_bind (steady_changeEntry hA m fun _ _ => rfl) fun _ => steady_refresh (hA.noting m)

/-- An entry is done alike. -/
@[grind ←]
theorem steady_finish (m : EntryRef) : Steady R (Entries.finish m) :=
  steady_changeEntry hA m fun _ _ => rfl

/-- What a queue shares by name is changed alike. -/
theorem steady_changeMemory (q : QueueRef) (f : Memory → Memory) :
    Steady R (Action.change fun e => e.changeMemory (e.queue q).memory f) := by
  refine twin_change fun e e' h => ?_
  rw [(hA.resembles h).seeQueue (f := Queue.memory) (fun _ _ => rfl) q]
  exact hA.aside (f := (·.changeMemory (e.queue q).memory f)) (fun _ _ => rfl) (fun _ => rfl) h

/-- A name is defined alike. -/
@[grind ←]
theorem steady_define (q : QueueRef) (name : String) (v : Value) : Steady R (Queues.define q name v) :=
  steady_changeMemory hA q _

/-- A definition is removed alike. -/
@[grind ←]
theorem steady_undefine (q : QueueRef) (name : String) : Steady R (Queues.undefine q name) :=
  steady_changeMemory hA q _

/-- Names are defined alike, one after the other. -/
@[grind ←]
theorem steady_defineAll (q : QueueRef) (pairs : List (String × Value)) :
    Steady R (Queues.defineAll q pairs) :=
  twin_each fun p => steady_define hA q p.1 p.2

/-- A determination is added alike, to the list of the queue or as its first one. -/
@[grind ←]
theorem steady_determine (q : QueueRef) (v : Value) : Steady R (Queues.determine q v) := by
  refine twin_change fun e e' h => ?_
  have kept := (hA.resembles h).seeQueue (f := Queue.determinations) (fun _ _ => rfl) q
  have lists : e'.lists = e.lists := (hA.resembles h).see (f := Engine.lists) fun _ _ => rfl
  have written (lists : Array (List Value)) : R { e with lists } { e' with lists } :=
    hA.aside (f := ({ · with lists })) (fun _ _ => rfl) (fun _ => rfl) h
  rw [kept, lists]
  split
  · exact written _
  · exact hA.changeQueue q (fun _ _ => rfl) (fun _ => rfl) (written _)

/-- Entries are put on a queue. -/
theorem steady_putOn (q : QueueRef) (entries : List EntryRef) (f : List EntryRef → List EntryRef) :
    Steady R (do
      Action.each (Entries.place · (some q)) entries
      Action.changeQueue q fun queue => { queue with pending := f queue.pending }) :=
  twin_bind (twin_each fun m => steady_place hA m _) fun _ =>
    steady_changeQueue hA q (fun _ _ => rfl) fun _ => rfl

/-- Entries are put after the pending ones alike. -/
@[grind ←]
theorem steady_append (q : QueueRef) (entries : List EntryRef) : Steady R (Queues.append q entries) :=
  steady_putOn hA q entries (· ++ entries)

/-- Entries are put before the pending ones alike. -/
@[grind ←]
theorem steady_inject (q : QueueRef) (entries : List EntryRef) : Steady R (Queues.inject q entries) :=
  steady_putOn hA q entries (entries ++ ·)

/-- A listener is told the same. -/
@[grind ←]
theorem steady_tell (q : QueueRef) (l : Listener) : Steady R (Queues.tell q l) := by
  cases l with
  | finish m => exact steady_finish hA m
  | notify label error =>
    refine alike_queue hA.toBlind fun x t => ?_
    refine twin_bind (steady_aside hA (fun _ _ => rfl) fun _ => rfl) fun _ => ?_
    cases error with
    | some message => exact alike_fail _
    | none => exact steady_pure ()

/-- A queue is taken out of the registry alike. -/
theorem steady_unregister (q : QueueRef) : Steady R (Queues.unregister q) := by
  refine twin_change fun e e' h => ?_
  have id := (hA.resembles h).seeQueue (f := Queue.id) (fun _ _ => rfl) q
  have registry : e'.registry = e.registry := (hA.resembles h).see fun _ _ => rfl
  dsimp only
  rw [id, registry]
  split
  · exact hA.aside (f := fun x => x.setRegistry (e.registry.erase (Text.lower (e.queue q).id)))
      (fun _ _ => rfl) (fun _ => rfl) h
  · exact h

/-- A queue stands in the same place. -/
@[grind ←]
theorem steady_queueScope (q : QueueRef) : Steady R (Queues.scope q) :=
  alike_queue hA.toBlind fun _ _ => steady_pure _

/-- A queue that ends leaves the registry and tells its listeners alike. -/
@[grind ←]
theorem steady_complete (q : QueueRef) : Steady R (Queues.complete q) := by
  refine twin_bind (steady_unregister hA q) fun _ => alike_queue hA.toBlind fun x t => ?_
  refine twin_bind (steady_queueScope hA q) fun s => ?_
  refine twin_bind (twin_trace _ (seen_refl hA.toBlind s)) fun _ => ?_
  exact twin_bind (steady_changeQueue hA q (fun _ _ => rfl) fun _ => rfl) fun _ =>
    twin_each fun l => steady_tell hA q l

/-- A queue is ended, unless it has ended. -/
theorem steady_end (q : QueueRef) {f : Queue → Queue} (hf : ∀ x t, f (x.paced t) = (f x).paced t)
    (hl : ∀ x, (f x).last = x.last) : Steady R (do
      unless (← Action.queue q).state.isEnd do
        Action.changeQueue q f
        Queues.complete q) := by
  refine alike_queue hA.toBlind fun x t => ?_
  show Steady R (if x.state.isEnd then pure () else
    Action.changeQueue q f >>= fun _ => Queues.complete q)
  split
  · exact steady_pure ()
  · exact twin_bind (steady_changeQueue hA q hf hl) fun _ => steady_complete hA q

/-- A queue is stopped alike. -/
@[grind ←]
theorem steady_stop (q : QueueRef) : Steady R (Queues.stop q) :=
  steady_end hA q (fun _ _ => rfl) fun _ => rfl

/-- A queue is finished alike. -/
@[grind ←]
theorem steady_finishQueue (q : QueueRef) : Steady R (Queues.finish q) :=
  steady_end hA q (fun _ _ => rfl) fun _ => rfl

/-- A queue is launched alike, though its tempo is told in a trace. -/
@[grind ←]
theorem steady_launch (q : QueueRef) : Steady R (Queues.launch q) := by
  have registered : Steady R (Queues.register q) := by
    refine twin_change fun e e' h => ?_
    have id := (hA.resembles h).seeQueue (f := Queue.id) (fun _ _ => rfl) q
    have registry : e'.registry = e.registry := (hA.resembles h).see fun _ _ => rfl
    rw [id, registry]
    exact hA.aside (f := (·.setRegistry (e.registry.put (Text.lower (e.queue q).id) q))) (fun _ _ => rfl)
      (fun _ => rfl) h
  refine twin_bind (steady_changeQueue hA q (fun _ _ => rfl) fun _ => rfl) fun _ => ?_
  refine twin_bind registered fun _ => ⟨fun {e e'} h => ?_⟩
  -- A trace tells the pace of the queue.
  let message (x : Queue) : String := "Starting " ++ x.pace.name ++ " queue '" ++ x.id ++ "' with " ++
    Number.natText x.pending.length ++ " entries"
  let here (e : Engine) : Scope := { queue := some (e.queue q).id }
  have same : here e' = here e :=
    (hA.resembles h).seeQueue (f := fun x => ({ queue := some x.id } : Scope)) (fun _ _ => rfl) q
  refine ⟨rfl, ?_⟩
  show R (e.emit (.trace (message (e.queue q)) (here e)) (here e))
    (e'.emit (.trace (message (e'.queue q)) (here e')) (here e'))
  rw [same]
  exact hA.trace q message (here e) h

/-- A queue is made alike, with the same id. -/
@[grind ←]
theorem steady_createQueue (pace : Pace) (name : String) (options : Queues.Options) :
    Steady R (Queues.create pace name options) := by
  let number (e : Engine) : Nat := Queues.freeNumber e.registry (Queues.idBase name) e.registry.length
    ((e.counters.get? (Queues.idBase name)).getD 0)
  have generated : Steady R (Queues.generateId name) := by
    refine ⟨fun {e e'} h => ?_⟩
    have same : number e' = number e := (hA.resembles h).see (f := number) fun _ _ => rfl
    have counters : e'.counters = e.counters := (hA.resembles h).see fun _ _ => rfl
    refine ⟨congrArg (Queues.numberedId _) same.symm, ?_⟩
    show R { e with counters := e.counters.put (Queues.idBase name) (number e) }
      { e' with counters := e'.counters.put (Queues.idBase name) (number e') }
    rw [same, counters]
    exact hA.aside (f := ({ · with counters := e.counters.put (Queues.idBase name) (number e) }))
      (fun _ _ => rfl) (fun _ => rfl) h
  let opened (id : String) (e : Engine) : Queue :=
    { id, name, pace, isProcedural := options.isProcedural, script := options.script,
      memory := e.memories.size, speed := options.speed }
  let made (id : String) (e : Engine) : Engine := e.withQueue (opened id e)
  have make (id : String) : Steady R fun e => (.ok e.queues.size, made id e) := by
    refine ⟨fun {e e'} h => ⟨(hA.resembles h).queues.symm, ?_⟩⟩
    have size : e'.memories.size = e.memories.size :=
      (hA.resembles h).see (f := fun e => e.memories.size) fun _ _ => rfl
    have made' : made id e' = e'.withQueue (opened id e) := by
      show e'.withQueue (opened id e') = _
      unfold opened
      rw [size]
    show R (made id e) (made id e')
    rw [made']
    exact hA.withQueue rfl h
  unfold Queues.create
  dsimp only
  split
  · exact twin_bind (steady_pure _) make
  · exact twin_bind generated make

/-! ## Scripts -/

/-- A source is compiled alike. -/
@[grind ←]
theorem steady_compile (source : String) (script : Option ScriptRef) :
    Steady R (Scripts.compile source script) := by
  have lines (name : Option String) : Steady R (Scripts.readLines source name) :=
    twin_bind (twin_each fun _ => twin_error _ (seen_refl hA.toBlind _) _) fun _ => steady_pure _
  refine twin_bind (lines _) fun _ => twin_bind (steady_see hA.toBlind fun _ _ => rfl) fun catalogue => ?_
  exact twin_bind (steady_noteAll hA.toBlind _) fun _ => steady_pure _

/-- A script has the same name. -/
@[grind ←]
theorem steady_reference (i : Nat) : Steady R (Scripts.reference i) :=
  alike_script hA.toBlind fun _ _ => steady_pure _

/-- A script has the same entries, made now or before. -/
@[grind ←]
theorem steady_baseEntries (i : Nat) : Steady R (Scripts.baseEntries i) := by
  refine alike_script hA.toBlind fun x t => ?_
  dsimp only
  split
  · exact steady_pure _
  · refine twin_bind (steady_compile hA _ _) fun codes => twin_bind (steady_createAll hA codes) fun ns => ?_
    exact twin_bind (twin_change fun _ _ h => hA.base i ns h) fun _ => steady_pure _

/-- The same procedure is found, or none. -/
@[grind ←]
theorem steady_procedureNamed (name : String) : Steady R (Drive.procedureNamed name) := by
  refine twin_bind (steady_see hA.toBlind fun _ _ => rfl) fun found => ?_
  cases found with
  | none => exact alike_breakOff _
  | some i =>
    refine alike_script hA.toBlind fun x t => ?_
    dsimp only
    split
    · exact steady_pure i
    · exact alike_breakOff _

/-! ## Executing -/

/-- A message is written alike. -/
@[grind ←]
theorem steady_debugExecute (m : EntryRef) : Steady R (Debug.execute m) := by
  have hR := hA.toBlind
  refine twin_bind (steady_element? hR m _) fun message => alike_scope hR fun s s' hs => ?_
  refine twin_bind (steady_element? hR m _) fun kind => ?_
  split
  · exact twin_trace _ hs
  · exact twin_error _ hs none
  · exact twin_log _ hs

/-- A definition is executed alike. -/
@[grind ←]
theorem steady_defineExecute (m : EntryRef) : Steady R (Define.execute m) := by
  have hR := hA.toBlind
  have define (q : QueueRef) (name : String) (v : Value) := steady_define hA q name v
  have undefine (q : QueueRef) (name : String) := steady_undefine hA q name
  unfold Define.execute
  grind

/-- A queue is cleared and stopped alike. -/
@[grind ←]
theorem steady_clearAndStop (q : QueueRef) : Steady R (Queues.clear q >>= fun _ => Queues.stop q) :=
  twin_bind (steady_changeQueue hA q (fun _ _ => rfl) fun _ => rfl) fun _ => steady_stop hA q

/-- A command that stops its queue is executed alike. -/
@[grind ←]
theorem steady_stopExecute (m : EntryRef) : Steady R (Stop.execute m) :=
  twin_bind (steady_requireQueue hA.toBlind m) fun q => steady_clearAndStop hA q

/-- A determination is executed alike, also if it ends its queue. -/
@[grind ←]
theorem steady_determineExecute (m : EntryRef) : Steady R (Determine.execute m) := by
  have hR := hA.toBlind
  have outcome : Steady R (Determine.outcome m) := by
    unfold Determine.outcome
    grind
  have determine (q : QueueRef) (v : Value) := steady_determine hA q v
  have ends (q : QueueRef) := steady_clearAndStop hA q
  unfold Determine.execute
  grind

/-- The mark of a loop is made alike. -/
@[grind ←]
theorem steady_createMark (owner : EntryRef) : Steady R (Loop.createMark owner) := by
  refine alike_entry hA.toBlind fun x w => ?_
  refine twin_bind (steady_see hA.toBlind fun _ _ => rfl) fun catalogue => ?_
  refine twin_bind (steady_noteAll hA.toBlind _) fun _ => twin_bind (steady_create hA _) fun mark => ?_
  exact twin_bind (steady_changeEntry hA mark fun _ _ => rfl) fun _ => steady_pure mark

/-- The name that a loop counts in has its value back alike. -/
@[grind ←]
theorem steady_restore (q : QueueRef) (loop : LoopState) : Steady R (Loop.restore q loop) := by
  unfold Loop.restore
  split
  · exact steady_define hA q _ _
  · exact steady_undefine hA q _

/-- A mark belongs to the same loop. -/
theorem steady_loopOf (mark : EntryRef) : Steady R (Action.look (Loop.loopOf · mark)) := by
  refine steady_look fun e e' h => ?_
  have owner := (hA.resembles h).seeEntry (f := Entry.owner) (fun _ _ => rfl) mark
  have loop (m : EntryRef) := (hA.resembles h).seeEntry (f := Entry.loop) (fun _ _ => rfl) m
  simp only [Loop.loopOf, owner, loop]

/-- The first mark among entries is the same one. -/
theorem firstMark_same {e e' : Engine} (h : R e e') (ms : List EntryRef) :
    Loop.firstMark e' ms = Loop.firstMark e ms := by
  induction ms with
  | nil => rfl
  | cons m rest ih =>
    have mark := (hA.resembles h).seeEntry (f := Entry.isLoopMark) (fun _ _ => rfl) m
    rw [Loop.firstMark, Loop.firstMark, ih, mark]

/-- A loop is ended early alike, or the command breaks off on both engines. -/
@[grind ←]
theorem steady_endEarly (m : EntryRef) (q : QueueRef) (stop : Bool) :
    Steady R (Loop.endEarly m q stop) := by
  have report (values : List (String × String)) := steady_report hA.toBlind m values
  refine twin_bind (steady_look fun e e' h => ?_) fun found => ?_
  · rw [(hA.resembles h).seeQueue (f := Queue.pending) (fun _ _ => rfl) q, firstMark_same hA h]
  split
  · exact alike_breakOff _
  refine twin_bind (steady_changeQueue hA q (fun _ _ => rfl) fun _ => rfl) fun _ => ?_
  dsimp only
  split
  · refine twin_bind (steady_loopOf hA _) fun owner => ?_
    split
    · exact twin_bind (steady_restore hA q _) fun _ => report _
    · exact report _
  · exact report _

end Changes

/-! ## Clones of base entries -/

/-- Base entries are as they were made, and none of the entries `D` is one. -/
structure Spares (D : List EntryRef) (e : Engine) : Prop where
  based : e.Based
  apart : ∀ n ∈ D, ¬ e.IsBase n

namespace Spares

variable {D : List EntryRef} {e e' : Engine}

/-- Which entries are base ones is told from scripts and entries. -/
theorem of_tables (h : Spares D e) (hs : e'.scripts = e.scripts) (hn : e'.entries = e.entries) :
    Spares D e' := by
  exact ⟨h.based.of_tables hs hn, fun n hD hb => h.apart n hD ((isBase_of_tables hs hn).1 hb)⟩

/-- A diagnostic makes no base entry. -/
theorem emit (h : Spares D e) (event : Event) (s : Scope) : Spares D (e.emit event s) := by
  obtain ⟨events, shown⟩ := e.emit_eq event s
  rw [shown]
  exact h.of_tables rfl rfl

/-- A change of an entry that is no base entry makes none. -/
theorem changeEntry (h : Spares D e) {n : EntryRef} (hn : ¬ e.IsBase n) {f : Entry → Entry}
    (hf : Entry.Steadies f) : Spares D (e.changeEntry n f) :=
  ⟨h.based.changeEntry hn hf, fun m hD hb => h.apart m hD ((e.isBase_changeEntry n m hf).1 hb)⟩

/-- What is spared of more entries is spared of fewer. -/
theorem mono {D' : List EntryRef} (h : Spares D' e) (hD : ∀ n ∈ D, n ∈ D') : Spares D e :=
  ⟨h.based, fun n hn => h.apart n (hD n hn)⟩

end Spares

section Clones

variable {k : QueueRef} {D : List EntryRef} {e e' : Engine} {ms : List EntryRef}

/-- Base entries may be known besides. -/
theorem blind_spares (hR : Blind R) (D : List EntryRef) : Blind (With R (Spares D)) :=
  hR.with fun event s h => h.emit event s

section Acting

variable (hA : Acting R)

include hA

/-- What is done with the block of a loop, which is one of base entries. -/
theorem ends_body {S : α → α → Prop} {f : List EntryRef → Action α} {owner : EntryRef} (h : R e e')
    (hf : ∀ ms, (∀ m ∈ ms, e.IsBase m) → Ends R S (f ms e) (f ms e')) :
    Ends R S ((Loop.body owner >>= f) e) ((Loop.body owner >>= f) e') := by
  let block (x : Entry) : List EntryRef := x.blocks.head?.elim [] (·.body)
  have same : block (e'.entry owner) = block (e.entry owner) :=
    (hA.resembles h).seeEntry (f := block) (fun _ _ => rfl) owner
  show Ends R S (f (block (e.entry owner)) e) (f (block (e'.entry owner)) e')
  rw [same]
  refine hf _ fun m hm => .inr ⟨owner, ?_⟩
  cases hb : (e.entry owner).blocks with
  | nil =>
    rw [show block (e.entry owner) = [] by simp only [block, hb]; rfl] at hm
    exact absurd hm List.not_mem_nil
  | cons b rest =>
    rw [show block (e.entry owner) = b.body by simp only [block, hb]; rfl] at hm
    exact Entry.mem_inner (hb ▸ List.mem_cons_self) hm

/-- The state of a loop is kept on its entry alike, and on no base entry. -/
theorem related_loop {owner : EntryRef} (s : LoopState) (h : With R (Spares D) e e')
    (ho : ¬ e.IsBase owner) : With R (Spares D) (e.changeEntry owner ({ · with loop := some s }))
      (e'.changeEntry owner ({ · with loop := some s })) :=
  ⟨hA.changeEntry owner (fun _ _ => rfl) h.1, h.2.changeEntry ho ⟨fun _ => rfl, fun _ => rfl⟩⟩

/-- A definition leaves base entries alone. -/
theorem related_define (q : QueueRef) (name : String) (v : Value) (h : With R (Spares D) e e') :
    With R (Spares D) (Queues.define q name v e).2 (Queues.define q name v e').2 :=
  ⟨((steady_define hA q name v).run h.1).2, h.2.of_tables rfl rfl⟩

end Acting

variable (hO : Owning R k D)

include hO

/-- The same base entries may be cloned on both engines. -/
theorem clonable_same (h : With R (Spares D) e e') (hm : ∀ m ∈ ms, e.IsBase m) :
    e.Clonable ms ∧ e'.Clonable ms ∧ ms.map e'.entry = ms.map e.entry := by
  have same {m : EntryRef} (mem : m ∈ ms) : e'.entry m = e.entry m :=
    hO.entry (fun hD => h.2.apart m hD (hm m mem)) h.1
  have clonable := h.2.based.clonable hm
  refine ⟨clonable, fun m mem => ?_, List.map_congr_left fun m mem => same mem⟩
  rw [same mem, (hO.resembles h.1).entries]
  exact clonable m mem

/-- The same base entries are cloned alike. -/
theorem ends_cloneAll (h : With R (Spares D) e e') (hm : ∀ m ∈ ms, e.IsBase m) :
    Ends R Eq (Entries.cloneAll ms e) (Entries.cloneAll ms e') := by
  obtain ⟨clonable, clonable', same⟩ := clonable_same hO h hm
  rw [Entries.cloneAll_eq clonable, Entries.cloneAll_eq clonable', same,
    (hO.resembles h.1).entries]
  exact ⟨rfl, related_grown hO.toActing h.1 _⟩

/-- The same base entries are cloned alike for an entry that they belong to then. -/
theorem ends_spawn (owner : EntryRef) (h : With R (Spares D) e e') (hm : ∀ m ∈ ms, e.IsBase m) :
    Ends R Eq (Entries.spawn owner ms e) (Entries.spawn owner ms e') := by
  obtain ⟨clonable, clonable', same⟩ := clonable_same hO h hm
  have child : e'.child owner = e.child owner := by
    funext x
    have follow : e'.follow = e.follow := funext (hO.resembles h.1).follow
    unfold Engine.child
    rw [(hO.resembles h.1).residingQueue, follow]
  have children : ms.map (fun m => e'.child owner (e'.entry m)) =
      ms.map fun m => e.child owner (e.entry m) := by
    have mapped := congrArg (List.map (e.child owner)) same
    rw [List.map_map, List.map_map] at mapped
    rw [child]
    exact mapped
  rw [e.spawn_eq owner clonable, e'.spawn_eq owner clonable', children, (hO.resembles h.1).entries]
  exact ⟨rfl, related_grown hO.toActing h.1 _⟩

/-- The same block is put before the pending entries alike. -/
theorem ends_injectBlock (owner : EntryRef) (q : QueueRef) (h : With R (Spares D) e e')
    (hm : ∀ m ∈ ms, e.IsBase m) : Ends R Eq ((Entries.spawn owner ms >>= Queues.inject q) e)
      ((Entries.spawn owner ms >>= Queues.inject q) e') := by
  refine (ends_spawn hO owner h hm).bind (.refl R) ?_
  rintro entries _ e₁ e₁' rfl h₁
  exact (steady_inject hO.toActing q entries).run h₁

/-- A round of a loop is put before the pending entries alike, with its mark. -/
theorem ends_injectIteration (owner : EntryRef) (q : QueueRef) (h : With R (Spares D) e e')
    (hm : ∀ m ∈ ms, e.IsBase m) :
    Ends R Eq (Loop.injectIteration owner q ms e) (Loop.injectIteration owner q ms e') := by
  refine (ends_spawn hO owner h hm).bind (.refl R) ?_
  rintro entries _ e₁ e₁' rfl h₁
  refine (twin_bind (steady_createMark hO.toActing owner) fun mark => ?_).run h₁
  refine twin_bind (twin_each fun a => steady_changeEntry hO.toActing a fun _ _ => rfl) fun _ => ?_
  exact steady_inject hO.toActing q _

/-- A loop is started alike, in the name that it counts in. -/
theorem ends_startLoop {m : EntryRef} (q : QueueRef) (h : With R (Spares (m :: D)) e e') :
    Ends R Eq (Loop.start m q e) (Loop.start m q e') := by
  have hW := blind_spares hO.toBlind (m :: D)
  refine ((steady_count hW m _).run h).bind (finer_with R _) ?_
  rintro amount _ e₁ e₁' rfl h₁
  refine ((steady_count hW m _).run h₁).bind (finer_with R _) ?_
  rintro first _ e₂ e₂' rfl h₂
  refine ((steady_element? hW m _).run h₂).bind (finer_with R _) ?_
  rintro name _ e₃ e₃' rfl h₃
  refine ((steady_report hW m _).run h₃).bind (finer_with R _) ?_
  rintro - - x x' - hx
  split
  · exact (steady_pure ()).run hx.1
  refine ends_body hO.toActing hx.1 fun ms hms => ?_
  split
  · exact .fail hx.1
  · refine ends_look ((steady_definition? hW q _).run hx).1.symm ?_
    -- The block is one of base entries still when the state of the loop and its index are set.
    have spares : With R (Spares D) x x' := ⟨hx.1, hx.2.mono fun n => List.mem_cons_of_mem m⟩
    have live := hx.2.apart m List.mem_cons_self
    have looped (s : LoopState) := related_loop hO.toActing s spares live
    have based (s : LoopState) : ∀ k ∈ ms, (x.changeEntry m ({ · with loop := some s })).IsBase k := by
      have steady : Entry.Steadies ({ · with loop := some s }) := ⟨fun _ => rfl, fun _ => rfl⟩
      exact fun k hk => (x.isBase_changeEntry m k steady).2 (hms k hk)
    exact ends_injectIteration hO m q (related_define hO.toActing q _ _ (looped _)) (based _)

/-- A loop goes into its next round alike, or is over on both engines. -/
theorem ends_iterate {mark : EntryRef} (q : QueueRef) (h : With R (Spares D) e e')
    (ho : ∀ owner, (e.entry mark).owner = some owner → ¬ e.IsBase owner) :
    Ends R Eq (Loop.iterate mark q e) (Loop.iterate mark q e') := by
  refine ends_look ((steady_loopOf hO.toActing mark).run h.1).1.symm ?_
  rcases found : Loop.loopOf e mark with _ | ⟨owner, loop⟩
  · exact .fail h.1
  · unfold Loop.loopOf at found
    have owned : (e.entry mark).owner = some owner := by
      obtain ⟨o, ho, hl⟩ := Option.bind_eq_some_iff.1 found
      obtain ⟨s, -, hs⟩ := Option.map_eq_some_iff.1 hl
      cases hs
      exact ho
    let loop' : LoopState := { loop with index := loop.index + 1.0 }
    let next : Action Unit :=
      if loop'.index ≤ loop'.target then do
        Queues.define q loop'.name (.num loop'.index)
        Loop.injectIteration owner q (← Loop.body owner)
      else Loop.restore q loop'
    have looped := related_loop hO.toActing loop' h (ho owner owned)
    show Ends R Eq (next (e.changeEntry owner ({ · with loop := some loop' })))
      (next (e'.changeEntry owner ({ · with loop := some loop' })))
    dsimp only [next]
    split
    · have defined := related_define hO.toActing q loop'.name (.num loop'.index) looped
      exact ends_body hO.toActing defined.1 fun ms hms => ends_injectIteration hO owner q defined hms
    · exact (steady_restore hO.toActing q _).run looped.1

end Clones

end QueueScript.Paired
