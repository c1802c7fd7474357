import QueueScript.Proofs.KeptScripts
import QueueScript.Proofs.LiveQueues
import QueueScript.Proofs.Pacing.Turns

/-!
# Queues of local programs

A program is a source or a registered script (`Program`).  A queue that is made for one is filled in the
same way whatever its pace is to be, so one engine stands for those with the queue at any pace
(`Program.prepare_mirrors`).
-/

namespace QueueScript

open QueueScript.Action

/-! ## Programs -/

/-- What a queue is made for. -/
inductive Program where
  /-- A source, and the name that the id of the queue is made from if there is one. -/
  | source (text : String) (name : Option String)
  /-- A script that is registered under the name. -/
  | script (name : String)

/-- The options for a queue of the pace. -/
def Scripts.RunOptions.paced (options : Scripts.RunOptions) (pace : Pace) (speed : Float) :
    Scripts.RunOptions :=
  { options with pace := some pace, speed }

/-- The commands of a script: those of its base entries, or what its source is compiled to. -/
def Engine.commandsOf (e : Engine) (n : Nat) : List Compiled :=
  (e.script n).base.elim (e.compiled n) (·.map fun m => (e.entry m).code)

namespace Program

/-- A queue that is ready to run the program. It is still to be started. -/
def prepare (options : Scripts.RunOptions) : Program → Action QueueRef
  | .source text name => Scripts.prepareSource text name options
  | .script name => Scripts.prepare name options

/-- The commands of the program, if the engine has it. -/
def commands? (e : Engine) : Program → Option (List Compiled)
  | .source text _ => some (buildLines e.catalogue none (Source.parse text).lines).1
  | .script name => (e.scriptNamed? name).map e.commandsOf

/-- The engine has the program, and all its commands touch nothing but their queue. -/
def IsLocal (p : Program) (e : Engine) : Prop :=
  ∃ codes, p.commands? e = some codes ∧ ∀ c ∈ codes, c.Local

theorem isLocal_of_within {p : Program} {e : Engine} {depth : Nat}
    (h : (p.commands? e).any (·.all (·.isLocalWithin depth)) = true) : p.IsLocal e := by
  cases hc : p.commands? e with
  | none =>
    rw [hc] at h
    cases h
  | some codes =>
    rw [hc] at h
    exact ⟨codes, hc, fun c hm => .of_isLocalWithin (List.all_eq_true.1 h c hm)⟩

end Program

/-! ## Making the queue -/

namespace Scripts

/-- A queue is made, under an id that does not depend on its pace. -/
theorem createQueue_eq (options : RunOptions) (name : String) (script : Option ScriptRef) (e : Engine) :
    ∃ id counters, ∀ pace speed, createQueue (options.paced pace speed) name script e =
      (.ok e.queues.size, Engine.withQueue { e with counters }
        { id, name, pace, script, memory := e.memories.size, speed }) := by
  obtain ⟨id, counters, generated, -⟩ := Queues.generateId_free name e
  cases hid : options.id with
  | some id =>
    refine ⟨id, e.counters, fun pace speed => ?_⟩
    show Queues.create pace name { id := options.id, speed, script } e = _
    rw [hid]
    rfl
  | none =>
    refine ⟨id, counters, fun pace speed => ?_⟩
    show Queues.create pace name { id := options.id, speed, script } e = _
    rw [hid]
    exact bind_ok generated

end Scripts

/-! ## Filling the queue -/

namespace Discipline

variable {b x y : Engine} {q : QueueRef} {l : List (EntryRef × Bool)}

/-- What a safe action leaves if it succeeds. -/
theorem Safe.step_of_ok {α : Type} {D : Discipline} {a : Action α} {r : α} (ha : D.Safe x a) (hx : D.inv x)
    (hr : a x = (.ok r, y)) : D.Step x y := by
  have leaves := ha.run x hx (D.refl x)
  rw [hr] at leaves
  exact leaves.1

/-- Definitions are set. -/
theorem defines (hx : (recording b q l).inv x) (definitions : List (String × Value)) :
    ∃ memories, Queues.defineAll q definitions x = (.ok (), { x with memories }) ∧
      (recording b q l).Step x { x with memories } := by
  obtain ⟨memories, defined⟩ := Queues.defineAll_eq q definitions x
  have safe : (recording b q l).Safe x (Queues.defineAll q definitions) :=
    safe_defineAll blocks_recording.toBookkeeping rfl definitions
  exact ⟨memories, defined, safe.step_of_ok hx defined⟩

/-- Local commands are put on the queue. -/
theorem loads (hx : (recording b q l).inv x) {codes : List Compiled} (hs : ∀ c ∈ codes, c.Sound)
    (hl : ∀ c ∈ codes, c.Local) :
    ∃ y, (Entries.createAll codes >>= Queues.append q) x = (.ok (), y) ∧ (recording b q l).Step x y := by
  obtain ⟨xs, ys, made, -⟩ := Entries.createAll_eq x codes
  have put := (x.grown xs).append_grown q ys
  rw [Engine.grown_grown] at put
  have loaded := (bind_ok (f := Queues.append q) made).trans put
  have safe : (recording b q l).Safe x (Entries.createAll codes >>= Queues.append q) :=
    blocks_recording.filling.load rfl fun c hc => ⟨hs c hc, hl c hc⟩
  exact ⟨_, loaded, safe.step_of_ok hx loaded⟩

/-- Base entries of local commands are cloned, and the clones are put on the queue. -/
theorem lends (hx : (recording b q l).inv x) {ms : List EntryRef} (hm : ∀ m ∈ ms, (recording b q l).Stock x m) :
    ∃ y, (Entries.cloneAll ms >>= Queues.append q) x = (.ok (), y) ∧ (recording b q l).Step x y := by
  have put := x.append_grown q (ms.map x.entry)
  rw [List.length_map] at put
  have cloned := hx.1.1.tidy.based.cloneAll fun m h => (hm m h).base
  have loaded := (bind_ok (f := Queues.append q) cloned).trans put
  exact ⟨_, loaded, (blocks_recording.filling.loadBase rfl hm).step_of_ok hx loaded⟩

/-- A script of local commands has base entries, or they are made and kept. -/
theorem bases (hx : (recording b q l).inv x) (n : Nat) (hl : ∀ c ∈ x.commandsOf n, c.Local) :
    ∃ ms y, Scripts.baseEntries n x = (.ok ms, y) ∧ (recording b q l).Step x y ∧
      ∀ m ∈ ms, (recording b q l).Stock y m := by
  unfold Engine.commandsOf at hl
  obtain ⟨ms, kept, based⟩ | ⟨events, xs, ys, ms, unkept, rfl, compiled, ready, made, base⟩ :=
    Scripts.baseEntries_eq n x
  · rw [kept] at hl
    refine ⟨ms, x, based, .refl hx, fun m hm => ?_⟩
    have base : x.IsBase m := .inl ⟨n, ms, kept, hm⟩
    have lt := hx.1.1.tidy.based.lt base
    exact ⟨lt, base, hx.1.1.code lt, hl _ (List.mem_map_of_mem hm)⟩
  · rw [unkept] at hl
    have sound : ∀ c ∈ x.compiled n, c.Sound := hx.1.1.catalogue.buildLines _ _
    have step := (safe_compile blocks_recording.toBookkeeping _ _).step_of_ok hx compiled
    have kept := Inside.keep (n := n) step.1.1 ready.brings (ready.handed_down .enclosed sound)
      (Healthy.running.keep step.1.1.1 unkept ready sound)
    refine ⟨_, _, made, step.trans ⟨⟨kept.1, (aloof_outcomes q l).base unkept ready step.1.2⟩, kept.2⟩,
      fun m hm => ?_⟩
    have among := Engine.Adds.of_mem_range hm
    have mem := among.mem
    rw [Engine.grown_grown] at mem
    have code := ready.codes_eq ▸ List.mem_map_of_mem mem
    exact ⟨among.right.2, base m hm, sound _ code, hl _ code⟩

/-- A source is put on the queue. -/
theorem loads_source (hx : (recording b q l).inv x) (definitions : List (String × Value)) (text : String)
    (hl : ∀ c ∈ (buildLines x.catalogue none (Source.parse text).lines).1, c.Local) :
    ∃ y, (do
        Queues.defineAll q definitions
        let codes ← Scripts.compile text none
        let entries ← Entries.createAll codes
        Queues.append q entries : Action Unit) x = (.ok (), y) ∧ (recording b q l).Step x y := by
  obtain ⟨memories, defined, step₁⟩ := defines hx definitions
  obtain ⟨events, compiled⟩ := Scripts.compile_eq text none { x with memories }
  have step₂ := (safe_compile blocks_recording.toBookkeeping text none).step_of_ok step₁.1 compiled
  obtain ⟨y, loaded, step₃⟩ := loads step₂.1 (hx.1.1.catalogue.buildLines none _) hl
  exact ⟨y, (bind_ok defined).trans ((bind_ok compiled).trans loaded), step₁.trans (step₂.trans step₃)⟩

/-- A script is put on the queue. -/
theorem loads_script (hx : (recording b q l).inv x) (n : Nat) (args : List Value)
    (definitions : List (String × Value)) (hl : ∀ c ∈ x.commandsOf n, c.Local) :
    ∃ y, Scripts.load q n args definitions x = (.ok (), y) ∧ (recording b q l).Step x y := by
  obtain ⟨memories₁, bound, step₁⟩ := defines hx ((x.script n).parameters.zip args)
  obtain ⟨memories, defined, step₂⟩ := defines step₁.1 definitions
  obtain ⟨ms, z, based, step₃, stock⟩ := bases step₂.1 n hl
  obtain ⟨y, loaded, step₄⟩ := lends step₃.1 stock
  refine ⟨y, (bind_ok (a := Action.look _) (x := x.script n) rfl).trans ?_,
    step₁.trans (step₂.trans (step₃.trans step₄))⟩
  exact (bind_ok bound).trans ((bind_ok defined).trans ((bind_ok based).trans loaded))

end Discipline

namespace Program

open Discipline Drive

variable {e : Engine} {p : Program}

/-- How a queue is filled: entries of local commands are put on it, the same at any pace. -/
structure Fills (e : Engine) (fill : QueueRef → Action Unit) : Prop where
  fills {q : QueueRef} {x : Engine} : (recording e q []).inv x → x.catalogue = e.catalogue →
    x.scripts = e.scripts → x.entries = e.entries →
      ∃ y, fill q x = (.ok (), y) ∧ (recording e q []).Step x y
  ends {q : QueueRef} {x x' : Engine} : (recording e q []).inv x → x.SameButPace q x' →
    Paired.Ends (Engine.SameButPace q) Eq (fill q x) (fill q x')

/-- A queue is made for the program and filled. -/
theorem prepare_eq (h : p.IsLocal e) (options : Scripts.RunOptions) :
    ∃ name script fill, Fills e fill ∧ ∀ pace speed, p.prepare (options.paced pace speed) e = (do
      let q ← Scripts.createQueue (options.paced pace speed) name script
      fill q
      pure q : Action QueueRef) e := by
  obtain ⟨codes, commands, hl⟩ := h
  cases p with
  | source text name =>
    obtain rfl := Option.some.inj commands
    let fill (q : QueueRef) : Action Unit := do
      Queues.defineAll q options.definitions
      let codes ← Scripts.compile text none
      let entries ← Entries.createAll codes
      Queues.append q entries
    refine ⟨name.getD Scripts.defaultName, none, fill, ⟨fun hx hc _ _ => ?_, fun {q _ _} _ h => ?_⟩,
      fun pace speed => ?_⟩
    · exact loads_source hx options.definitions text (by rw [hc]; exact hl)
    · have hA := (Paired.owning_pace q).toActing
      have steady : Paired.Steady (Engine.SameButPace q) (fill q) := by
        refine Paired.twin_bind (Paired.steady_defineAll hA q _) fun _ => ?_
        refine Paired.twin_bind (Paired.steady_compile hA text none) fun codes => ?_
        exact Paired.twin_bind (Paired.steady_createAll hA codes) (Paired.steady_append hA q)
      exact steady.run h
    · show Scripts.prepareSource text name _ e = _
      unfold Scripts.prepareSource
      simp only [fill, bind_assoc]
      rfl
  | script name =>
    obtain ⟨n, named, rfl⟩ := Option.map_eq_some_iff.1 commands
    refine ⟨(e.script n).name, some ⟨n, (e.script n).name⟩,
      (Scripts.load · n options.args options.definitions),
      ⟨fun {q x} hx hc hs hn => ?_, fun {q x _} hx h => ?_⟩, fun pace speed => Scripts.prepare_of_some named⟩
    · have script : x.script n = e.script n := Engine.script_congr hs n
      have compiled : x.compiled n = e.compiled n := Engine.compiled_congr hc (by rw [script]) (by rw [script])
      have commands : x.commandsOf n = e.commandsOf n := by
        unfold Engine.commandsOf
        rw [script, compiled, show x.entry = e.entry from funext (Engine.entry_congr hn)]
      exact loads_script hx n _ _ (by rw [commands]; exact hl)
    · exact Paired.ends_load (Paired.owning_pace q) q n _ _
        ⟨h, hx.1.1.tidy.based, fun _ hm => by cases hm⟩ fun _ hm => by cases hm

/-- One engine stands for those with the queue at any pace, where it has not run anything yet. -/
theorem prepare_mirrors (h : p.IsLocal e) (he : e.Orderly) (hr : e.registry = [])
    (options : Scripts.RunOptions) :
    ∃ r, r.executed e.queues.size = [] ∧ ∀ pace speed, ∃ x,
      p.prepare (options.paced pace speed) e = (.ok e.queues.size, x) ∧
        Mirrors e e.queues.size r x ∧ e.OnTask e.queues.size x ∧ (x.queue e.queues.size).pace = pace ∧
          (x.queue e.queues.size).state = .idle := by
  let q := e.queues.size
  obtain ⟨name, script, fill, hf, prepared⟩ := prepare_eq h options
  obtain ⟨id, counters, created⟩ := Scripts.createQueue_eq options name script e
  let made (pace : Pace) (speed : Float) : Engine := Engine.withQueue { e with counters }
    { id, name, pace, script, memory := e.memories.size, speed }
  have none : e.outcomes q = [] := by
    refine List.filterMap_eq_nil_iff.2 fun s hs => ?_
    have known := (he.traced hs).1
    cases s with
    | began p n before previous => rfl
    | returned p n ran => exact if_neg (Nat.ne_of_lt known)
  have inv (pace : Pace) (speed : Float) : (recording e q []).inv (made pace speed) := by
    refine ⟨Inside.inv_withQueue he.healthy counters ⟨rfl, rfl, rfl, rfl, rfl, rfl, rfl⟩ rfl ?_, none⟩
    rw [hr]
    exact List.not_mem_nil
  have fills (pace : Pace) (speed : Float) : ∃ x, fill q (made pace speed) = (.ok (), x) ∧
      e.OnTask q x ∧ x.executed q = [] ∧ (x.queue q).pace = pace := by
    obtain ⟨x, filled, hx, le⟩ := hf.fills (inv pace speed) rfl rfl rfl
    refine ⟨x, filled, ⟨hx.1, fun s hs => ?_⟩, ?_, ?_⟩
    · rw [hx.2] at hs
      cases hs
    · unfold Engine.executed
      rw [hx.2]
      rfl
    · have queue : (made pace speed).queue q = _ := (Engine.queue_withQueue _ _ _).trans (if_pos rfl)
      rw [(Inside.serving.pace le (inv pace speed).1.2.here).2, queue]
  obtain ⟨r, filled, onTask, fresh, -⟩ := fills .instant 0.0
  refine ⟨r, fresh, fun pace speed => ?_⟩
  have same : (made .instant 0.0).SameButPace q (made pace speed) :=
    Engine.SameButPace.made { e with counters } rfl
  have ends := hf.ends (inv .instant 0.0) same
  obtain ⟨x, filled', onTask', -, pace'⟩ := fills pace speed
  rw [filled, filled'] at ends
  have done : p.prepare (options.paced pace speed) e = (.ok q, x) := by
    rw [prepared pace speed]
    exact (bind_ok (created pace speed)).trans (bind_ok filled')
  have vacant : e.Vacant (options.paced pace speed).id := fun id _ => by
    unfold Engine.registered?
    rw [hr]
    rfl
  have startable : x.Startable q := by
    cases p with
    | source text name => exact (Scripts.prepareSource_startable vacant done).2
    | script name => exact (Scripts.prepare_startable vacant done).2
  exact ⟨x, done, ⟨onTask, ends.2⟩, onTask', pace', startable.idle⟩

end Program

end QueueScript
