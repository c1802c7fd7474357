import QueueScript.Proofs.Paired.Logic
import QueueScript.Proofs.Procedures

/-!
# Engines that look alike

Engines look alike to commands (`Engine.Resembles`) if they differ at most in whether a queue waits for an
entry and in how queues pace their entries, in the time and number of heartbeats, in the history, in what is
traced, in files and in diagnostics.  Whatever looks at none of these ends alike on two of them, and may show
the same (`Paired.Blind`).
-/

namespace QueueScript

/-! ## The mark of an entry -/

/-- The entry when its queue is said to wait for it, or not to. -/
def Entry.waiting (x : Entry) (w : Bool) : Entry :=
  { x with code := { x.code with waits := w } }

namespace Entry

variable (x : Entry) (w : Bool)

@[simp, grind =] theorem waiting_handler : (x.waiting w).code.handler = x.code.handler := rfl

/-- The mark of an entry does not say what its arguments are. -/
theorem waiting_argument? (key : String) : (x.waiting w).code.argument? key = x.code.argument? key := rfl

/-- An entry has the mark that it has. -/
theorem waiting_self : x.waiting x.code.waits = x := by
  obtain ⟨code, _⟩ := x
  cases code
  rfl

end Entry

/-! ## The tempo of a queue -/

/-- How a queue paces its entries. -/
structure Tempo where
  pace : Pace
  speed : Float
  delay : Option Delay

/-- The queue when it paces its entries in another way. -/
def Queue.paced (x : Queue) (t : Tempo) : Queue :=
  { x with pace := t.pace, speed := t.speed, delay := t.delay }

/-- How the queue paces its entries. -/
def Queue.tempo (x : Queue) : Tempo :=
  ⟨x.pace, x.speed, x.delay⟩

/-- A queue has the tempo that it has. -/
theorem Queue.paced_tempo (x : Queue) : x.paced x.tempo = x :=
  rfl

/-! ## Engines that look alike -/

/-- What may be another in an engine that looks alike, as a whole or in part. -/
structure Veil where
  config : Config
  tracing : Bool
  scripts : Array ScriptRecord
  files : FileSystem
  queues : Array Queue
  entries : Array Entry
  events : List Event
  journal : List Step
  heartbeatTime : Float
  beats : Nat

namespace Engine

/-- Such parts of the engine. -/
def veil (e : Engine) : Veil :=
  ⟨e.config, e.tracing, e.scripts, e.files, e.queues, e.entries, e.events, e.journal, e.heartbeatTime, e.beats⟩

/-- The engine with other such parts. -/
def veiled (e : Engine) (v : Veil) : Engine :=
  { e with config := v.config, tracing := v.tracing, scripts := v.scripts, files := v.files,
           queues := v.queues, entries := v.entries, events := v.events, journal := v.journal,
           heartbeatTime := v.heartbeatTime, beats := v.beats }

/-- The second engine looks like the first one to whatever does not look at the marks of entries, the tempo
of queues, what is traced, files, diagnostics, the history and heartbeats. -/
structure Resembles (e e' : Engine) : Prop where
  same : ∃ v, e' = e.veiled v
  settings : ∃ d, e'.config = { e.config with debug := d }
  script (i : Nat) : ∃ t, e'.script i = { e.script i with traced := t }
  entries : e'.entries.size = e.entries.size
  entry (m : EntryRef) : ∃ w, e'.entry m = (e.entry m).waiting w
  queues : e'.queues.size = e.queues.size
  queue (q : QueueRef) : ∃ t, e'.queue q = (e.queue q).paced t

namespace Resembles

variable {e e' : Engine} {α : Type} (h : e.Resembles e')

include h

/-- What depends on none of the parts that may be another is seen alike. -/
theorem see {f : Engine → α} (hf : ∀ (e : Engine) v, f (e.veiled v) = f e) : f e' = f e := by
  obtain ⟨v, same⟩ := h.same
  rw [same, hf]

/-- What is set besides whether commands are traced is seen alike. -/
theorem seeConfig {f : Config → α} (hf : ∀ c d, f { c with debug := d } = f c) :
    f e'.config = f e.config := by
  obtain ⟨d, settings⟩ := h.settings
  rw [settings, hf]

/-- What a script has besides whether it is traced is seen alike. -/
theorem seeScript {f : ScriptRecord → α} (hf : ∀ x t, f { x with traced := t } = f x) (i : Nat) :
    f (e'.script i) = f (e.script i) := by
  obtain ⟨t, script⟩ := h.script i
  rw [script, hf]

/-- What an entry has besides its mark is seen alike. -/
theorem seeEntry {f : Entry → α} (hf : ∀ x w, f (x.waiting w) = f x) (m : EntryRef) :
    f (e'.entry m) = f (e.entry m) := by
  obtain ⟨w, hw⟩ := h.entry m
  rw [hw, hf]

/-- What a queue has besides its tempo is seen alike. -/
theorem seeQueue {f : Queue → α} (hf : ∀ x t, f (x.paced t) = f x) (q : QueueRef) :
    f (e'.queue q) = f (e.queue q) := by
  obtain ⟨t, ht⟩ := h.queue q
  rw [ht, hf]

/-- A queue knows the same things by name. -/
theorem memory (q : QueueRef) : e'.memory (e'.queue q).memory = e.memory (e.queue q).memory := by
  have memories : e'.memory = e.memory := h.see fun _ _ => rfl
  rw [memories, h.seeQueue (f := Queue.memory) (fun _ _ => rfl) q]

/-- A queue is replaced by the same one. -/
theorem follow (q : QueueRef) : e'.follow q = e.follow q := by
  have steps (k : Nat) (q : QueueRef) : e'.followFor k q = e.followFor k q := by
    induction k generalizing q with
    | zero => rfl
    | succ k ih =>
      have next := h.seeQueue (f := Queue.replacedBy) (fun _ _ => rfl) q
      unfold followFor
      rw [next]
      split
      · exact ih _
      · rfl
  unfold Engine.follow
  rw [h.queues]
  exact steps _ q

/-- An entry is on the same queue. -/
theorem residingQueue (m : EntryRef) : e'.residingQueue m = e.residingQueue m := by
  have residing := h.seeEntry (f := Entry.residing) (fun _ _ => rfl) m
  have follow : e'.follow = e.follow := funext h.follow
  rw [Engine.residingQueue, residing, follow]
  rfl

end Resembles

/-- Values are read from the lists of determinations. -/
theorem determined_congr {e e' : Engine} (h : e'.lists = e.lists) (depth : Nat) :
    e'.determined depth = e.determined depth := by
  induction depth with
  | zero => rfl
  | succ depth ih =>
    funext i
    rw [determined, determined, h, ih]

/-- A value is the same for engines with the same lists. -/
theorem reveal_congr {e e' : Engine} (h : e'.lists = e.lists) (v : Value) : e'.reveal v = e.reveal v := by
  rw [reveal, reveal, h, determined_congr h]

end Engine

/-! ## What is done alike -/

namespace Paired

variable {α : Type} {m : EntryRef} {R : Pairing} {S : α → α → Prop} {s s' : Scope} {e e' : Engine}

/-- Places from which the same may be shown, whether or not they are traced. -/
structure Seen (R : Pairing) (s s' : Scope) : Prop where
  emit {e e' : Engine} (event : Scope → Event) : (∀ s t, event { s with traced := t } = event s) →
    R e e' → R (e.emit (event s) s) (e'.emit (event s') s')

/-- Engines that are related look alike, and the same may be shown. -/
structure Blind (R : Pairing) : Prop where
  resembles {e e' : Engine} : R e e' → e.Resembles e'
  scope {e e' : Engine} (m : EntryRef) : R e e' → Seen R (e.scope m) (e'.scope m)
  emit {e e' : Engine} (event : Event) (s : Scope) : R e e' → R (e.emit event s) (e'.emit event s)

/-- Places are seen alike if what is known besides does not depend on what is shown. -/
theorem Seen.with {P : Engine → Prop} (hs : Seen R s s')
    (hP : ∀ {e : Engine} (event : Event) (s : Scope), P e → P (e.emit event s)) : Seen (With R P) s s' where
  emit event he h := ⟨hs.emit event he h.1, hP (event s) s h.2⟩

/-- What is known of the first engine besides does not depend on what is shown. -/
theorem Blind.with {P : Engine → Prop} (hR : Blind R)
    (hP : ∀ {e : Engine} (event : Event) (s : Scope), P e → P (e.emit event s)) : Blind (With R P) where
  resembles h := hR.resembles h.1
  scope m h := (hR.scope m h.1).with hP
  emit event s h := ⟨hR.emit event s h.1, hP event s h.2⟩

/-- A diagnostic from places from which the same may be shown, which reads the same from either. -/
theorem twin_emit (event : Scope → Event) (he : ∀ s t, event { s with traced := t } = event s)
    (hs : Seen R s s') :
    Twin R (Action.change (·.emit (event s) s)) (Action.change (·.emit (event s') s')) :=
  twin_change fun _ _ h => hs.emit event he h

/-- The same output is shown. -/
@[grind ←]
theorem twin_log (message : String) (hs : Seen R s s') :
    Twin R (Action.log message s) (Action.log message s') :=
  twin_emit (Event.log message) (fun _ _ => rfl) hs

/-- The same error is shown. -/
@[grind ←]
theorem twin_error (message : String) (hs : Seen R s s') (f : Option Failure) :
    Twin R (Action.error message s f) (Action.error message s' f) :=
  twin_emit (Event.error message · f) (fun _ _ => rfl) hs

/-- The same trace is shown. -/
@[grind ←]
theorem twin_trace (message : String) (hs : Seen R s s') :
    Twin R (Action.trace message s) (Action.trace message s') :=
  twin_emit (Event.trace message) (fun _ _ => rfl) hs

/-- The same command is announced. -/
@[grind ←]
theorem twin_announce (command : String) (hs : Seen R s s') :
    Twin R (Action.announce command s) (Action.announce command s') :=
  twin_emit (Event.executing command) (fun _ _ => rfl) hs

/-- The same values are reported. -/
@[grind ←]
theorem twin_report (name : String) (values : List (String × String)) (hs : Seen R s s') :
    Twin R (Action.report name values s) (Action.report name values s') :=
  twin_emit (Event.report name values) (fun _ _ => rfl) hs

section Blind

variable (hR : Blind R)

include hR

/-- The same may be shown from one place. -/
@[grind ←]
theorem seen_refl (s : Scope) : Seen R s s :=
  ⟨fun event _ h => hR.emit (event s) s h⟩

/-- A look at none of the parts that may be another goes alike. -/
theorem steady_see {f : Engine → α} (hf : ∀ (e : Engine) v, f (e.veiled v) = f e) :
    Steady R (Action.look f) :=
  steady_look fun _ _ h => (hR.resembles h).see hf

/-- What is read from what a queue shares by name is seen alike. -/
theorem steady_seeMemory (f : Memory → α) (q : QueueRef) :
    Steady R (Action.look fun e => f (e.memory (e.queue q).memory)) :=
  steady_look fun _ _ h => congrArg f ((hR.resembles h).memory q)

/-- A name is defined alike for a queue. -/
theorem steady_definition? (q : QueueRef) (name : String) :
    Steady R (Action.look (·.definition? q name)) := by
  refine steady_look fun _ _ h => ?_
  unfold Engine.definition? Engine.definitions
  rw [(hR.resembles h).memory q]

/-- The queue that an entry is on is found alike. -/
theorem steady_residingQueue (m : EntryRef) : Steady R (Action.look (·.residingQueue m)) :=
  steady_look fun _ _ h => (hR.resembles h).residingQueue m

omit hR in
/-- What is done with an entry of engines that look alike ends alike if it does not look at the mark. -/
theorem ends_entry (h : e.Resembles e') {f f' : Entry → Action α}
    (hf : ∀ w, Ends R S (f (e.entry m) e) (f' ((e.entry m).waiting w) e')) :
    Ends R S ((Action.entry m >>= f) e) ((Action.entry m >>= f') e') := by
  obtain ⟨w, hw⟩ := h.entry m
  show Ends R S (f (e.entry m) e) (f' (e'.entry m) e')
  rw [hw]
  exact hf w

/-- What is done with an entry is done alike if it does not look at the mark. -/
theorem alike_entry {f f' : Entry → Action α} (hf : ∀ x w, Alike R S (f x) (f' (x.waiting w))) :
    Alike R S (Action.entry m >>= f) (Action.entry m >>= f') :=
  ⟨fun h => ends_entry (hR.resembles h) fun w => (hf _ w).run h⟩

/-- What is done with a queue is done alike if it does not look at the tempo. -/
theorem alike_queue {q : QueueRef} {f f' : Queue → Action α}
    (hf : ∀ x t, Alike R S (f x) (f' (x.paced t))) :
    Alike R S (Action.queue q >>= f) (Action.queue q >>= f') := by
  refine ⟨fun {e e'} h => ?_⟩
  obtain ⟨t, ht⟩ := (hR.resembles h).queue q
  show Ends R S (f (e.queue q) e) (f' (e'.queue q) e')
  rw [ht]
  exact (hf _ t).run h

/-- What is done with a script is done alike if it does not look at whether it is traced. -/
theorem alike_script {i : Nat} {f f' : ScriptRecord → Action α}
    (hf : ∀ x t, Alike R S (f x) (f' { x with traced := t })) :
    Alike R S (Action.look (·.script i) >>= f) (Action.look (·.script i) >>= f') := by
  refine ⟨fun {e e'} h => ?_⟩
  obtain ⟨t, ht⟩ := (hR.resembles h).script i
  show Ends R S (f (e.script i) e) (f' (e'.script i) e')
  rw [ht]
  exact (hf _ t).run h

/-- What is read off the settings, whether commands are traced aside. -/
theorem steady_seeConfig {f : Config → α} (hf : ∀ c d, f { c with debug := d } = f c) :
    Steady R (Action.look fun e => f e.config) :=
  steady_look fun _ _ h => (hR.resembles h).seeConfig hf

/-- Whatever is read off a value is read alike. -/
theorem steady_reveals (f : Value → α) (v : Value) : Steady R (Action.look fun e => f (e.reveal v)) :=
  steady_look fun _ _ h =>
    congrArg f (Engine.reveal_congr ((hR.resembles h).see (f := Engine.lists) fun _ _ => rfl) v)

/-- A value reads the same, with the determinations in it. -/
@[grind ←]
theorem steady_reveal (v : Value) : Steady R (Action.reveal v) :=
  steady_reveals hR id v

/-- A value has the same text. -/
@[grind ←]
theorem steady_textOf (v : Value) : Steady R (Action.textOf v) :=
  steady_reveals hR Value.text v

/-- A value is described in the same way. -/
@[grind ←]
theorem steady_describe (v : Value) : Steady R (Action.describe v) :=
  steady_reveals hR Value.describe v

/-- What is done with the place of an entry is done alike with places from which the same may be shown. -/
@[grind ←]
theorem alike_scope {f f' : Scope → Action α} (hf : ∀ s s', Seen R s s' → Alike R S (f s) (f' s')) :
    Alike R S (Entries.scope m >>= f) (Entries.scope m >>= f') :=
  ⟨fun {e e'} h => (hf (e.scope m) (e'.scope m) (hR.scope m h)).run h⟩

/-- The faults that were noted when commands were compiled are shown alike. -/
theorem steady_noteAll (notes : List BuildNote) : Steady R (Action.noteAll notes) := by
  refine twin_change fun e e' h => ?_
  induction notes generalizing e e' with
  | nil => exact h
  | cons note rest ih => exact ih _ _ (hR.emit note.event note.scope h)

end Blind

end Paired

end QueueScript
