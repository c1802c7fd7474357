import QueueScript.Proofs.Paired.Commands

/-!
# Engines that go through the same motions

Two engines are run side by side.  They may differ in what is shown of their work and in files, but
in nothing else: they have the same queues, entries, definitions and work under way.  A *likeness*
says which pairs of engines are meant, and which differences the commands are to be blind to.
Actions go alike on them if they end with the same result or the same failure, and with engines that are
alike again, also when they are cut off (`Likeness.pairing`).

What the commands may look at and change is said once, as the laws of a likeness.  Engines that are alike
look alike, and what touches nothing but its queue may be done on them (`Likeness.owning`).  So every command
goes alike for every likeness, and a statement about two runs is proved by giving a likeness.
-/

namespace QueueScript

/-! ## What two engines have in common -/

/-- The engine without its settings, its files, its scripts and the diagnostics. -/
def Engine.plain (e : Engine) : Engine :=
  { e with config := {}, tracing := false, scripts := #[], files := .empty, events := [] }

/-- The engine `p` with the settings, the files, the scripts and the diagnostics of `e`. -/
def Engine.lend (e p : Engine) : Engine :=
  { p with
    config := e.config, tracing := e.tracing, scripts := e.scripts, files := e.files,
    events := e.events }

/-- The paths that a job goes to satisfy a condition. -/
def Job.Within (goes : Path → Prop) : Job → Prop
  | .read path | .write path _ => goes path
  | .copy origin destination => goes origin ∧ goes destination
  | .request r => ∀ path, r.saveTo = some path → goes path
  | .give _ | .fail _ | .giveUnusable _ => True

/-- The scopes are the same place, whether or not it is traced. -/
def Scope.SamePlace (s s' : Scope) : Prop :=
  s' = { s with traced := s'.traced }

/-- Pairs of engines that commands treat in the same way. -/
structure Likeness where
  /-- The engines are alike. -/
  like : Engine → Engine → Prop
  /-- The places are alike. -/
  scopes : Scope → Scope → Prop
  /-- The paths that file commands may go to. -/
  goes : Path → Prop
  plain {e e' : Engine} : like e e' → e'.plain = e.plain
  settings {e e' : Engine} : like e e' → e'.config = { e.config with debug := e'.config.debug }
  script {e e' : Engine} (n : Nat) : like e e' →
    e'.script n = { e.script n with traced := (e'.script n).traced }
  scripts_size {e e' : Engine} : like e e' → e'.scripts.size = e.scripts.size
  scopes_refl (s : Scope) : scopes s s
  samePlace {s s' : Scope} : scopes s s' → s.SamePlace s'
  scope {e e' : Engine} (n : EntryRef) : like e e' → scopes (e.scope n) (e'.scope n)
  path {e e' : Engine} {target : String} {p : Path} :
    like e e' → e.config.scriptPath? target = some p → goes p
  has {e e' : Engine} {p : Path} : like e e' → goes p → e'.files.has p = e.files.has p
  inFlight {e e' : Engine} : like e e' → ∀ w ∈ e.inFlight, w.job.Within goes
  lend {e e' : Engine} (p : Engine) : like e e' → (∀ w ∈ p.inFlight, w.job.Within goes) →
    like (e.lend p) (e'.lend p)
  emit {e e' : Engine} {s s' : Scope} (event : Event) : like e e' → scopes s s' →
    like (e.emit event s) (e'.emit event s')
  base {e e' : Engine} (n : Nat) (entries : List EntryRef) : like e e' →
    like { e with scripts := e.scripts.modify n ({ · with base := some entries }) }
      { e' with scripts := e'.scripts.modify n ({ · with base := some entries }) }
  push {e e' : Engine} (record : ScriptRecord) : like e e' →
    like { e with scripts := e.scripts.push record } { e' with scripts := e'.scripts.push record }
  perform {e e' : Engine} {job : Job} : like e e' → job.Within goes →
    (Background.perform e' job).2 = (Background.perform e job).2 ∧
      like (Background.perform e job).1 (Background.perform e' job).1

namespace Likeness

open Paired

variable {α : Type} {L : Likeness} {e e' : Engine} {s s' : Scope}

/-- Engines that are alike, also after runs that were cut off. -/
def pairing (L : Likeness) : Pairing :=
  ⟨L.like, L.like, id⟩

instance : Coe Likeness Pairing :=
  ⟨pairing⟩

/-- Actions that go alike give the same result on engines that are alike. -/
theorem twin_run {a a' : Action α} (h : Twin L a a') (hl : L.like e e') :
    (a' e').1 = (a e).1 ∧ L.like (a e).2 (a' e').2 :=
  have ends := (h.run hl).eq
  ⟨ends.1, ends.2.1⟩

/-- Runs with the same result and engines that are alike have ended alike. -/
theorem ends_of_eq {r r' : Except Failure α × Engine} (h : r'.1 = r.1) (hl : L.like r.2 r'.2) :
    Ends L Eq r r' := by
  obtain ⟨r | r, e⟩ := r <;> obtain ⟨r' | r', e'⟩ := r' <;> cases h
  · exact .fail hl
  · exact ⟨rfl, hl⟩

/-- What is done in any case goes alike also after a run that was cut off. -/
@[grind ←]
theorem twin_ensuring {a a' : Action α} {b b' : Action Unit} (ha : Twin L a a') (hb : Twin L b b') :
    Twin L (Action.ensuring a b) (Action.ensuring a' b') := by
  refine ⟨fun {e e'} hl => ?_⟩
  obtain ⟨hr, hl₁⟩ := twin_run ha hl
  unfold Action.ensuring
  generalize a e = r at hr hl₁ ⊢
  generalize a' e' = r' at hr hl₁ ⊢
  obtain ⟨r, e₁⟩ := r
  obtain ⟨r', e₁'⟩ := r'
  obtain ⟨hx, hl₂⟩ := twin_run hb hl₁
  dsimp only at hr ⊢
  rw [hr]
  generalize b e₁ = x at hx hl₂ ⊢
  generalize b' e₁' = x' at hx hl₂ ⊢
  obtain ⟨x, e₂⟩ := x
  obtain ⟨x', e₂'⟩ := x'
  cases hx
  cases x with
  | ok _ => exact ends_of_eq rfl hl₂
  | error f => exact .fail hl₂

/-! ## Looking at an engine and changing it -/

/-- What does not depend on settings, files, scripts and diagnostics is seen alike. -/
theorem see {f : Engine → α} (hf : ∀ e, f e.plain = f e) (hl : L.like e e') : f e' = f e := by
  rw [← hf e', L.plain hl, hf]

/-- A look at none of settings, files, scripts and diagnostics goes alike. -/
@[grind ←]
theorem steady_see {f : Engine → α} (hf : ∀ e, f e.plain = f e) : Steady L (Action.look f) :=
  steady_look fun _ _ => see hf

/-- A change of queues, entries and what they share. -/
theorem like_plain {f : Engine → Engine} (hf : ∀ e, f e = e.lend (f e.plain))
    (hi : ∀ e : Engine, ∀ w ∈ (f e.plain).inFlight, w ∈ e.inFlight) (hl : L.like e e') :
    L.like (f e) (f e') := by
  rw [hf e, hf e', L.plain hl]
  exact L.lend _ hl fun w hw => L.inFlight hl w (hi e w hw)

/-- A change of queues, entries and what they share goes alike. -/
theorem steady_update {f : Engine → Engine} (hf : ∀ e, f e = e.lend (f e.plain))
    (hi : ∀ e : Engine, ∀ w ∈ (f e.plain).inFlight, w ∈ e.inFlight) : Steady L (Action.change f) :=
  twin_change fun _ _ => like_plain hf hi

/-- A queue is the same. -/
@[grind ←]
theorem steady_queue (q : QueueRef) : Steady L (Action.queue q) :=
  steady_see fun _ => rfl

/-- An entry is the same. -/
@[grind ←]
theorem steady_entry (n : EntryRef) : Steady L (Action.entry n) :=
  steady_see fun _ => rfl

/-- Any change of a queue goes alike. -/
@[grind ←]
theorem steady_changeQueue (q : QueueRef) (f : Queue → Queue) : Steady L (Action.changeQueue q f) :=
  steady_update (fun _ => rfl) fun _ _ h => h

/-- Any change of an entry goes alike. -/
@[grind ←]
theorem steady_changeEntry (n : EntryRef) (f : Entry → Entry) : Steady L (Action.changeEntry n f) :=
  steady_update (fun _ => rfl) fun _ _ h => h

/-! ## What is seen alike -/

section Plain

variable (e : Engine)

@[simp, grind =] theorem queue_plain (q : QueueRef) : e.plain.queue q = e.queue q := rfl

@[simp, grind =] theorem entry_plain (n : EntryRef) : e.plain.entry n = e.entry n := rfl

@[simp, grind =] theorem definition?_plain (q : QueueRef) (name : String) :
    e.plain.definition? q name = e.definition? q name := rfl

@[simp, grind =] theorem determinations?_plain (q : QueueRef) :
    e.plain.determinations? q = e.determinations? q := rfl

@[simp, grind =] theorem registered?_plain (id : String) :
    e.plain.registered? id = e.registered? id := rfl

@[simp, grind =] theorem scriptNamed?_plain (name : String) :
    e.plain.scriptNamed? name = e.scriptNamed? name := rfl

/-- Which queue replaces another is told from the queues. -/
theorem followFor_plain (k : Nat) (q : QueueRef) : e.plain.followFor k q = e.followFor k q := by
  induction k generalizing q with
  | zero => rfl
  | succ k ih =>
    rw [Engine.followFor, Engine.followFor, queue_plain]
    split
    · exact ih _
    · rfl

/-- Which queue an entry is on is told from queues and entries. -/
@[simp, grind =]
theorem residingQueue_plain (n : EntryRef) : e.plain.residingQueue n = e.residingQueue n := by
  have hf : e.plain.follow = e.follow := funext (followFor_plain e _)
  show (e.entry n).residing.map e.plain.follow = _
  rw [hf]
  rfl

variable {e} in
/-- Where an entry stands is told from the scripts and from what is seen alike. -/
theorem scope_congr {e' : Engine} (hp : e'.plain = e.plain) (hs : e'.scripts = e.scripts)
    (n : EntryRef) : e'.scope n = e.scope n := by
  have entry : e'.entry n = e.entry n := by rw [← entry_plain, hp, entry_plain]
  have queue : e'.queue = e.queue := funext fun q => by rw [← queue_plain, hp, queue_plain]
  have script : e'.script = e.script := funext fun n => by rw [Engine.script, hs]; rfl
  have residing : e'.residingQueue n = e.residingQueue n := by
    rw [← residingQueue_plain, hp, residingQueue_plain]
  simp only [Engine.scope, entry, queue, script, residing]

end Plain

/-! ## Engines that are alike look alike -/

/-- What is done on engines that are alike may look at everything but settings, scripts, files and
diagnostics. -/
theorem resembles (hl : L.like e e') : e.Resembles e' where
  same := ⟨e'.veil, congrArg (·.veiled e'.veil) (L.plain hl)⟩
  settings := ⟨_, L.settings hl⟩
  script i := ⟨_, L.script i hl⟩
  entries := see (f := fun e => e.entries.size) (fun _ => rfl) hl
  entry n := ⟨_, (see (f := (·.entry n)) (fun _ => rfl) hl).trans (Entry.waiting_self _).symm⟩
  queues := see (f := fun e => e.queues.size) (fun _ => rfl) hl
  queue q := ⟨(e.queue q).tempo, see (f := (·.queue q)) (fun _ => rfl) hl⟩

/-- The same may be shown from places that are alike. -/
theorem seen (hs : L.scopes s s') : Seen L s s' where
  emit event he hl := by
    have same : event s' = event s := by rw [L.samePlace hs, he]
    rw [same]
    exact L.emit _ hl hs

/-- What touches nothing but its queue may be done on engines that are alike, in which all queues and
entries are the same. -/
theorem owning (L : Likeness) : Owning L 0 [] where
  resembles := resembles
  scope n hl := seen (L.scope n hl)
  emit event s hl := L.emit event hl (L.scopes_refl s)
  changeEntry n f _ hl := like_plain (f := (·.changeEntry n f)) (fun _ => rfl) (fun _ _ h => h) hl
  changeQueue q f _ _ hl := like_plain (f := (·.changeQueue q f)) (fun _ => rfl) (fun _ _ h => h) hl
  aside {_ _ f} hf hi hl := by
    refine like_plain (fun e => ?_) (fun e _ hw => hi e.plain ▸ hw) hl
    have kept : f e = (f e).veiled e.veil := hf e e.veil
    have veiled : f e.plain = (f e).veiled e.plain.veil := hf e e.plain.veil
    rw [veiled]
    exact kept
  push x hl :=
    like_plain (f := fun e => { e with entries := e.entries.push x }) (fun _ => rfl) (fun _ _ h => h) hl
  withQueue {_ _ x} _ hl := like_plain (f := (·.withQueue x)) (fun _ => rfl) (fun _ _ h => h) hl
  base i ns hl := L.base i ns hl
  announce n command hl := by
    rw [see (f := (·.entry n)) (fun _ => rfl) hl]
    exact (seen (L.scope n hl)).emit (Event.executing _) (fun _ _ => rfl) hl
  trace q message s hl := by
    rw [see (f := (·.queue q)) (fun _ => rfl) hl]
    exact L.emit _ hl (L.scopes_refl s)
  last {_ _ n} q _ hl :=
    like_plain (f := (·.changeQueue q ({ · with last := some n }))) (fun _ => rfl) (fun _ _ h => h) hl
  note step hl :=
    like_plain (f := fun e => { e with journal := step :: e.journal }) (fun _ => rfl) (fun _ _ h => h) hl
  own {_ _ p} _ hl := ⟨see (f := (·.queue p)) (fun _ => rfl) hl, fun _ _ => List.not_mem_nil⟩
  entry {_ _ n} _ hl := see (f := (·.entry n)) (fun _ => rfl) hl

/-- What touches nothing but its queue may be done on engines that are alike. -/
@[grind ←]
theorem acting (L : Likeness) : Acting L :=
  L.owning.toActing

/-- Notes may be made on any entry of engines that are alike. -/
@[grind ←]
theorem noting (L : Likeness) (n : EntryRef) : Noting L n :=
  L.acting.noting n

/-- Engines that are alike look alike, and may show the same. -/
@[grind ←]
theorem blind (L : Likeness) : Blind L :=
  L.acting.toBlind

end Likeness

end QueueScript
