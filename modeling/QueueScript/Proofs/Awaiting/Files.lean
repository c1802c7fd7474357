import QueueScript.Proofs.Awaiting.Basic
import QueueScript.Proofs.Wakeups

/-!
# File commands, waited for or not

A file command does its work at once, or has it done in the background when its queue waits for it.  The
work only depends on the files (`Background.perform_onFiles`), and what its outcome leaves on the entry
only depends on the command (`Outcome.leaves`).  Up to the work both forms of a command go alike, since
nothing there looks at the mark of the entry; then they part (`Commands.Files.parts_execute`).
-/

namespace QueueScript

/-! ## Work on files -/

/-- The command reads, writes or copies a file. -/
def Behaviour.isOnFiles : Behaviour → Bool
  | .fileRead | .fileWrite | .fileCopy => true
  | _ => false

/-- The work reads, writes or copies a file. -/
def Job.isOnFiles : Job → Bool
  | .read _ | .write .. | .copy .. => true
  | _ => false

/-- The outcome is one of work on files. -/
def Outcome.isOnFiles : Outcome → Bool
  | .content _ | .done | .failure _ => true
  | _ => false

/-- The objects of an entry when the outcome of work on files was applied to it. -/
def Outcome.leaves (b : Behaviour) (o : Outcome) (objects : Keyed Value) : Keyed Value :=
  match o, b with
  | .content bytes, _ => objects.put (Text.lower "data") (.bytes bytes)
  | .done, .fileCopy => objects.put (Text.lower "success") (.bool true)
  | .failure _, .fileCopy => objects.put (Text.lower "success") (.bool false)
  | _, _ => objects

namespace Background

variable {e : Engine} {n : EntryRef} {o : Outcome}

/-- Work on files only depends on the files, and changes nothing else. -/
theorem perform_onFiles {job : Job} (hj : job.isOnFiles = true) (fs : FileSystem) :
    ∃ files o, o.isOnFiles = true ∧ ∀ e : Engine, e.files = fs → perform e job = ({ e with files }, o) := by
  have after (r : FileSystem × Option FileFault) : ∃ o, o.isOnFiles = true ∧
      ∀ e : Engine, afterFiles e r = ({ e with files := r.1 }, o) := by
    obtain ⟨files, fault⟩ := r
    cases fault with
    | none => exact ⟨.done, rfl, fun _ => rfl⟩
    | some f => exact ⟨.failure (.file f), rfl, fun _ => rfl⟩
  cases job with
  | read path =>
    cases hr : fs.read path with
    | ok content =>
      refine ⟨fs, .content content, rfl, ?_⟩
      rintro e rfl
      simp only [perform, hr]
    | error f =>
      refine ⟨fs, .failure (.file f), rfl, ?_⟩
      rintro e rfl
      simp only [perform, hr]
  | write path content =>
    obtain ⟨o, ho, h⟩ := after (fs.write path content)
    exact ⟨_, o, ho, fun e he => by rw [perform, he, h]⟩
  | copy origin destination =>
    obtain ⟨o, ho, h⟩ := after (fs.copy origin destination)
    exact ⟨_, o, ho, fun e he => by rw [perform, he, h]⟩
  | _ => cases hj

/-- An outcome of work on files changes the objects of its entry. -/
theorem apply_onFiles (hn : n < e.entries.size) (ho : o.isOnFiles = true) :
    ∃ y, apply n o e = (.ok (), y) ∧ y.files = e.files ∧ y.inFlight = e.inFlight ∧
      y.entries.size = e.entries.size ∧ y.entry n =
        { e.entry n with objects := o.leaves (e.entry n).code.handler.behaviour (e.entry n).objects } := by
  have stored (key : String) (v : Value) :
      let y := e.changeEntry n fun x => { x with objects := x.objects.put (Text.lower key) v }
      Entries.store n key v e = (.ok (), y) ∧ y.entries.size = e.entries.size ∧
        y.entry n = { e.entry n with objects := (e.entry n).objects.put (Text.lower key) v } :=
    ⟨rfl, Engine.size_changeEntry .., e.entry_changeEntry_self hn _⟩
  have reported (x : Engine) (message : String) (f : Failure) : ∃ events,
      (Entries.scope n >>= fun s => Action.error message s (some f) : Action Unit) x =
        (.ok (), { x with events }) := by
    obtain ⟨events, shown⟩ := x.emit_eq (.error message (x.scope n) (some f)) (x.scope n)
    exact ⟨events, Prod.ext rfl shown⟩
  rw [apply, Action.entry_bind]
  cases o with
  | content bytes =>
    obtain ⟨done, size, entry⟩ := stored "data" (.bytes bytes)
    exact ⟨_, done, rfl, rfl, size, entry⟩
  | done =>
    cases (e.entry n).code.handler.behaviour with
    | fileCopy =>
      obtain ⟨done, size, entry⟩ := stored "success" (.bool true)
      exact ⟨_, done, rfl, rfl, size, entry⟩
    | _ => exact ⟨e, rfl, rfl, rfl, rfl, rfl⟩
  | failure f =>
    cases (e.entry n).code.handler.behaviour with
    | fileCopy =>
      obtain ⟨done, size, entry⟩ := stored "success" (.bool false)
      obtain ⟨events, shown⟩ := reported _ ("Cannot copy file: " ++ f.message) f
      exact ⟨_, (Action.bind_ok done).trans shown, rfl, rfl, size, entry⟩
    | _ =>
      obtain ⟨events, shown⟩ := reported e ("'" ++ (e.entry n).code.handler.name ++ "' failed: " ++ f.message) f
      exact ⟨_, shown, rfl, rfl, rfl, rfl⟩
  | _ => cases ho

/-- Work on files was done at once for the entry `n`: its outcome is applied, and the entry is done. -/
structure DoneNow (n : EntryRef) (job : Job) (e y : Engine) : Prop where
  files : y.files = (perform e job).1.files
  inFlight : y.inFlight = e.inFlight
  entry : y.entry n = { e.entry n with
    objects := (perform e job).2.leaves (e.entry n).code.handler.behaviour (e.entry n).objects
    isFinished := true }

end Background

namespace Commands.Files

open Background

variable {e : Engine} {n : EntryRef} {job : Job}

theorem performNow_of {x : Engine} {o : Outcome} (h : perform e job = (x, o)) :
    performNow job e = (.ok o, x) := by
  unfold performNow
  rw [h]

/-- Work that is done at once for a command that does not copy. -/
theorem finishNow_done (hn : n < e.entries.size) (hj : job.isOnFiles = true)
    (hb : (e.entry n).code.handler.behaviour ≠ .fileCopy) (wrap : FileFault → RuntimeFault) :
    (finishNow n job wrap e).1 ≠ .error .exhausted ∧ DoneNow n job e (finishNow n job wrap e).2 := by
  obtain ⟨files, o, ho, performed⟩ := perform_onFiles hj e.files
  have worked := performed e rfl
  let x : Engine := Engine.changeEntry { e with files } n ({ · with isFinished := true })
  have here : x.entry n = { e.entry n with isFinished := true } :=
    Engine.entry_changeEntry_self { e with files } hn _
  have hx : n < x.entries.size := (Engine.size_changeEntry { e with files } ..).symm ▸ hn
  have applied (begun : finishNow n job wrap e = apply n o x) :
      (finishNow n job wrap e).1 ≠ .error .exhausted ∧ DoneNow n job e (finishNow n job wrap e).2 := by
    obtain ⟨y, done, yfiles, yflight, -, entry⟩ := apply_onFiles hx ho
    rw [begun, done]
    refine ⟨fun fails => (by cases fails), by rw [worked]; exact yfiles, yflight, ?_⟩
    rw [entry, here, worked]
  cases o with
  | failure f =>
    cases f with
    | file f =>
      have begun : finishNow n job wrap e = Action.breakOff (wrap f) x :=
        Action.bind_ok (performNow_of worked)
      rw [begun]
      refine ⟨fun fails => (by cases fails), by rw [worked]; rfl, rfl, here.trans ?_⟩
      rw [worked]
      cases hc : (e.entry n).code.handler.behaviour with
      | fileCopy => exact absurd hc hb
      | _ => rfl
    | _ => exact applied (Action.bind_ok (performNow_of worked))
  | _ => exact applied (Action.bind_ok (performNow_of worked))

/-- Does a copy at once. -/
def copyNow (n : EntryRef) (job : Job) : Action Unit := do
  apply n (← performNow job)
  Entries.finish n

/-- Work that is done at once for a copy. -/
theorem copyNow_done (hn : n < e.entries.size) (hj : job.isOnFiles = true) :
    (copyNow n job e).1 ≠ .error .exhausted ∧ DoneNow n job e (copyNow n job e).2 := by
  obtain ⟨files, o, ho, performed⟩ := perform_onFiles hj e.files
  have worked := performed e rfl
  obtain ⟨y, done, yfiles, yflight, size, entry⟩ := apply_onFiles (e := { e with files }) (n := n) hn ho
  have ended : copyNow n job e = (.ok (), y.changeEntry n ({ · with isFinished := true })) :=
    (Action.bind_ok (performNow_of worked)).trans (Action.bind_ok done)
  rw [ended]
  refine ⟨nofun, by rw [worked]; exact yfiles, yflight, ?_⟩
  rw [y.entry_changeEntry_self (size.symm ▸ hn), entry, worked]
  rfl

/-! ## With and without the mark -/

open Paired

variable {α : Type} {k : QueueRef} {e' : Engine} {S : α → α → Prop}

theorem steady_performNow (hj : job.isOnFiles = true) : Steady (Engine.Abreast k n) (performNow job) := by
  refine ⟨fun {e e'} h => ?_⟩
  obtain ⟨files, o, -, performed⟩ := perform_onFiles hj e.files
  rw [performNow_of (performed e rfl), performNow_of (performed e' (h.see (f := Engine.files) fun _ _ _ => rfl))]
  exact ⟨rfl, h.aside (f := ({ · with files })) (fun _ _ _ => rfl) (fun _ => rfl) fun _ last => last⟩

theorem steady_finishNow (hj : job.isOnFiles = true) (wrap : FileFault → RuntimeFault) :
    Steady (Engine.Abreast k n) (finishNow n job wrap) := by
  refine twin_bind (steady_performNow hj) fun o => twin_bind (steady_finish (owning_abreast k n).toActing n) fun _ => ?_
  split
  · exact alike_breakOff _
  · exact steady_apply ((owning_abreast k n).noting n) o

theorem steady_copyNow (hj : job.isOnFiles = true) : Steady (Engine.Abreast k n) (copyNow n job) :=
  twin_bind (steady_performNow hj) fun o => twin_bind (steady_apply ((owning_abreast k n).noting n) o) fun _ =>
    steady_finish (owning_abreast k n).toActing n

/-- What comes of a file command on two engines, in the second of which its queue waits for the entry.
Both runs end alike, and then the entry is done if they did not fail, or will be when its command returns; or
the first one has done the work that the second one has under way. -/
def Parts (k : QueueRef) (n : EntryRef) (r r' : Except Failure Unit × Engine) : Prop :=
  Ends (Engine.Abreast k n) Eq r r' ∧ (r.1 = .ok () →
    (r.2.entry n).isFinished = true ∨ (r.2.entry n).code.handler.isHoldable = false) ∨
  ∃ (job : Job) (z z' : Engine), job.isOnFiles = true ∧ z.Abreast k n z' ∧
    r.1 ≠ .error .exhausted ∧ DoneNow n job z r.2 ∧
    r' = (.ok (), { z' with inFlight := z'.inFlight ++ [⟨n, job⟩] })

/-- The two ways to do the work of a command. -/
theorem parts_work {now : Action Unit} (h : e.Abreast k n e') (hw : (e.entry n).code.waits = false)
    (hj : job.isOnFiles = true) (hdone : (now e).1 ≠ .error .exhausted ∧ DoneNow n job e (now e).2)
    (hs : Steady (Engine.Abreast k n) now) :
    Parts k n ((do if (← Action.entry n).isAwaited then launch n job else now : Action Unit) e)
      ((do if (← Action.entry n).isAwaited then launch n job else now : Action Unit) e') := by
  show Parts k n ((if (e.entry n).isAwaited then launch n job else now : Action Unit) e)
    ((if (e'.entry n).isAwaited then launch n job else now : Action Unit) e')
  have unmarked : (e.entry n).isAwaited = false := by rw [Entry.isAwaited, hw, Bool.false_and]
  have marked : (e'.entry n).isAwaited = !(e.entry n).isFinished := by
    rw [h.entry_self]
    exact Bool.true_and _
  rw [unmarked, marked]
  cases (e.entry n).isFinished with
  | true => exact .inl ⟨hs.run h, fun _ => .inl (congrArg Entry.isFinished hdone.2.entry)⟩
  | false => exact .inr ⟨job, e, e', hj, h, hdone.1, hdone.2, rfl⟩

theorem parts_bind {a : Action α} {f : α → Action Unit} {P : Engine → Prop}
    (ha : Ends (With (Engine.Abreast k n) P) Eq (a e) (a e'))
    (hf : ∀ v y y', y.Abreast k n y' → P y → Parts k n (f v y) (f v y')) :
    Parts k n ((a >>= f) e) ((a >>= f) e') := by
  rcases hr : a e with ⟨err | v, y⟩ <;> rcases hr' : a e' with ⟨err' | v', y'⟩ <;> rw [hr, hr'] at ha
  · obtain ⟨rfl, -, engines⟩ := ha
    rw [Action.bind_error hr, Action.bind_error hr']
    exact .inl ⟨⟨rfl, trivial, fun herr => (engines herr).1⟩, nofun⟩
  · exact ha.elim
  · exact ha.elim
  · obtain ⟨rfl, abreast, hP⟩ := ha
    rw [Action.bind_ok hr, Action.bind_ok hr']
    exact hf v y y' abreast hP

/-- Engines that differ in a mark and in diagnostics, the first one with the entries of `e₀`. -/
abbrev Shown (k : QueueRef) (n : EntryRef) (e₀ : Engine) : Pairing :=
  With (Engine.Abreast k n) fun e => e.entries = e₀.entries

theorem blind_shown (k : QueueRef) (n : EntryRef) (e₀ : Engine) : Blind (Shown k n e₀) :=
  (owning_abreast k n).toBlind.with fun {e} event s same => by
    obtain ⟨events, shown⟩ := e.emit_eq event s
    rw [shown]
    exact same

section Executes

variable (h : e.Abreast k n e') (hw : (e.entry n).code.waits = false)

include h hw

theorem parts_readExecute (hb : (e.entry n).code.handler.behaviour = .fileRead) :
    Parts k n (Read.execute n e) (Read.execute n e') := by
  have hR := blind_shown k n e
  refine parts_bind ((steady_requireAllowed hR (fun _ _ => rfl) _ _).run ⟨h, rfl⟩) fun _ e₁ e₁' h₁ same₁ => ?_
  refine parts_bind ((steady_parsedText hR n _).run ⟨h₁, same₁⟩) fun target e₂ e₂' h₂ same₂ => ?_
  refine parts_bind ((steady_requirePath hR target).run ⟨h₂, same₂⟩) fun path e₃ e₃' h₃ same₃ => ?_
  refine parts_bind ((steady_report hR n _).run ⟨h₃, same₃⟩) fun _ e₄ e₄' h₄ same₄ => ?_
  have entry := Engine.entry_congr same₄ n
  exact parts_work h₄ (by rw [entry, hw]) rfl (finishNow_done h₄.size rfl (by rw [entry, hb]; nofun) _)
    (steady_finishNow rfl _)

theorem parts_writeExecute (hb : (e.entry n).code.handler.behaviour = .fileWrite) :
    Parts k n (Write.execute n e) (Write.execute n e') := by
  have hR := blind_shown k n e
  refine parts_bind ((steady_requireAllowed hR (fun _ _ => rfl) _ _).run ⟨h, rfl⟩) fun _ e₁ e₁' h₁ same₁ => ?_
  refine parts_bind ((steady_parsedText hR n _).run ⟨h₁, same₁⟩) fun target e₂ e₂' h₂ same₂ => ?_
  refine parts_bind ((steady_requirePath hR target).run ⟨h₂, same₂⟩) fun path e₃ e₃' h₃ same₃ => ?_
  refine parts_bind ((steady_object? hR n _).run ⟨h₃, same₃⟩) fun stored e₄ e₄' h₄ same₄ => ?_
  refine parts_bind ((steady_reveal hR _).run ⟨h₄, same₄⟩) fun v e₅ e₅' h₅ same₅ => ?_
  refine parts_bind ((steady_report hR n _).run ⟨h₅, same₅⟩) fun _ e₆ e₆' h₆ same₆ => ?_
  have entry := Engine.entry_congr same₆ n
  exact parts_work h₆ (by rw [entry, hw]) rfl (finishNow_done h₆.size rfl (by rw [entry, hb]; nofun) _)
    (steady_finishNow rfl _)

omit hw in
/-- A copy that is refused is reported, and the entry is done. -/
theorem parts_refused (message : String) :
    Parts k n ((do
      Action.error message (← Entries.scope n) none
      Entries.store n "success" (.bool false)
      Entries.finish n : Action Unit) e) ((do
      Action.error message (← Entries.scope n) none
      Entries.store n "success" (.bool false)
      Entries.finish n : Action Unit) e') := by
  have hA := owning_abreast k n
  have refused : Steady (Engine.Abreast k n) (do
      Action.error message (← Entries.scope n) none
      Entries.store n "success" (.bool false)
      Entries.finish n) := by
    refine alike_scope hA.toBlind fun s s' hs =>
      twin_bind (twin_error message hs none) fun _ => ?_
    exact twin_bind (steady_store (hA.noting n) _ _) fun _ => steady_finish hA.toActing n
  refine .inl ⟨refused.run h, fun _ => ?_⟩
  obtain ⟨events, shown⟩ := e.emit_eq (.error message (e.scope n) none) (e.scope n)
  let x := (e.emit (.error message (e.scope n) none) (e.scope n)).changeEntry n fun x =>
    { x with objects := x.objects.put (Text.lower "success") (.bool false) }
  have size : n < x.entries.size := by
    show n < ((e.emit _ _).changeEntry n _).entries.size
    rw [Engine.size_changeEntry, shown]
    exact h.size
  exact .inl (congrArg Entry.isFinished (x.entry_changeEntry_self size ({ · with isFinished := true })))

theorem parts_copyExecute : Parts k n (Copy.execute n e) (Copy.execute n e') := by
  have hR := blind_shown k n e
  refine parts_bind ((steady_requireAllowed hR (fun _ _ => rfl) _ _).run ⟨h, rfl⟩) fun _ e₁ e₁' h₁ same₁ => ?_
  refine parts_bind ((steady_parsedText hR n _).run ⟨h₁, same₁⟩) fun originText e₂ e₂' h₂ same₂ => ?_
  refine parts_bind ((steady_requirePath hR originText).run ⟨h₂, same₂⟩) fun origin e₃ e₃' h₃ same₃ => ?_
  refine parts_bind ((steady_parsedText hR n _).run ⟨h₃, same₃⟩) fun goalText e₄ e₄' h₄ same₄ => ?_
  refine parts_bind ((steady_requirePath hR goalText).run ⟨h₄, same₄⟩) fun goal e₅ e₅' h₅ same₅ => ?_
  refine parts_bind ((steady_isTrue hR n _).run ⟨h₅, same₅⟩) fun overwrite e₆ e₆' h₆ same₆ => ?_
  refine parts_bind ((steady_report hR n _).run ⟨h₆, same₆⟩) fun _ e₇ e₇' h₇ same₇ => ?_
  have looked : Steady (Shown k n e) (Action.look fun e =>
      Copy.refusal? e.files (originText, origin) (goalText, goal) overwrite) :=
    steady_look fun _ _ h => by rw [h.1.see (f := Engine.files) fun _ _ _ => rfl]
  refine parts_bind (looked.run ⟨h₇, same₇⟩) fun refused e₈ e₈' h₈ same₈ => ?_
  have waits : (e₈.entry n).code.waits = false := by rw [Engine.entry_congr same₈ n, hw]
  cases refused with
  | some refusal => exact parts_refused h₈ refusal.message
  | none => exact parts_work h₈ waits rfl (copyNow_done h₈.size rfl) (steady_copyNow rfl)

/-- A file command does its work, or has it done.  The stub that stands for one does nothing. -/
theorem parts_execute (calls : Calls) (hb : (e.entry n).code.handler.behaviour.isOnFiles = true ∨
    (e.entry n).code.handler.behaviour = .stub ∧ (e.entry n).code.handler.isHoldable = false) :
    Parts k n (Commands.execute calls n e) (Commands.execute calls n e') := by
  have same : (e'.entry n).code.handler.behaviour = (e.entry n).code.handler.behaviour :=
    h.seeEntry (f := fun x => x.code.handler.behaviour) (fun _ _ => rfl) n
  rw [Commands.execute, Action.entry_bind, Action.entry_bind, same]
  cases hc : (e.entry n).code.handler.behaviour with
  | fileRead => exact parts_readExecute h hw hc
  | fileWrite => exact parts_writeExecute h hw hc
  | fileCopy => exact parts_copyExecute h hw
  | stub =>
    rw [hc] at hb
    rcases hb with hb | ⟨-, holdless⟩
    · cases hb
    · exact .inl ⟨⟨rfl, h⟩, fun _ => .inr holdless⟩
  | _ =>
    rw [hc] at hb
    rcases hb with hb | ⟨hb, -⟩ <;> cases hb

end Executes

end Commands.Files

end QueueScript
