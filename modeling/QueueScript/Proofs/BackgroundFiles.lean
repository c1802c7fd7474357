import QueueScript.Proofs.Awaiting.Files
import QueueScript.Proofs.WebResults

/-!
# Files at once and in the background

A file command that its queue waits for has its work done in the background: the work settles, and its
outcome is handed to the entry by a later beat.  Otherwise the work is done before the next entry runs,
and a fault is a failure of the command.  Both leave the same files, also when a step fails midway, and
the same objects and arguments on the entry, which is done (`background_files_agree`).

Both runs go alike up to the work (`Executor.executeWith_pair`), which does the same to the files whenever
it is done (`Background.settleAt_onFiles`).  What else happens in a beat passes by the files and the entry:
the handoffs for other entries (`Discipline.passing`), and the turns of queues with nothing left to run
(`Discipline.resting`).
-/

namespace QueueScript

/-! ## The end of a run -/

namespace Engine

/-- Nothing has touched the files, nor the command of the entry `n`, its arguments and its objects. -/
structure LeftAlone (n : EntryRef) (e e' : Engine) : Prop where
  files : e'.files = e.files
  code : (e'.entry n).code = (e.entry n).code
  arguments : (e'.entry n).arguments = (e.entry n).arguments
  objects : (e'.entry n).objects = (e.entry n).objects

namespace LeftAlone

variable {n : EntryRef} {e e' e'' : Engine}

/-- What is left alone over and over is left alone. -/
theorem trans (h : e.LeftAlone n e') (h' : e'.LeftAlone n e'') : e.LeftAlone n e'' :=
  ⟨h'.files.trans h.files, h'.code.trans h.code, h'.arguments.trans h.arguments, h'.objects.trans h.objects⟩

/-- An entry is left alone while nothing is done. -/
theorem refl (n : EntryRef) (e : Engine) : e.LeftAlone n e :=
  ⟨rfl, rfl, rfl, rfl⟩

/-- An entry is left alone when some entry is marked as finished. -/
theorem finish (n m : EntryRef) (e : Engine) :
    e.LeftAlone n (e.changeEntry m ({ · with isFinished := true })) := by
  have keep {β : Type} {g : Entry → β} (hg : ∀ x : Entry, g { x with isFinished := true } = g x) :
      g ((e.changeEntry m ({ · with isFinished := true })).entry n) = g (e.entry n) :=
    e.entry_changeEntry_keep hg m n
  exact ⟨rfl, keep fun _ => rfl, keep fun _ => rfl, keep fun _ => rfl⟩

/-- An entry is left alone when files and entries are. -/
theorem of_tables (hf : e'.files = e.files) (hn : e'.entries = e.entries) : e.LeftAlone n e' := by
  have entry := Engine.entry_congr hn n
  exact ⟨hf, by rw [entry], by rw [entry], by rw [entry]⟩

end LeftAlone

end Engine

namespace Executor

variable {n : EntryRef} {e : Engine}

/-- Leaving an entry touches neither the files and the work under way nor what its command left on it. -/
theorem leave_leftAlone (n : EntryRef) (saveAs : Option String) (e : Engine) :
    let y := (leave n saveAs e).2
    e.LeftAlone n y ∧ y.inFlight = e.inFlight ∧
      ((e.entry n).isFinished = true → (y.entry n).isFinished = true) := by
  have ended (x : Engine) (hf : x.files = e.files) (hi : x.inFlight = e.inFlight) (hn : x.entries = e.entries) :
      let y := ((do
        if !(← Action.entry n).code.handler.isHoldable then
          Entries.finish n : Action Unit) x).2
      e.LeftAlone n y ∧ y.inFlight = e.inFlight ∧
        ((e.entry n).isFinished = true → (y.entry n).isFinished = true) := by
    intro y
    have before : e.LeftAlone n x := .of_tables hf hn
    have same : (x.entry n).isFinished = (e.entry n).isFinished := by rw [Engine.entry_congr hn]
    have looked : y = ((if !(x.entry n).code.handler.isHoldable then Entries.finish n else pure () :
      Action Unit) x).2 := rfl
    cases hh : (x.entry n).code.handler.isHoldable with
    | true =>
      rw [hh] at looked
      have kept : y = x := looked
      rw [kept]
      exact ⟨before, hi, same.trans⟩
    | false =>
      rw [hh] at looked
      have marked : y = x.changeEntry n ({ · with isFinished := true }) := looked
      rw [marked]
      refine ⟨before.trans (.finish n n x), hi, fun finished => ?_⟩
      rw [Engine.entry_changeEntry]
      split
      · rfl
      · exact same.trans finished
  cases saveAs with
  | none => exact ended e rfl rfl rfl
  | some name =>
    cases hr : e.residingQueue n with
    | none =>
      rw [show leave n (some name) e = _ from Action.bind_ok (save_of_none hr)]
      exact ended e rfl rfl rfl
    | some q =>
      rw [show leave n (some name) e = _ from Action.bind_ok (save_of_some hr)]
      exact ended _ rfl rfl rfl

/-- The end of a run touches neither the files and the work under way nor what the command left.  The entry
is done if the command failed, or if it was done before, or if nothing holds it. -/
theorem conclude_leftAlone {r : Except Failure Unit × Engine} (hr : r.1 ≠ .error .exhausted)
    (code : Compiled) (scope : Scope) (saveAs : Option String) :
    let y := (conclude n code scope saveAs r).2
    r.2.LeftAlone n y ∧ y.inFlight = r.2.inFlight ∧
      (n < r.2.entries.size → (r.1 = .ok () →
          (r.2.entry n).isFinished = true ∨ (r.2.entry n).code.handler.isHoldable = false) →
        (y.entry n).isFinished = true) := by
  obtain ⟨f | u, x⟩ := r
  · let y := failed n code scope f x
    have ended : x.LeftAlone n y ∧ y.inFlight = x.inFlight ∧
        (n < x.entries.size → (y.entry n).isFinished = true) := by
      obtain ⟨events, shown⟩ := x.emit_eq (.error (failureText code f) scope (some f)) scope
      have failed : y = Engine.changeEntry { x with events } n ({ · with isFinished := true }) :=
        congrArg (Engine.changeEntry · n ({ · with isFinished := true })) shown
      rw [failed]
      have emitted : x.LeftAlone n { x with events } := .of_tables rfl rfl
      exact ⟨emitted.trans (.finish n n _), rfl, fun hn =>
        congrArg Entry.isFinished (Engine.entry_changeEntry_self { x with events } hn _)⟩
    cases f with
    | exhausted => exact absurd rfl hr
    | _ => exact ⟨ended.1, ended.2.1, fun hn _ => ended.2.2 hn⟩
  · obtain ⟨alone, flight, finished⟩ := leave_leftAlone n saveAs x
    exact ⟨alone, flight, fun hn done => (done rfl).elim finished (leave_finished saveAs hn)⟩

end Executor

/-! ## What else happens in a beat -/

namespace Engine

/-- The files, the queues and the entries with the property `P` are kept. -/
structure PassesBy (P : EntryRef → Prop) (e e' : Engine) : Prop where
  files : e'.files = e.files
  queues : e'.queues = e.queues
  registry : e'.registry = e.registry
  entry {m : EntryRef} : P m → e'.entry m = e.entry m

namespace PassesBy

variable {P : EntryRef → Prop} {n : EntryRef} {e e' e'' : Engine}

/-- Files and entries are passed by while nothing is done. -/
theorem refl (P : EntryRef → Prop) (e : Engine) : e.PassesBy P e :=
  ⟨rfl, rfl, rfl, fun _ => rfl⟩

/-- Files and entries are passed by over and over. -/
theorem trans (h : e.PassesBy P e') (h' : e'.PassesBy P e'') : e.PassesBy P e'' :=
  ⟨h'.files.trans h.files, h'.queues.trans h.queues, h'.registry.trans h.registry,
    fun hm => (h'.entry hm).trans (h.entry hm)⟩

/-- An entry that is passed by is left alone. -/
theorem leftAlone (h : e.PassesBy P e') (hn : P n) : e.LeftAlone n e' :=
  ⟨h.files, by rw [h.entry hn], by rw [h.entry hn], by rw [h.entry hn]⟩

/-- The change of another entry passes by. -/
theorem changeEntry (hn : ¬ P n) (f : Entry → Entry) (e : Engine) : e.PassesBy P (e.changeEntry n f) := by
  refine ⟨rfl, rfl, rfl, fun {m} hm => e.entry_changeEntry_of_ne ?_ f⟩
  rintro rfl
  exact hn hm

end PassesBy

/-- The queues that take their turns have no entry left. -/
def Resting (e : Engine) : Prop :=
  ∀ q ∈ e.registry.values, (e.queue q).pending = []

/-- An engine at rest stays at rest when its queues are passed by. -/
theorem PassesBy.resting {P : EntryRef → Prop} {e e' : Engine} (h : e.PassesBy P e') (he : e.Resting) :
    e'.Resting := by
  intro q hq
  rw [h.registry] at hq
  rw [Engine.queue_congr h.queues]
  exact he q hq

end Engine

namespace Discipline

/-- The files, the queues and the entries with the property `P` are kept by what is done for other entries. -/
def passing (P : EntryRef → Prop) : Discipline where
  inv _ := True
  le := Engine.PassesBy P
  cut _ := True
  own _ m := ¬ P m
  mine _ _ := True
  fresh _ _ := True
  placed _ _ m := ¬ P m
  fits _ := True
  cared _ _ := True
  marked _ _ := True
  refl := .refl P
  trans h h' := h.trans h'
  own_mono _ h := h
  mine_mono _ _ := trivial
  fresh_mono _ _ := trivial
  placed_mono _ h := h
  placed_own h := h
  cared_mono _ _ := trivial
  marked_mono _ _ := trivial
  marked_cared _ := trivial

/-- What every command does passes by. -/
theorem Passing.bookkeeping (P : EntryRef → Prop) : (passing P).Bookkeeping where
  emit {e} event s _ := by
    obtain ⟨events, shown⟩ := e.emit_eq event s
    rw [shown]
    exact ⟨trivial, rfl, rfl, rfl, fun _ => rfl⟩
  jot _ hm _ := ⟨trivial, .changeEntry hm _ _⟩
  finish _ hm := ⟨⟨trivial, .changeEntry hm _ _⟩, trivial⟩
  memory _ _ _ := ⟨trivial, rfl, rfl, rfl, fun _ => rfl⟩
  residing _ _ _ := trivial
  eased_mono _ _ _ := .inl trivial

/-- Turns of queues without entries, on an engine on which the entry `n` is done and nothing has touched the
files of the engine `z` and what the command left on the entry. -/
def resting (n : EntryRef) (z : Engine) : Discipline where
  inv e := z.LeftAlone n e ∧ (e.entry n).isFinished = true
  le e e' := e.queues.size ≤ e'.queues.size ∧
    ∀ q, ((e.queue q).pending = [] → (e'.queue q).pending = []) ∧ (e'.queue q).pace = (e.queue q).pace
  cut e := z.LeftAlone n e ∧ (e.entry n).isFinished = true
  own _ _ := False
  mine e q := (e.queue q).pending = []
  fresh _ _ := True
  placed _ _ _ := False
  fits _ := True
  cared _ _ := True
  marked _ _ := True
  refl _ := ⟨Nat.le_refl _, fun _ => ⟨id, rfl⟩⟩
  trans h h' := ⟨Nat.le_trans h.1 h'.1, fun q => ⟨(h'.2 q).1 ∘ (h.2 q).1, (h'.2 q).2.trans (h.2 q).2⟩⟩
  own_mono _ h := h
  mine_mono h hq := (h.2 _).1 hq
  fresh_mono _ _ := trivial
  placed_mono _ h := h
  placed_own h := h
  cared_mono _ _ := trivial
  marked_mono _ _ := trivial
  marked_cared _ := trivial

namespace Resting

variable {n : EntryRef} {z : Engine}

instance (n : EntryRef) (z : Engine) : (resting n z).Lenient :=
  ⟨id⟩

/-- Nothing but the books of the engine changes. -/
theorem step {e e' : Engine} (he : (resting n z).inv e) (hf : e'.files = e.files) (hn : e'.entries = e.entries)
    (hq : e'.queues = e.queues) : (resting n z).Step e e' := by
  refine ⟨⟨he.1.trans (.of_tables hf hn), ?_⟩, Nat.le_of_eq (by rw [hq]), fun q => ?_⟩
  · rw [Engine.entry_congr hn]
    exact he.2
  · rw [Engine.queue_congr hq]
    exact ⟨id, rfl⟩

/-- The ends of queues leave an engine at rest. -/
theorem closing (n : EntryRef) (z : Engine) : (resting n z).Closing where
  emit {e} event s he := by
    obtain ⟨events, shown⟩ := e.emit_eq event s
    rw [shown]
    exact step he rfl rfl rfl
  jot _ hm _ := hm.elim
  finish _ hm := hm.elim
  memory _ he _ := step he rfl rfl rfl
  residing _ hm _ := hm.elim
  eased_mono _ hm _ := hm.elim
  soft {e} q f he hf := by
    refine ⟨⟨he.1.trans (.of_tables rfl rfl), he.2⟩, (Engine.size_changeQueue ..).ge, fun p => ?_⟩
    rw [Engine.queue_changeQueue]
    split
    · rename_i h
      obtain ⟨rfl, -⟩ := h
      refine ⟨fun none => ?_, hf.pace _⟩
      exact (hf.pending _).elim (fun same => same.trans none) id
    · exact ⟨id, rfl⟩
  hear {e} q _ he _ := by
    refine ⟨⟨he.1.trans (.of_tables rfl rfl), he.2⟩, (Engine.size_changeQueue ..).ge, fun p => ?_⟩
    rw [Engine.queue_changeQueue]
    split
    · rename_i h
      obtain ⟨rfl, -⟩ := h
      exact ⟨id, rfl⟩
    · exact ⟨id, rfl⟩
  heard {_ _ m} _ _ e he _ := by
    refine ⟨⟨he.1.trans (.finish n m e), ?_⟩, Nat.le_refl _, fun _ => ⟨id, rfl⟩⟩
    rw [Engine.entry_changeEntry]
    split
    · rfl
    · exact he.2
  books _ _ he := step he rfl rfl rfl
  setRegistry he _ := step he rfl rfl rfl

/-- Changes of pace leave an engine at rest. -/
theorem pacing (n : EntryRef) (z : Engine) : (resting n z).Pacing where
  finishQueue _ := (closing n z).safe_finish
  delay _ he _ := (closing n z).soft _ he (.of_same fun _ => ⟨rfl, rfl, rfl, rfl, rfl⟩)
  pace h hq := ⟨Nat.lt_of_lt_of_le hq h.1, (h.2 _).2⟩

/-- No entry is run. -/
theorem runsEntries (calls : Calls) : (resting n z).RunsEntries calls := by
  intro e q m rest _ none some
  cases none.symm.trans some

end Resting

end Discipline

namespace Heartbeat

variable {P : EntryRef → Prop} {n : EntryRef}

/-- A handoff for another entry, or a task of the host, passes by. -/
theorem passesBy_takeOverSafely {h : Handoff} (hP : ∀ m o, h = .settle m o → ¬ P m) (e : Engine) :
    (takeOverSafely h e).1 = .ok () ∧ e.PassesBy P (takeOverSafely h e).2 := by
  cases h with
  | settle m o =>
    have handed : (Discipline.passing P).Safe e (Background.handOver m o) :=
      Discipline.safe_handOver (Discipline.Passing.bookkeeping P) (hP m o rfl) (fun _ _ => trivial) o
    have safe : (Discipline.passing P).Safe e (takeOverSafely (.settle m o)) :=
      Discipline.gives_orElse handed fun f =>
        Discipline.safe_error (Discipline.Passing.bookkeeping P).toNoting _ _ _
    obtain ⟨e', taken, -⟩ := takeOverSafely_settle e m o
    have left := safe.run e trivial (.refl P e)
    rw [taken] at left ⊢
    exact ⟨rfl, left.1.2⟩
  | task label count error again =>
    obtain ⟨events, taken⟩ := takeOverSafely_task e label count error again
    rw [taken]
    exact ⟨rfl, rfl, rfl, rfl, fun _ => rfl⟩

/-- Handoffs for other entries pass by. -/
theorem passesBy_each {hs : List Handoff} (hP : ∀ m o, .settle m o ∈ hs → ¬ P m) (e : Engine) :
    e.PassesBy P (Action.each takeOverSafely hs e).2 := by
  induction hs generalizing e with
  | nil => exact .refl P e
  | cons h rest ih =>
    obtain ⟨taken, passes⟩ := passesBy_takeOverSafely (P := P) (h := h)
      (fun m o same => hP m o (same ▸ List.mem_cons_self)) e
    rw [each_cons taken]
    exact passes.trans (ih (fun m o mem => hP m o (List.mem_cons_of_mem _ mem)) _)

/-- The handoffs for other entries that a beat begins with pass by. -/
theorem passesBy_takenUpTo (e : Engine) (seconds : Option Float) {hs : List Handoff}
    (hP : ∀ m o, .settle m o ∈ hs → ¬ P m) : e.PassesBy P (takenUpTo e seconds hs) :=
  (⟨rfl, rfl, rfl, fun _ => rfl⟩ : e.PassesBy P (opened e seconds)).trans (passesBy_each hP _)

/-- The turns of queues without entries, also when they are cut off. -/
theorem leftAlone_beatAll {e : Engine} (he : e.Resting) (finished : (e.entry n).isFinished = true)
    (fuel : Nat) : e.LeftAlone n (beatAll fuel e).2 ∧ ((beatAll fuel e).2.entry n).isFinished = true := by
  let D := Discipline.resting n e
  have turns : D.Safe e (Action.each (beatSafely fuel) e.registry.values) :=
    Discipline.safe_beats (Discipline.Resting.closing n e).emit (Discipline.Resting.pacing n e)
      (Discipline.Resting.runsEntries _) he
  exact (turns.kept ⟨.refl n e, finished⟩).cut

end Heartbeat

/-! ## The work and its handoff -/

namespace Engine

/-- The engines have the same files, and on both the entry `n` is done, with the same arguments and
objects. -/
structure SameEnd (n : EntryRef) (e e' : Engine) : Prop where
  files : e'.files = e.files
  arguments : (e'.entry n).arguments = (e.entry n).arguments
  objects : (e'.entry n).objects = (e.entry n).objects
  finished : (e.entry n).isFinished = true
  finishedToo : (e'.entry n).isFinished = true

/-- Engines abreast of each other end alike for a finished entry. -/
theorem Abreast.sameEnd {k : QueueRef} {n : EntryRef} {e e' : Engine} (h : e.Abreast k n e')
    (finished : (e.entry n).isFinished = true) : e.SameEnd n e' where
  files := h.see (f := Engine.files) fun _ _ _ => rfl
  arguments := h.seeEntry (f := Entry.arguments) (fun _ _ => rfl) n
  objects := h.seeEntry (f := Entry.objects) (fun _ _ => rfl) n
  finished := finished
  finishedToo := (h.seeEntry (f := Entry.isFinished) (fun _ _ => rfl) n).trans finished

/-- The end of an entry stays the same while it is left alone. -/
theorem SameEnd.later {n : EntryRef} {e e' e'' : Engine} (h : e.SameEnd n e') (alone : e'.LeftAlone n e'')
    (finished : (e''.entry n).isFinished = true) : e.SameEnd n e'' where
  files := alone.files.trans h.files
  arguments := alone.arguments.trans h.arguments
  objects := alone.objects.trans h.objects
  finished := h.finished
  finishedToo := finished

end Engine

namespace Background

variable {n : EntryRef} {job : Job} {z now x : Engine}

/-- Work on files that settles on an engine whose files nothing has touched does to them what it does at
once, and queues the outcome that it has at once. -/
theorem settleAt_onFiles (hj : job.isOnFiles = true) (hf : x.files = z.files) {i : Nat}
    (hw : x.inFlight[i]? = some ⟨n, job⟩) :
    ∃ settled o, settleAt i x = (.ok (), settled) ∧ settled.handoffs = x.handoffs ++ [.settle n o] ∧
      o = (perform z job).2 ∧ o.isOnFiles = true ∧ settled.files = (perform z job).1.files ∧
      settled.entries = x.entries := by
  obtain ⟨files, o, ho, performed⟩ := perform_onFiles hj z.files
  let rest : Engine := { x with inFlight := x.inFlight.eraseIdx i }
  have settles : settleAt i x = (.ok (), settleOne rest ⟨n, job⟩) := by
    simp only [settleAt, Action.change, hw, rest]
  have worked : settleOne rest ⟨n, job⟩ = { rest with files, handoffs := x.handoffs ++ [.settle n o] } := by
    rw [settleOne, performed rest hf]
  rw [performed z rfl, settles, worked]
  exact ⟨_, o, rfl, rfl, rfl, ho, rfl, rfl⟩

/-- The outcome of work on files is handed over: the files and the entry are then as if the work had been
done at once. -/
theorem sameEnd_handedOver {e' y : Engine} {o : Outcome} {before after : List Handoff} (ho : o.isOnFiles = true)
    (hy : y.Tidy) (split : y.handoffs = before ++ .settle n o :: after) (first : ∀ o', .settle n o' ∉ before)
    (seconds : Option Float) (untouched : e'.LeftAlone n y) (runs : ¬ Drops y n)
    (files : e'.files = now.files) (arguments : (e'.entry n).arguments = (now.entry n).arguments)
    (objects : o.leaves (e'.entry n).code.handler.behaviour (e'.entry n).objects = (now.entry n).objects)
    (finished : (now.entry n).isFinished = true) :
    now.SameEnd n (Heartbeat.takenUpTo y seconds (before ++ [.settle n o])) := by
  have mem : ∀ g ∈ before ++ [Handoff.settle n o], g ∈ y.handoffs := by
    intro g hg
    rw [split]
    simp only [List.mem_append, List.mem_cons, List.not_mem_nil, or_false] at hg ⊢
    exact hg.imp id .inl
  have passes : y.PassesBy (· = n) (Heartbeat.takenUpTo y seconds before) := by
    refine Heartbeat.passesBy_takenUpTo y seconds fun m o' hm => ?_
    rintro rfl
    exact first o' hm
  have alone := untouched.trans (passes.leftAlone rfl)
  have runs' : ¬ Drops (Heartbeat.takenUpTo y seconds before) n :=
    fun drops => runs ((drops_congr passes.queues (passes.entry rfl)).1 drops)
  have taken := (Heartbeat.taken_upTo hy seconds before fun g hg => mem g (List.mem_append_left _ hg)).2
  have there : n < (Heartbeat.takenUpTo y seconds before).entries.size :=
    Nat.lt_of_lt_of_le (hy.handoffs (mem _ (List.mem_append_right _ List.mem_cons_self))).1 taken.grows.entries
  obtain ⟨w, applied, wfiles, -, wsize, entry⟩ := apply_onFiles there ho
  obtain ⟨w', handed, handover⟩ := Heartbeat.takeOverSafely_settle (Heartbeat.takenUpTo y seconds before) n o
  have last : Heartbeat.takenUpTo y seconds (before ++ [.settle n o]) =
      w.changeEntry n ({ · with isFinished := true }) := by
    rw [Heartbeat.takenUpTo_concat hy seconds mem, handed]
    exact handover.eq_of_applied runs' applied
  have here := w.entry_changeEntry_self (wsize.symm ▸ there) ({ · with isFinished := true })
  rw [last]
  exact {
    files := wfiles.trans (alone.files.trans files)
    arguments := by rw [here, entry]; exact alone.arguments.trans arguments
    objects := by
      rw [here, entry]
      show o.leaves _ _ = _
      rw [alone.code, alone.objects, objects]
    finished
    finishedToo := congrArg Entry.isFinished here }

/-- The rest of a beat in which nothing is left to run keeps what the handoff has left. -/
theorem sameEnd_tick {y : Engine} {o : Outcome} {before after : List Handoff} {seconds : Option Float}
    (hy : y.Tidy) (split : y.handoffs = before ++ .settle n o :: after)
    (same : now.SameEnd n (Heartbeat.takenUpTo y seconds (before ++ [.settle n o])))
    (only : ∀ o', .settle n o' ∉ after) (rests : y.Resting) (fuel : Nat) :
    now.SameEnd n (Heartbeat.tick fuel seconds y).2 := by
  let z := Heartbeat.takenUpTo y seconds (before ++ [.settle n o])
  let w := Heartbeat.takenUpTo y seconds y.handoffs
  have parts : y.handoffs = (before ++ [.settle n o]) ++ after := by
    rw [split, List.append_assoc]
    rfl
  have passes : z.PassesBy (· = n) w := by
    have taken := (Heartbeat.taken_upTo hy seconds (before ++ [.settle n o]) fun g hg =>
      parts ▸ List.mem_append_left _ hg).1
    have later : w = (Action.each Heartbeat.takeOverSafely after z).2 := by
      show Heartbeat.takenUpTo y seconds y.handoffs = _
      rw [parts]
      exact congrArg Prod.snd (Action.each_append _ after taken)
    rw [later]
    refine Heartbeat.passesBy_each (fun m o' hm => ?_) z
    rintro rfl
    exact only o' hm
  have queues : y.PassesBy (fun _ => False) w := Heartbeat.passesBy_takenUpTo y seconds fun _ _ _ => id
  have done : (w.entry n).isFinished = true := by
    rw [passes.entry rfl]
    exact same.finishedToo
  obtain ⟨alone, finished⟩ := Heartbeat.leftAlone_beatAll (queues.resting rests) done fuel
  rw [Heartbeat.tick_eq hy]
  exact same.later ((passes.leftAlone rfl).trans alone) finished

end Background

/-! ## Both forms of a command -/

section Forms

variable {catalogue : Catalogue} {h : Handler} {command : String}

/-- The mark `~` in front of the word of a command that may be waited for makes the same command, for which
its queue waits. -/
theorem assemble_marked (unmarked : ∀ c rest, command.toList = c :: rest → c ≠ '^' ∧ c ≠ '~')
    (found : catalogue.find? (Text.lower command) = some h) (holdable : h.isHoldable = true)
    (script : Option ScriptRef) (words before : List String) (blocks : List (Block Line)) (number : Int) :
    let a := assemble catalogue script command words before blocks number
    let a' := assemble catalogue script ("~" ++ command) words before blocks number
    a'.command = { a.command with waits := true } ∧ a'.plain = a.plain ∧ a.command.waits = h.isAlwaysHeld ∧
      (a.command.handler = h ∨ a.command.handler = Handler.stub) := by
  have plain : Keyword.ofCommand command = ⟨Text.lower command, false, false⟩ := by
    unfold Keyword.ofCommand
    split
    · rename_i rest hc
      exact absurd rfl (unmarked _ rest hc).1
    · rename_i rest hc
      exact absurd rfl (unmarked _ rest hc).2
    · rfl
  have marked : Keyword.ofCommand ("~" ++ command) = ⟨Text.lower command, false, true⟩ := by
    have letters : ("~" ++ command).toList = '~' :: command.toList := by simp
    unfold Keyword.ofCommand
    rw [letters]
    simp
  unfold assemble
  rw [plain, marked]
  dsimp only
  rw [found]
  refine ⟨by simp [holdable], rfl, by simp, ?_⟩
  dsimp only [Option.getD_some]
  split
  · exact .inr rfl
  · exact .inl rfl

/-- The entries of a line with a file command, without the mark and with it. -/
theorem buildLine_marked (unmarked : ∀ c rest, command.toList = c :: rest → c ≠ '^' ∧ c ≠ '~')
    (found : catalogue.find? (Text.lower command) = some h)
    (hh : h ∈ [Builtin.fileRead.handler, Builtin.fileWrite.handler, Builtin.fileCopy.handler])
    (script : Option ScriptRef) (args : List String) (blocks : List (Block Line)) (number : Int) :
    let c := (buildLine catalogue script ⟨command, args, blocks, number⟩).1
    (buildLine catalogue script ⟨"~" ++ command, args, blocks, number⟩).1 = { c with waits := true } ∧
      c.waits = false ∧ (c.handler.behaviour.isOnFiles = true ∨ c.handler.behaviour = .stub) := by
  have known : h.isHoldable = true ∧ h.isAlwaysHeld = false ∧ h.behaviour.isOnFiles = true := by
    simp only [List.mem_cons, List.not_mem_nil, or_false] at hh
    rcases hh with rfl | rfl | rfl <;> exact ⟨rfl, rfl, rfl⟩
  obtain ⟨marked, plain, waits, handler⟩ := assemble_marked unmarked found known.1 script
    (args ++ Line.flattenBlocks blocks) args blocks number
  rw [known.2.1] at waits
  have behaviour : (assemble catalogue script command (args ++ Line.flattenBlocks blocks) args blocks
        number).command.handler.behaviour.isOnFiles = true ∨
      (assemble catalogue script command (args ++ Line.flattenBlocks blocks) args blocks
        number).command.handler.behaviour = .stub := by
    rcases handler with handler | handler <;> rw [handler]
    · exact .inl known.2.2
    · exact .inr rfl
  unfold buildLine
  dsimp only
  rw [marked, plain]
  split
  · exact ⟨rfl, waits, behaviour⟩
  · exact ⟨rfl, waits, behaviour⟩

end Forms

/-- What comes of a run in which the queue of the entry `n` waits for it, as seen from the end `now` of the run
in which it does not.  Either no work of the command is under way after it, and both runs end the same.  Or there
is: when it settles, on files that nothing has touched since, and its outcome is handed over in a beat, while the
queue of the entry is not stopped and nothing has touched the files and the entry in between, then all is as it
is at the end `now`; and so it is when the beat is over, if its queues have nothing left to run. -/
def Background.ComesTo (n : EntryRef) (now later : Engine) : Prop :=
  now.SameEnd n later ∧ later.inFlight = now.inFlight ∨
  ∃ job, later.inFlight = now.inFlight ++ [⟨n, job⟩] ∧
    ∀ x i, later.LeftAlone n x → x.inFlight[i]? = some ⟨n, job⟩ →
      ∃ settled o, Background.settleAt i x = (.ok (), settled) ∧
        settled.handoffs = x.handoffs ++ [.settle n o] ∧
        ∀ y before after seconds, y.Tidy → settled.LeftAlone n y → ¬ Background.Drops y n →
          y.handoffs = before ++ .settle n o :: after → (∀ o', .settle n o' ∉ before) →
            now.SameEnd n (Heartbeat.takenUpTo y seconds (before ++ [.settle n o])) ∧
              ((∀ o', .settle n o' ∉ after) → y.Resting →
                ∀ fuel, now.SameEnd n (Heartbeat.tick fuel seconds y).2)

section Runs

open Executor Paired

variable {e : Engine} {n : EntryRef} {fuel : Nat}

/-- Work was done at once on the engine `z`, and is under way on the engine `z'`. -/
theorem comesTo_work {k : QueueRef} {job : Job} {z z' y now later : Engine} (hj : job.isOnFiles = true)
    (abreast : z.Abreast k n z') (did : Background.DoneNow n job z y) (nowAlone : y.LeftAlone n now)
    (nowFlight : now.inFlight = y.inFlight) (finished : (now.entry n).isFinished = true)
    (laterAlone : z'.LeftAlone n later) (laterFlight : later.inFlight = z'.inFlight ++ [⟨n, job⟩]) :
    Background.ComesTo n now later := by
  have flight : later.inFlight = now.inFlight ++ [⟨n, job⟩] := by
    have same : z'.inFlight = z.inFlight := abreast.see (f := Engine.inFlight) fun _ _ _ => rfl
    rw [laterFlight, nowFlight, did.inFlight, ← same]
  refine .inr ⟨job, flight, fun x i untouched hwork => ?_⟩
  have since : z'.LeftAlone n x := laterAlone.trans untouched
  have files : x.files = z.files := since.files.trans (abreast.see (f := Engine.files) fun _ _ _ => rfl)
  obtain ⟨settled, o, settles, queued, outcome, ho, written, entries⟩ :=
    Background.settleAt_onFiles hj files hwork
  refine ⟨settled, o, settles, queued, fun y before after seconds hy alone runs split first => ?_⟩
  -- What the command has left on the entry when the outcome is handed over is what it had left before.
  have entry : settled.entry n = x.entry n := Engine.entry_congr entries n
  have marked : z'.entry n = (z.entry n).waiting true := abreast.entry_self
  have same : now.SameEnd n (Heartbeat.takenUpTo y seconds (before ++ [.settle n o])) := by
    refine Background.sameEnd_handedOver ho hy split first seconds alone runs ?_ ?_ ?_ finished
    · rw [written, nowAlone.files, did.files]
    · rw [entry, since.arguments, marked, nowAlone.arguments, did.entry]
      rfl
    · rw [entry, since.code, since.objects, marked, nowAlone.objects, did.entry, outcome]
      rfl
  exact ⟨same, Background.sameEnd_tick hy split same⟩

/-- An entry is executed, and the same entry with its queue waiting for it. -/
theorem comesTo_awaiting (he : e.Healthy) (hn : e.Live n)
    (hb : (e.entry n).code.handler.behaviour.isOnFiles = true ∨ (e.entry n).code.handler.behaviour = .stub)
    (hw : (e.entry n).code.waits = false)
    (hr : (execute (Drive.calls fuel) n e).1 ≠ .error .exhausted) :
    (execute (Drive.calls fuel) n (e.awaiting n)).1 ≠ .error .exhausted ∧
      Background.ComesTo n (execute (Drive.calls fuel) n e).2
        (execute (Drive.calls fuel) n (e.awaiting n)).2 := by
  let k := e.queues.size
  let act := Commands.execute (Drive.calls fuel) n
  have hO := owning_abreast k n
  have abreast : e.Abreast k n (e.awaiting n) := by
    refine .refl hn.1 fun {q} hq last => ?_
    rw [e.queue_of_size_le hq] at last
    cases last
  -- Two runs that end the same.
  have alike {y y' : Engine} (h : y.Abreast k n y') (finished : (y.entry n).isFinished = true) :
      Background.ComesTo n y y' :=
    .inl ⟨h.sameEnd finished, h.see (f := Engine.inFlight) fun _ _ _ => rfl⟩
  rw [execute_eq] at hr ⊢
  rw [execute_eq]
  obtain ⟨ran, y, y', within, finished, eq⟩ | ⟨y, y', -, eq⟩ |
    ⟨-, code, code', scope, scope', saveAs, x, x', within, seen, text, eq⟩ :=
      executeWith_twin hO.toActing (Drive.paired_calls hO fuel) (Drive.isolated_calls fuel) (Nat.le_refl _)
        (fun m hm => List.mem_singleton.1 hm ▸ hn) he hn abreast
  · rw [(eq act act).1, (eq act act).2]
    exact ⟨nofun, alike within.1 finished⟩
  · rw [(eq act act).1] at hr
    exact absurd rfl hr
  rw [(eq act act).1] at hr ⊢
  rw [(eq act act).2]
  have command := within.2.2.code hn.1
  have unheld (hs : (e.entry n).code.handler.behaviour = .stub) : (e.entry n).code.handler.isHoldable = false := by
    rw [Bool.eq_false_iff]
    intro hold
    have may := (he.code hn.1).handler.1 hold
    rw [hs] at may
    cases may
  have parts : Commands.Files.Parts k n (act x) (act x') := by
    refine Commands.Files.parts_execute within.1 (by rw [command, hw]) (Drive.calls fuel) ?_
    rw [command]
    exact hb.imp id fun hs => ⟨hs, unheld hs⟩
  have concluded : (conclude n code scope saveAs (act x)).1 ≠ .error .exhausted :=
    fun cut => hr (congrArg (Except.map Prod.fst) cut)
  have complete : (act x).1 ≠ .error .exhausted := by
    intro cut
    rcases hx : act x with ⟨r, w⟩
    rw [hx] at cut concluded
    rw [show r = .error .exhausted from cut] at concluded
    exact concluded rfl
  obtain ⟨nowAlone, nowFlight, finishes⟩ := conclude_leftAlone (n := n) complete code scope saveAs
  obtain ⟨ends, done⟩ | ⟨job, z, z', hj, together, -, did, under⟩ := parts
  · obtain ⟨same, -, abreast'⟩ := (ends_conclude hO.toActing (m := n) ends text seen saveAs).eq
    refine ⟨fun cut => hr ?_, alike (abreast' concluded) (finishes (ends.eq.2.2 complete).size done)⟩
    rw [← cut]
    exact congrArg (Except.map Prod.fst) same.symm
  · rw [under]
    obtain ⟨laterAlone, laterFlight, -⟩ := conclude_leftAlone (n := n)
      (r := (.ok (), { z' with inFlight := z'.inFlight ++ [⟨n, job⟩] })) nofun code' scope' saveAs
    have ended : ((act x).2.entry n).isFinished = true := congrArg Entry.isFinished did.entry
    have size : n < (act x).2.entries.size := by
      refine Nat.lt_of_not_le fun none => ?_
      rw [(act x).2.entry_of_size_le none] at ended
      cases ended
    have launched : z'.LeftAlone n { z' with inFlight := z'.inFlight ++ [⟨n, job⟩] } := .of_tables rfl rfl
    exact ⟨nofun, comesTo_work hj together did nowAlone nowFlight (finishes size fun _ => .inl ended)
      (launched.trans laterAlone) laterFlight⟩

/-- A file command leaves the same whether it does its work at once or is marked with `~`, so that its queue
waits for it and the work is done in the background: the same files, also when a step fails midway, and the same
arguments and objects on the entry, which is done. -/
theorem background_files_agree {config : Config} {catalogue : Catalogue} {h : Handler} {command : String}
    {script : Option ScriptRef} {args : List String} {blocks : List (Block Line)} {number : Int}
    (he : Reachable (Host.create config []) e ∨ e.Healthy) (hn : e.Live n)
    (unmarked : ∀ c rest, command.toList = c :: rest → c ≠ '^' ∧ c ≠ '~')
    (found : catalogue.find? (Text.lower command) = some h)
    (hh : h ∈ [Builtin.fileRead.handler, Builtin.fileWrite.handler, Builtin.fileCopy.handler])
    (hc : (e.entry n).code = (buildLine catalogue script ⟨command, args, blocks, number⟩).1)
    (hr : (execute (Drive.calls fuel) n e).1 ≠ .error .exhausted) :
    let marked := e.changeEntry n fun x =>
      { x with code := (buildLine catalogue script ⟨"~" ++ command, args, blocks, number⟩).1 }
    (execute (Drive.calls fuel) n marked).1 ≠ .error .exhausted ∧
      Background.ComesTo n (execute (Drive.calls fuel) n e).2 (execute (Drive.calls fuel) n marked).2 := by
  obtain ⟨same, waits, behaviour⟩ := buildLine_marked unmarked found hh script args blocks number
  have healthy : e.Healthy := he.elim (fun he => he.wakeful.healthy he.tidy) id
  have awaiting : e.awaiting n = e.changeEntry n fun x =>
      { x with code := (buildLine catalogue script ⟨"~" ++ command, args, blocks, number⟩).1 } := by
    refine e.changeEntry_congr ?_
    show (e.entry n).waiting true = _
    rw [same, ← hc]
    rfl
  intro marked
  have agree := comesTo_awaiting healthy hn (by rw [hc]; exact behaviour) (by rw [hc]; exact waits) hr
  rwa [awaiting] at agree

/-- A file that is written into a folder that is not there yet. -/
theorem background_files_agree_write :
    let host := Host.create { allowFileWrite := true } []
    let code (command : String) :=
      (buildLine host.catalogue none ⟨command, ["path:a/b", "data:c"], [], 1⟩).1
    let e := host.withEntry { code := code "filewrite" }
    let marked := e.changeEntry 0 ({ · with code := code ("~" ++ "filewrite") })
    let now := (execute (Drive.calls 2) 0 e).2
    let later := (execute (Drive.calls 2) 0 marked).2
    let settled := (Background.settleAt 0 later).2
    now.files.nodes = [(["a"], .folder), (["a", "b"], .file [99])] ∧ later.files.nodes = [] ∧
      now.SameEnd 0 (Heartbeat.tick 2 none settled).2 := by
  intro host code e marked now later settled
  have first : host.Healthy := (Host.create_wakeful _).healthy (Host.create_isNew _ []).tidy
  have made (command : String) (plain : ((code command).branches.getD []).isEmpty = true) :
      (host.withEntry { code := code command }).Healthy ∧ (host.withEntry { code := code command }).Live 0 := by
    have created := (Discipline.gives_create Discipline.Healthy.blocks (first.catalogue.buildLine none
      ⟨command, ["path:a/b", "data:c"], [], 1⟩)).run host first (Discipline.healthy.refl host)
    rw [Entries.create_eq_of_plain (List.isEmpty_iff.1 plain)] at created
    exact ⟨created.1.1, created.2⟩
  obtain ⟨plain, plain', ended, ⟨under, under'⟩, ⟨empty, idle, apart⟩, written, unwritten⟩ :
      ((code "filewrite").branches.getD []).isEmpty = true ∧
      ((code ("~" ++ "filewrite")).branches.getD []).isEmpty = true ∧
      (execute (Drive.calls 2) 0 e).1.toBool = true ∧
      (now.inFlight.length = 0 ∧ later.inFlight.length = 1) ∧
      (settled.registry.isEmpty = true ∧ later.handoffs.length = 0 ∧ settled.residingQueue 0 = none) ∧
      now.files.nodes = [(["a"], .folder), (["a", "b"], .file [99])] ∧ later.files.nodes = [] := by decide +kernel
  obtain ⟨healthy, live⟩ := made "filewrite" plain
  have here : (e.entry 0).code = code "filewrite" := by
    rw [host.entry_withEntry]
    rfl
  have unmarked : ∀ c rest, "filewrite".toList = c :: rest → c ≠ '^' ∧ c ≠ '~' := by
    rintro c rest letters
    obtain ⟨rfl, -⟩ := List.cons.inj letters
    decide
  have ran : (execute (Drive.calls 2) 0 e).1 ≠ .error .exhausted := by
    intro cut
    rw [cut] at ended
    cases ended
  have given : Reachable (Host.create {} []) e ∨ e.Healthy := .inr healthy
  have agree := background_files_agree given live unmarked rfl (by simp) here ran
  have tidy : later.Tidy := by
    obtain ⟨before, live⟩ := made ("~" ++ "filewrite") plain'
    exact before.tidy.execute live 2 agree.1
  refine ⟨written, unwritten, ?_⟩
  obtain ⟨-, flight⟩ | ⟨job, flight, comes⟩ := agree.2
  · have none : later.inFlight.length = 0 := (congrArg List.length flight).trans under
    cases under'.symm.trans none
  have work : later.inFlight[0]? = some ⟨0, job⟩ := by
    rw [flight, List.length_eq_zero_iff.1 under]
    rfl
  obtain ⟨y, o, settles, queued, beats⟩ := comes later 0 (.refl 0 later) work
  obtain rfl : settled = y := congrArg Prod.snd settles
  rw [List.length_eq_zero_iff.1 idle] at queued
  refine (beats settled [] [] none (tidy.settleAt 0) (.refl 0 settled) ?_ queued fun _ => List.not_mem_nil).2
    (fun _ => List.not_mem_nil) ?_ 2
  · rintro ⟨q, runs, -⟩
    cases apart.symm.trans runs
  · intro q hq
    rw [List.isEmpty_iff.1 empty] at hq
    cases hq

end Runs

end QueueScript
