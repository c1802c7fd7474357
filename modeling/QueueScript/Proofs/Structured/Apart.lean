import QueueScript.Proofs.Healthy
import QueueScript.Proofs.Structured.Interpreter

/-!
# What one entry leaves alone

A leaf, and a condition or a loop up to the moment when it puts its block on the queue, keeps notes on
its entry and changes definitions.  Procedures that its tags call run on queues of their own.  So all
other entries and all queues that there were stay as they are (`Engine.Apart`).  This is a discipline,
and running an entry is taken apart along it: either the entry never gets to its command, or its
command runs on an engine that differs from the first one only by such things.
-/

namespace QueueScript

namespace Engine

/-- The engine has a procedure. -/
def HasProcedure (e : Engine) : Prop :=
  ∃ s, (e.script s).kind = .procedure

/-- The second engine has all queues of the first one as they were, and all entries too, apart from
notes on the entries `X`. -/
structure Apart (X : List EntryRef) (e e' : Engine) : Prop extends Keeps e e', Grows e e' where
  queue {p : QueueRef} : p < e.queues.size → e'.queue p = e.queue p
  entry {m : EntryRef} : m < e.entries.size → m ∉ X → e'.entry m = e.entry m
  residing {m : EntryRef} : m < e.entries.size → (e'.entry m).residing = (e.entry m).residing
  owner {m : EntryRef} : m < e.entries.size → (e'.entry m).owner = (e.entry m).owner
  loop {m : EntryRef} : m < e.entries.size → (e'.entry m).loop = (e.entry m).loop
  registry : e'.registry = e.registry
  handoffs : e'.handoffs = e.handoffs
  kind (s : Nat) : (e'.script s).kind = (e.script s).kind
  journal : e.Continues e.queues.size e'

namespace Apart

variable {X : List EntryRef} {e e' e'' : Engine}

/-- Nothing is done, apart from anything. -/
theorem refl (X : List EntryRef) (e : Engine) : e.Apart X e where
  toKeeps := .refl e
  toGrows := .refl e
  queue _ := rfl
  entry _ _ := rfl
  residing _ := rfl
  owner _ := rfl
  loop _ := rfl
  registry := rfl
  handoffs := rfl
  kind _ := rfl
  journal := .of_same rfl

/-- What is done apart over and over is done apart. -/
theorem trans (h : e.Apart X e') (h' : e'.Apart X e'') : e.Apart X e'' := by
  have size {m : EntryRef} (hm : m < e.entries.size) : m < e'.entries.size :=
    Nat.lt_of_lt_of_le hm h.size
  exact {
    toKeeps := h.toKeeps.trans h'.toKeeps
    toGrows := h.toGrows.trans h'.toGrows
    queue := fun hp => (h'.queue (Nat.lt_of_lt_of_le hp h.queues)).trans (h.queue hp)
    entry := fun hm hx => (h'.entry (size hm) hx).trans (h.entry hm hx)
    residing := fun hm => (h'.residing (size hm)).trans (h.residing hm)
    owner := fun hm => (h'.owner (size hm)).trans (h.owner hm)
    loop := fun hm => (h'.loop (size hm)).trans (h.loop hm)
    registry := h'.registry.trans h.registry
    handoffs := h'.handoffs.trans h.handoffs
    kind := fun s => (h'.kind s).trans (h.kind s)
    journal := h.journal.trans h'.journal h.queues }

/-- What is done apart from fewer entries is done apart from more. -/
theorem mono {Y : List EntryRef} (h : e.Apart X e') (hXY : ∀ m ∈ X, m ∈ Y) : e.Apart Y e' :=
  { h with entry := fun hm hy => h.entry hm fun hx => hy (hXY _ hx) }

/-- No procedure comes up apart. -/
theorem hasProcedure (h : e.Apart X e') (hp : e'.HasProcedure) : e.HasProcedure := by
  obtain ⟨s, hs⟩ := hp
  exact ⟨s, (h.kind s).symm.trans hs⟩

/-- The same queues and entries, and nothing else that is looked at. -/
theorem of_tables (hq : e'.queues = e.queues) (hn : e'.entries = e.entries)
    (hs : e'.scripts = e.scripts) (hc : e'.catalogue = e.catalogue)
    (hr : e'.registry = e.registry) (hh : e'.handoffs = e.handoffs)
    (hj : e'.journal = e.journal) : e.Apart X e' := by
  have queue (p : QueueRef) : e'.queue p = e.queue p := by
    unfold Engine.queue
    rw [hq]
  have entry (m : EntryRef) : e'.entry m = e.entry m := by
    unfold Engine.entry
    rw [hn]
  exact {
    toKeeps := keeps_of_tables hn hc
    toGrows := grows_of_tables hq hn hs
    queue := fun _ => queue _
    entry := fun _ _ => entry _
    residing := fun _ => by rw [entry]
    owner := fun _ => by rw [entry]
    loop := fun _ => by rw [entry]
    registry := hr
    handoffs := hh
    kind := fun s => by
      unfold Engine.script
      rw [hs]
    journal := .of_same hj }

/-- A report is made apart. -/
theorem emit (e : Engine) (event : Event) (s : Scope) : e.Apart X (e.emit event s) := by
  obtain ⟨events, h⟩ := e.emit_eq event s
  rw [h]
  exact of_tables rfl rfl rfl rfl rfl rfl rfl

/-- A note on one of the entries `X`. -/
theorem changeEntry {n : EntryRef} (hn : n ∈ X) {f : Entry → Entry}
    (hs : Entry.Steadies f) (hf : ∀ x, x.isFinished = true → (f x).isFinished = true)
    (hr : ∀ x, (f x).residing = x.residing) (ho : ∀ x, (f x).owner = x.owner)
    (hl : ∀ x, (f x).loop = x.loop) (e : Engine) : e.Apart X (e.changeEntry n f) where
  toKeeps := (e.unmoved_changeEntry n hs hf).toKeeps
  toGrows := e.grows_changeEntry n hs
  queue _ := rfl
  entry {m} _ hm := by
    refine e.entry_changeEntry_of_ne ?_ f
    rintro rfl
    exact hm hn
  residing _ := e.entry_changeEntry_keep hr n _
  owner _ := e.entry_changeEntry_keep ho n _
  loop _ := e.entry_changeEntry_keep hl n _
  registry := rfl
  handoffs := rfl
  kind _ := rfl
  journal := .of_same rfl

end Apart

end Engine

/-! ## The discipline -/

/-- Procedures leave alone all queues and entries that there were. -/
def Calls.Isolated (calls : Calls) : Prop :=
  ∀ (e : Engine) (name : String) (args : List Value), e.Healthy →
    (calls.procedure name args e).1 ≠ .error .exhausted →
      (calls.procedure name args e).2.Healthy ∧ e.Apart [] (calls.procedure name args e).2

/-- Only engines with procedures are cut off. -/
def Calls.Prompt (calls : Calls) : Prop :=
  ∀ (e : Engine) (name : String) (args : List Value),
    (calls.procedure name args e).1 = .error .exhausted → e.HasProcedure

namespace Discipline

/-- Healthy engines that only get notes on the entry `n`.  If there are no procedures, a run is never
cut off: `P` says that there are some. -/
def apart (n : EntryRef) (P : Prop) : Discipline where
  inv e := e.Healthy ∧ (e.HasProcedure → P)
  le e e' := e.Apart [n] e'
  cut _ := P
  own e m := m = n ∧ e.Live n
  mine _ _ := True
  fresh _ _ := True
  placed e _ m := m = n ∧ e.Live n
  fits _ := True
  cared e m := m < e.entries.size ∧ (e.entry m).isFinished = true
  marked e m := m < e.entries.size ∧ (e.entry m).isFinished = true
  refl := .refl [n]
  trans h h' := h.trans h'
  own_mono h hm := ⟨hm.1, h.live hm.2⟩
  mine_mono _ _ := trivial
  fresh_mono _ _ := trivial
  placed_mono h hm := ⟨hm.1, h.live hm.2⟩
  placed_own h := h
  cared_mono h hm := ⟨Nat.lt_of_lt_of_le hm.1 h.size, h.marked hm.1 hm.2⟩
  marked_mono h hm := ⟨Nat.lt_of_lt_of_le hm.1 h.size, h.marked hm.1 hm.2⟩
  marked_cared h := h

namespace Apart

variable {n : EntryRef} {P : Prop} {e e' : Engine}

/-- A tidy step apart from the entry is a step. -/
theorem step (he : (apart n P).inv e) (ht : e'.Tidy) (ha : e.Apart [n] e') :
    (apart n P).Step e e' :=
  ⟨⟨he.1.keeps ha.toKeeps ht, fun hp => he.2 (ha.hasProcedure hp)⟩, ha⟩

/-- What every command does is done apart. -/
theorem bookkeeping (n : EntryRef) (P : Prop) : (apart n P).Bookkeeping where
  emit event s he := by
    refine step he ?_ (.emit _ event s)
    exact (Tidy.emit (P := fun _ _ => True) event s ⟨he.1.tidy, trivial⟩).1.1
  jot {e m f} he hm hf := by
    obtain ⟨rfl, live⟩ := hm
    refine step he ?_ (.changeEntry (List.mem_singleton_self m) hf.steadies (fun x hx => ?_) (fun x => ?_)
      (fun x => ?_) (fun x => ?_) e)
    · exact (Tidy.bookkeeping (P := fun _ _ => True).jot ⟨he.1.tidy, trivial⟩ live hf).1.1
    all_goals obtain ⟨_, _, _, h⟩ := hf x; rw [h]
    exact hx
  finish {e m} he hm := by
    obtain ⟨rfl, live⟩ := hm
    have noted : e.Apart [m] (e.changeEntry m ({ · with isFinished := true })) :=
      .changeEntry (f := ({ · with isFinished := true })) (List.mem_singleton_self m)
        ⟨fun _ => rfl, fun _ => rfl⟩ (fun _ _ => rfl) (fun _ => rfl) (fun _ => rfl) (fun _ => rfl) e
    refine ⟨step he ?_ noted, ?_, ?_⟩
    · exact (Tidy.bookkeeping (P := fun _ _ => True).finish ⟨he.1.tidy, trivial⟩ live).1.1.1
    · rw [Engine.size_changeEntry]
      exact live.1
    · exact congrArg Entry.isFinished (e.entry_changeEntry_self live.1 _)
  memory f he _ := by
    refine step he ?_ (.of_tables rfl rfl rfl rfl rfl rfl rfl)
    exact he.1.tidy.aside ⟨rfl, rfl, fun _ h => .inl h, rfl, rfl, rfl, fun _ => rfl⟩
  residing _ _ _ := trivial
  eased_mono h hm he := by
    obtain ⟨rfl, live⟩ := hm
    refine he.imp (fun hc => (apart _ P).cared_mono h hc) fun hh => ?_
    rw [h.code live.1]
    exact hh

/-- Isolated procedures work apart. -/
theorem procedureSafe {calls : Calls} (hc : calls.Isolated) (hp : calls.Prompt ∨ P) :
    (apart n P).ProcedureSafe calls := by
  refine fun e₀ name args => ⟨fun e he _ => ?_⟩
  have hdone := hc e name args he.1
  have hcut (h : (calls.procedure name args e).1 = .error .exhausted) : P :=
    hp.elim (fun hp => he.2 (hp e name args h)) id
  generalize calls.procedure name args e = r at hcut hdone
  obtain ⟨r, e'⟩ := r
  have kept (hr : r ≠ .error .exhausted) : (apart n P).Step e e' := by
    obtain ⟨hh, ha⟩ := hdone hr
    exact step he hh.tidy (ha.mono fun _ h => absurd h List.not_mem_nil)
  cases r with
  | ok v => exact ⟨kept nofun, trivial⟩
  | error f =>
    by_cases hf : f = .exhausted
    · rw [hf] at hcut ⊢
      exact hcut rfl
    · exact leaves_error hf (kept fun h => hf (by cases h; rfl))

end Apart

end Discipline

/-! ## Running an entry -/

namespace Executor

variable {α : Type} {calls : Calls} {n : EntryRef} {e : Engine}

/-- What is left of a run when nobody asks what the command gave. -/
def ran (r : Except Failure (Bool × Option α) × Engine) : Except Failure Bool × Engine :=
  (r.1.map Prod.fst, r.2)

/-- The engine when the failure of an entry was reported. -/
def failed (n : EntryRef) (code : Compiled) (scope : Scope) (f : Failure) (e : Engine) : Engine :=
  (e.emit (.error (failureText code f) scope (some f)) scope).changeEntry n
    ({ · with isFinished := true })

/-- The end of a run whose command came to `r`. -/
def conclude (n : EntryRef) (code : Compiled) (scope : Scope) (saveAs : Option String) :
    Except Failure α × Engine → Except Failure (Bool × Option α) × Engine
  | (.ok a, e) => (.ok (true, some a), (leave n saveAs e).2)
  | (.error .exhausted, e) => (.error .exhausted, e)
  | (.error f, e) => (.ok (false, none), failed n code scope f e)

/-- Leaving an entry does not fail. -/
theorem leave_ok (n : EntryRef) (saveAs : Option String) (e : Engine) :
    (leave n saveAs e).1 = .ok () := by
  have rest (e : Engine) : ((do
      if !(← Action.entry n).code.handler.isHoldable then
        Entries.finish n : Action Unit) e).1 = .ok () := by
    show ((if !(e.entry n).code.handler.isHoldable then Entries.finish n else pure () :
      Action Unit) e).1 = _
    split
    · rfl
    · rfl
  cases saveAs with
  | none => exact rest e
  | some name =>
    obtain ⟨x, saved⟩ : ∃ x, save n name e = (.ok (), x) := by
      cases hr : e.residingQueue n with
      | none => exact ⟨e, save_of_none hr⟩
      | some q => exact ⟨_, save_of_some hr⟩
    exact (congrArg Prod.fst (Action.bind_ok saved)).trans (rest x)

/-- The command of an entry that is not skipped comes between two groups of steps. -/
theorem attempt_eq (calls : Calls) (n : EntryRef) (scope : Scope) :
    attempt calls n scope = (do
      match ← enter calls n scope with
      | none => pure ()
      | some saveAs =>
        Commands.execute calls n
        leave n saveAs) := by
  unfold attempt enter perform
  simp only [bind_assoc]
  refine congrArg _ (funext fun x => congrArg _ (funext fun p => ?_))
  cases p with
  | skip outcome =>
    simp only [bind_assoc, pure_bind]
    rfl
  | run saveAs =>
    simp only [bind_assoc, pure_bind]
    rfl

/-- The engine when an entry was announced. -/
def announced (n : EntryRef) (e : Engine) : Engine :=
  let x := e.changeEntry n ({ · with context := e.residingQueue n })
  x.emit (.executing (x.entry n).code.render (x.scope n)) (x.scope n)

/-- The command that an entry is announced as. -/
def announcedCode (n : EntryRef) (e : Engine) : Compiled :=
  ((e.changeEntry n ({ · with context := e.residingQueue n })).entry n).code

/-- Where an entry that is announced stands. -/
def announcedScope (n : EntryRef) (e : Engine) : Scope :=
  (e.changeEntry n ({ · with context := e.residingQueue n })).scope n

/-- A run that is refused ends at once. -/
theorem executeWith_of_refused (hr : isRefused (announced n e) n = true) (act : Action α) :
    executeWith calls n act e = (.ok (false, none),
      ((announced n e).emit (.error ("The command '" ++ (announcedCode n e).keyword ++
        "' cannot be used in a procedure.") (announcedScope n e) none)
          (announcedScope n e)).changeEntry n ({ · with isFinished := true })) := by
  show (if isRefused (announced n e) n then _ else _ : Action _) (announced n e) = _
  rw [hr, if_pos rfl]
  rfl

/-- A run that is not refused ends before its command, or gets to its command. -/
theorem executeWith_of_passes (hr : isRefused (announced n e) n = false) (act : Action α) :
    executeWith calls n act e =
      match enter calls n (announcedScope n e) (announced n e) with
      | (.ok none, x) => (.ok (true, none), x)
      | (.ok (some saveAs), x) =>
        conclude n (announcedCode n e) (announcedScope n e) saveAs (act x)
      | (.error .exhausted, x) => (.error .exhausted, x)
      | (.error f, x) => (.ok (false, none), failed n (announcedCode n e) (announcedScope n e) f x) := by
  show (if isRefused (announced n e) n then _ else Action.orElse
    (enter calls n (announcedScope n e) >>= proceed n act) _ : Action (Bool × Option α)) (announced n e) = _
  rw [hr, if_neg Bool.false_ne_true]
  match henter : enter calls n (announcedScope n e) (announced n e) with
  | (.ok none, x) => exact Action.orElse_ok (Action.bind_ok henter)
  | (.error f, x) =>
    cases f with
    | exhausted => exact Action.orElse_exhausted (Action.bind_error henter)
    | _ => exact Action.orElse_error nofun (Action.bind_error henter)
  | (.ok (some saveAs), x) =>
    have hgo : (enter calls n (announcedScope n e) >>= proceed n act) (announced n e) =
        (act >>= fun a => leave n saveAs >>= fun _ => pure (true, some a)) x :=
      Action.bind_ok henter
    show _ = conclude n (announcedCode n e) (announcedScope n e) saveAs (act x)
    match hact : act x with
    | (.ok a, y) =>
      have hleave : leave n saveAs y = (.ok (), (leave n saveAs y).2) :=
        Prod.ext (leave_ok n saveAs y) rfl
      exact Action.orElse_ok (hgo.trans ((Action.bind_ok hact).trans (Action.bind_ok hleave)))
    | (.error f, y) =>
      have hfail := hgo.trans (Action.bind_error hact)
      cases f with
      | exhausted => exact Action.orElse_exhausted hfail
      | _ => exact Action.orElse_error nofun hfail

/-- A run is refused, or it ends before its command, or it gets to its command.  This does not depend
on the command. -/
theorem executeWith_cases (calls : Calls) (n : EntryRef) (e : Engine) :
    ∃ code scope,
      (∃ event, ∀ {α : Type} (act : Action α), executeWith calls n act e =
        (.ok (false, none), ((announced n e).emit event scope).changeEntry n
          ({ · with isFinished := true }))) ∨
      ∀ {α : Type} (act : Action α), executeWith calls n act e =
        match enter calls n scope (announced n e) with
        | (.ok none, x) => (.ok (true, none), x)
        | (.ok (some saveAs), x) => conclude n code scope saveAs (act x)
        | (.error .exhausted, x) => (.error .exhausted, x)
        | (.error f, x) => (.ok (false, none), failed n code scope f x) := by
  refine ⟨announcedCode n e, announcedScope n e, ?_⟩
  cases hr : isRefused (announced n e) n with
  | true => exact .inl ⟨_, fun act => executeWith_of_refused hr act⟩
  | false => exact .inr fun act => executeWith_of_passes hr act

/-- An entry is run with its own command. -/
theorem execute_eq (calls : Calls) (n : EntryRef) (e : Engine) :
    execute calls n e = ran (executeWith calls n (Commands.execute calls n) e) := by
  let z := e.changeEntry n ({ · with context := e.residingQueue n })
  let scope := z.scope n
  show (if isRefused (announced n e) n then _ else Action.orElse
      (attempt calls n scope >>= fun _ => pure true) _ : Action Bool) (announced n e) =
    ran ((if isRefused (announced n e) n then _ else Action.orElse
      (enter calls n scope >>= proceed n (Commands.execute calls n)) _ :
        Action (Bool × Option Unit)) (announced n e))
  cases hr : isRefused (announced n e) n with
  | true =>
    rw [if_pos rfl, if_pos rfl]
    rfl
  | false =>
    rw [if_neg Bool.false_ne_true, if_neg Bool.false_ne_true]
    have inner : (attempt calls n scope >>= fun _ => pure true) =
        (enter calls n scope >>= proceed n (Commands.execute calls n)) >>= fun r => pure r.1 := by
      rw [attempt_eq]
      simp only [bind_assoc]
      refine congrArg _ (funext fun r => ?_)
      cases r with
      | none => rfl
      | some saveAs => simp only [proceed, bind_assoc, pure_bind]
    rw [inner]
    rcases hgo : (enter calls n scope >>= proceed n (Commands.execute calls n)) (announced n e) with
      ⟨f | r, x⟩
    · by_cases hf : f = .exhausted
      · rw [hf] at hgo
        rw [Action.orElse_exhausted hgo, Action.orElse_exhausted (Action.bind_error hgo)]
        rfl
      · rw [Action.orElse_error hf hgo, Action.orElse_error hf (Action.bind_error hgo)]
        rfl
    · have hfirst : ((enter calls n scope >>= proceed n (Commands.execute calls n)) >>=
          fun r => pure r.1 : Action Bool) (announced n e) = (.ok r.1, x) := Action.bind_ok hgo
      rw [Action.orElse_ok hgo, Action.orElse_ok hfirst]
      rfl

end Executor

namespace Discipline

variable {D : Discipline} {calls : Calls} {n : EntryRef} {e₀ e : Engine}

/-- An entry that is not entered is marked as finished. -/
theorem gives_enter (hb : D.Noting) (hp : D.ProcedureSafe calls) (hn : D.own e₀ n)
    (scope : Scope) :
    D.Gives e₀ (Executor.enter calls n scope) fun r e => r = none → D.marked e n := by
  refine safe_bind (safe_entry n) fun x => safe_bind (safe_prelude hb hp hn none _) fun p => ?_
  split
  · refine safe_bind (safe_trace hb _ _) fun _ => ?_
    exact gives_bind (gives_mark hb hn) fun _ _ _ _ hm => gives_pure fun _ _ hl _ =>
      D.marked_mono hl hm
  · refine safe_bind (safe_resolveArguments hb hp hn) fun _ => ?_
    exact safe_bind (safe_parse hb hp hn) fun _ => gives_pure fun _ _ _ => nofun

/-- The announcement of a command is a step. -/
theorem step_announced (hb : D.Noting) (he : D.inv e) (hn : D.own e n) :
    D.Step e (Executor.announced n e) := by
  have noted := hb.jot he hn (f := ({ · with context := e.residingQueue n }))
    fun x => ⟨_, _, _, rfl⟩
  exact noted.trans (hb.emit _ _ noted.1)

/-- A command that has failed is reported and its entry marked. -/
theorem step_failed (hb : D.Noting) (he : D.inv e) (hn : D.own e n) (event : Event)
    (s : Scope) :
    D.Step e ((e.emit event s).changeEntry n ({ · with isFinished := true })) ∧
      D.marked ((e.emit event s).changeEntry n ({ · with isFinished := true })) n := by
  have emitted := hb.emit event s he
  obtain ⟨finished, hm⟩ := hb.finish emitted.1 (D.own_mono emitted.2 hn)
  exact ⟨emitted.trans finished, hm⟩

/-- A run ends before its command, or is cut off, or gets to its command.  Whatever the command is, it
is run on the same engine. -/
theorem executeWith_split (hb : D.Noting) (hp : D.ProcedureSafe calls) (he : D.inv e)
    (hn : D.own e n) :
    (∃ ran e', D.Step e e' ∧ D.marked e' n ∧ ∀ {α : Type} (act : Action α),
      Executor.executeWith calls n act e = (.ok (ran, none), e')) ∨
    (∃ e', D.cut e' ∧ ∀ {α : Type} (act : Action α),
      Executor.executeWith calls n act e = (.error .exhausted, e')) ∨
    ∃ code scope saveAs x, D.Step e x ∧
      Executor.enter calls n scope (Executor.announced n e) = (.ok (some saveAs), x) ∧
      ∀ {α : Type} (act : Action α),
        Executor.executeWith calls n act e = Executor.conclude n code scope saveAs (act x) := by
  have hz := step_announced hb he hn
  have hnz := D.own_mono hz.2 hn
  obtain ⟨code, scope, ⟨event, h⟩ | h⟩ := Executor.executeWith_cases calls n e
  · obtain ⟨hs, hm⟩ := step_failed hb hz.1 hnz event scope
    exact .inl ⟨false, _, hz.trans hs, hm, h⟩
  · have henter := (gives_enter hb hp hnz scope).run _ hz.1 (D.refl _)
    match hr : Executor.enter calls n scope (Executor.announced n e) with
    | (.ok none, x) =>
      rw [hr] at henter
      refine .inl ⟨true, x, hz.trans henter.1, henter.2 rfl, fun act => ?_⟩
      rw [h act, hr]
    | (.ok (some saveAs), x) =>
      rw [hr] at henter
      refine .inr (.inr ⟨code, scope, saveAs, x, hz.trans henter.1, hr, fun act => ?_⟩)
      rw [h act, hr]
    | (.error f, x) =>
      rw [hr] at henter
      by_cases hf : f = .exhausted
      · rw [hf] at hr henter
        refine .inr (.inl ⟨x, henter, fun act => ?_⟩)
        rw [h act, hr]
      · have hx : D.Step (Executor.announced n e) x := by
          cases f with
          | exhausted => exact absurd rfl hf
          | _ => exact henter
        obtain ⟨hs, hm⟩ := step_failed hb hx.1 (D.own_mono hx.2 hnz)
          (.error (Executor.failureText code f) scope (some f)) scope
        refine .inl ⟨false, _, hz.trans (hx.trans hs), hm, fun act => ?_⟩
        rw [h act, hr]
        cases f with
        | exhausted => exact absurd rfl hf
        | _ => rfl

/-! ## Commands that run on an engine apart -/

variable {α β : Type}

/-- Leaving an entry keeps the discipline. -/
theorem safe_leave (hb : D.Bookkeeping) (hn : D.own e₀ n) (saveAs : Option String) :
    D.Safe e₀ (Executor.leave n saveAs) := by
  have finish : D.Safe e₀ (do
      if !(← Action.entry n).code.handler.isHoldable then
        Entries.finish n) :=
    safe_bind (safe_entry n) fun _ => safe_ite (gives_finishEntry hb hn).safe (safe_pure _)
  unfold Executor.leave
  dsimp only
  split
  · exact safe_bind (safe_save hb hn _) fun _ => finish
  · exact finish

/-- The end of a run keeps a discipline if the command does. -/
theorem leaves_conclude (hb : D.Bookkeeping) (hn : D.own e n) (code : Compiled) (scope : Scope)
    (saveAs : Option String) {r : Except Failure α × Engine} (hr : D.Leaves e (fun _ _ => True) r) :
    D.Leaves e (fun _ _ => True) (Executor.conclude n code scope saveAs r) := by
  obtain ⟨r, x⟩ := r
  cases r with
  | ok a =>
    have left := (safe_leave hb (D.own_mono hr.1.2 hn) saveAs).run x hr.1.1 (D.refl x)
    have ok := Executor.leave_ok n saveAs x
    show D.Leaves e _ (.ok (true, some a), (Executor.leave n saveAs x).2)
    generalize Executor.leave n saveAs x = l at left ok
    obtain ⟨l, y⟩ := l
    cases ok
    exact ⟨hr.1.trans left.1, trivial⟩
  | error f =>
    have failed (hs : D.Step e x) : D.Step e (Executor.failed n code scope f x) :=
      hs.trans (step_failed hb hs.1 (D.own_mono hs.2 hn) _ scope).1
    cases f with
    | exhausted => exact hr
    | _ => exact ⟨failed hr, trivial⟩

/-- One action after another, where the first one leaves all but one entry alone. -/
theorem leaves_bindApart {a : Action α} {f : α → Action β} {P Q : α → Engine → Prop}
    {R : β → Engine → Prop} (hh : e.Healthy) (hs : (apart n True).Gives e a P) (ha : D.Leaves e Q (a e))
    (hf : ∀ x e₁, D.inv e₁ → D.le e e₁ → Q x e₁ → e.Apart [n] e₁ → P x e₁ → D.Leaves e₁ R (f x e₁)) :
    D.Leaves e R ((a >>= f) e) := by
  have alone := hs.run e ⟨hh, fun _ => trivial⟩ ((apart n True).refl e)
  refine leaves_bind (ha.and (R := fun x e₁ => e.Apart [n] e₁ ∧ P x e₁) fun x e₁ h => ?_)
    fun x e₁ he hl hq => hf x e₁ he hl hq.1 hq.2.1 hq.2.2
  rw [h] at alone
  exact ⟨alone.1.2, alone.2⟩

/-- Running an entry keeps a discipline if its command does, wherever it is run: on an engine that
differs only by notes on the entry, the one that the steps before the command lead to. -/
theorem leaves_executeApart (hb : D.Bookkeeping) (hp : D.ProcedureSafe calls) (hi : calls.Isolated)
    (he : D.inv e) (hn : D.own e n) (hh : e.Healthy) (hlive : e.Live n)
    (hact : ∀ x scope saveAs, D.Step e x → e.Apart [n] x →
      Executor.enter calls n scope (Executor.announced n e) = (.ok (some saveAs), x) →
      D.Leaves x (fun _ _ => True) (Commands.execute calls n x)) :
    D.Leaves e (fun _ _ => True) (Executor.execute calls n e) := by
  have forget {r : Except Failure (Bool × Option Unit) × Engine}
      (hr : D.Leaves e (fun _ _ => True) r) : D.Leaves e (fun _ _ => True) (Executor.ran r) := by
    obtain ⟨r, x⟩ := r
    cases r with
    | ok a => exact ⟨hr.1, trivial⟩
    | error f => exact leaves_error_of hr
  rw [Executor.execute_eq]
  refine forget ?_
  obtain ⟨ran, e', hs, -, heq⟩ | ⟨e', hcut, heq⟩ | ⟨code, scope, saveAs, x, hx, entered, heq⟩ :=
    executeWith_split hb hp he hn
  · rw [heq]
    exact ⟨hs, trivial⟩
  · rw [heq]
    exact hcut
  · have alone : e.Apart [n] x := by
      -- The command that only looks tells which engine it is run on.
      have look := heq (Action.look id)
      obtain ⟨ran, e', -, -, h⟩ | ⟨e', -, h⟩ | ⟨code', scope', saveAs', y, hy, -, h⟩ :=
        executeWith_split (Apart.bookkeeping n True) (Apart.procedureSafe hi (.inr trivial))
          (e := e) ⟨hh, fun _ => trivial⟩ ⟨rfl, hlive⟩
      · cases look.symm.trans (h _)
      · cases look.symm.trans (h _)
      · have same : some x = some y :=
          (Prod.mk.inj (Except.ok.inj (Prod.mk.inj (look.symm.trans (h (Action.look id)))).1)).2
        cases same
        exact hy.2
    rw [heq]
    exact (leaves_conclude hb (D.own_mono hx.2 hn) code scope saveAs (hact x scope saveAs hx alone entered)).from hx.2

end Discipline

end QueueScript
