import QueueScript.Proofs.Procedures
import QueueScript.Proofs.Structured.Moves

/-!
# Serving an entry

The interpreter runs an entry with something else in the place of its command.  If that comes to the
same as the command (`Serves`), then the queue gets to where the interpreter gets by running the entry
(`serve_served`).  What the interpreter needs to know then is what the program is made of: the pending
entries, and the commands, owners and loops of all entries.  The end of a run leaves these alone
(`Engine.Remains`).
-/

namespace QueueScript

namespace Engine

/-- What programs are made of is as it was: the pending entries of a queue and, of all entries, the
commands, the blocks, the places, the owners and the loops. -/
structure Remains (q : QueueRef) (e e' : Engine) : Prop where
  size : e.entries.size ≤ e'.entries.size
  pending : (e'.queue q).pending = (e.queue q).pending
  code {m : EntryRef} : m < e.entries.size → (e'.entry m).code = (e.entry m).code
  blocks {m : EntryRef} : m < e.entries.size → (e'.entry m).blocks = (e.entry m).blocks
  residing {m : EntryRef} : m < e.entries.size → (e'.entry m).residing = (e.entry m).residing
  owner {m : EntryRef} : m < e.entries.size → (e'.entry m).owner = (e.entry m).owner
  loop {m : EntryRef} : m < e.entries.size → (e'.entry m).loop = (e.entry m).loop

namespace Remains

variable {q : QueueRef} {X : List EntryRef} {e e' e'' : Engine}

/-- Programs remain over and over. -/
theorem trans (h : e.Remains q e') (h' : e'.Remains q e'') : e.Remains q e'' := by
  have size {m : EntryRef} (hm : m < e.entries.size) : m < e'.entries.size :=
    Nat.lt_of_lt_of_le hm h.size
  exact {
    size := Nat.le_trans h.size h'.size
    pending := h'.pending.trans h.pending
    code := fun hm => (h'.code (size hm)).trans (h.code hm)
    blocks := fun hm => (h'.blocks (size hm)).trans (h.blocks hm)
    residing := fun hm => (h'.residing (size hm)).trans (h.residing hm)
    owner := fun hm => (h'.owner (size hm)).trans (h.owner hm)
    loop := fun hm => (h'.loop (size hm)).trans (h.loop hm) }

/-- Programs remain where something else is done. -/
theorem of_apart (h : e.Apart X e') (hq : q < e.queues.size) : e.Remains q e' where
  size := h.size
  pending := congrArg Queue.pending (h.queue hq)
  code := h.code
  blocks := h.blocks
  residing := h.residing
  owner := h.owner
  loop := h.loop

/-- Programs remain where queues and entries are the same. -/
theorem of_tables (hq : e'.queues = e.queues) (hn : e'.entries = e.entries) : e.Remains q e' where
  size := Nat.le_of_eq (by rw [hn])
  pending := congrArg Queue.pending (queue_congr hq q)
  code _ := by rw [entry_congr hn]
  blocks _ := by rw [entry_congr hn]
  residing _ := by rw [entry_congr hn]
  owner _ := by rw [entry_congr hn]
  loop _ := by rw [entry_congr hn]

end Remains

end Engine

namespace Discipline.Healthy

variable {calls : Calls} {e₀ : Engine} {n : EntryRef}

/-- Procedures that leave alone what there was keep engines healthy. -/
theorem procedureSafe (hi : calls.Isolated) : healthy.ProcedureSafe calls := by
  refine fun e₀ name args => ⟨fun e he _ => ?_⟩
  have hdone := hi e name args he
  generalize calls.procedure name args e = r at hdone
  obtain ⟨r, e'⟩ := r
  have kept (hr : r ≠ .error .exhausted) : healthy.Step e e' := by
    obtain ⟨hh, ha⟩ := hdone hr
    exact ⟨hh, ha.toGrows, ha.toKeeps⟩
  cases r with
  | ok v => exact ⟨kept nofun, trivial⟩
  | error f =>
    by_cases hf : f = .exhausted
    · rw [hf]
      trivial
    · exact leaves_error hf (kept fun h => hf (by cases h; rfl))

/-- A command that touches nothing but its queue keeps engines healthy. -/
theorem safe_local (hi : calls.Isolated) (hn : e₀.Live n)
    (hl : (e₀.entry n).code.handler.behaviour.isLocal = true) :
    healthy.Safe e₀ (Commands.execute calls n) :=
  Inside.safe_local blocks blocks.emptying (procedureSafe hi) hn fun e _ hle => by
    rw [hle.2.code hn.1]
    exact hl

end Discipline.Healthy

namespace Executor

/-- When an entry that nothing holds is left, it is done. -/
theorem leave_finished {n : EntryRef} {e : Engine} (saveAs : Option String) (hn : n < e.entries.size)
    (hh : (e.entry n).code.handler.isHoldable = false) :
    ((leave n saveAs e).2.entry n).isFinished = true := by
  let ending : Action Unit := do
    if !(← Action.entry n).code.handler.isHoldable then
      Entries.finish n
  have rest {x : Engine} (hx : x.entries = e.entries) : ((ending x).2.entry n).isFinished = true := by
    show (((if !(x.entry n).code.handler.isHoldable then Entries.finish n else pure () :
      Action Unit) x).2.entry n).isFinished = true
    rw [Engine.entry_congr hx, hh]
    exact congrArg Entry.isFinished (x.entry_changeEntry_self (hx ▸ hn) _)
  cases saveAs with
  | none => exact rest rfl
  | some name =>
    have saved {x : Engine} (hs : save n name e = (.ok (), x)) :
        leave n (some name) e = ending x := Action.bind_ok hs
    cases hr : e.residingQueue n with
    | none =>
      rw [saved (save_of_none hr)]
      exact rest rfl
    | some q =>
      rw [saved (save_of_some hr)]
      exact rest rfl

end Executor

namespace Structured

variable {P : Prop} {fuel : Nat} {seconds : Option Float} {q : QueueRef} {n : EntryRef}
  {following : List EntryRef} {e : Engine} {α β : Type} {G : α → Prop} {Q : α → Engine → Prop}

/-! ## Something in the place of a command -/

/-- What comes of something that is run in the place of the command of the entry `n`: it comes to the
same as the command, and then `Q` holds, or it gives up with a result of which `G` holds. -/
def Serves (P : Prop) (q : QueueRef) (n : EntryRef) (G : α → Prop) (Q : α → Engine → Prop)
    (command : Action Unit) (e : Engine) : Except Failure α × Engine → Prop
  | (.ok a, e') => G a ∨ command e = (.ok (), e') ∧ e.Moves q [n] e' ∧
      (e'.queue q).last = (e.queue q).last ∧ Q a e'
  | (.error .exhausted, _) => P
  | (.error f, e') => command e = (.error f, e') ∧ e.Apart [n] e'

/-- Commands that come to the same are served alike. -/
theorem Serves.congr {command command' : Action Unit} {r : Except Failure α × Engine}
    (hc : command e = command' e) (h : Serves P q n G Q command' e r) : Serves P q n G Q command e r := by
  obtain ⟨r, e'⟩ := r
  unfold Serves at h ⊢
  rw [hc]
  exact h

/-- Equal ends serve alike. -/
theorem Serves.of_eq {command : Action Unit} {r r' : Except Failure α × Engine} (hr : r = r')
    (h : Serves P q n G Q command e r') : Serves P q n G Q command e r :=
  hr ▸ h

/-- Something that both do first, and that leaves all but notes on the entry alone. -/
theorem Serves.after {a : Action β} {f : β → Action α} {g : β → Action Unit} {R : β → Engine → Prop}
    (hq : q < e.queues.size) (ha : (Discipline.apart n P).Leaves e R (a e))
    (h : ∀ b y, R b y → (Discipline.apart n P).Step e y → a e = (.ok b, y) →
      Serves P q n G Q (g b) y (f b y)) :
    Serves P q n G Q (a >>= g) e ((a >>= f) e) := by
  match hr : a e with
  | (.ok b, y) =>
    rw [hr] at ha
    obtain ⟨step, hR⟩ := ha
    have moved : e.Moves q [n] y := .of_apart step.2 hq
    have hb := h b y hR step hr
    rw [Action.bind_ok hr]
    match hf : f b y with
    | (.ok a, z) =>
      rw [hf] at hb
      refine hb.imp id fun hb => ⟨(Action.bind_ok hr).trans hb.1, moved.trans hb.2.1 fun _ h _ => h, ?_, hb.2.2.2⟩
      rw [hb.2.2.1, step.2.queue hq]
    | (.error f, z) =>
      rw [hf] at hb
      cases f with
      | exhausted => exact hb
      | _ => exact ⟨(Action.bind_ok hr).trans hb.1, step.2.trans hb.2⟩
  | (.error f, y) =>
    rw [hr] at ha
    rw [Action.bind_error hr]
    cases f with
    | exhausted => exact ha
    | _ => exact ⟨Action.bind_error hr, ha.2⟩

/-- A command that leaves all but notes on its entry alone comes to the same as itself. -/
theorem Serves.self {a : Action Unit} (hq : q < e.queues.size)
    (ha : (Discipline.apart n P).Leaves e (fun _ _ => True) (a e)) :
    Serves P q n (fun _ => False) (fun _ e' => (e'.queue q).pending = (e.queue q).pending) a e (a e) := by
  match hr : a e with
  | (.ok _, y) =>
    rw [hr] at ha
    exact .inr ⟨hr, .of_apart ha.1.2 hq, congrArg Queue.last (ha.1.2.queue hq),
      congrArg Queue.pending (ha.1.2.queue hq)⟩
  | (.error f, y) =>
    rw [hr] at ha
    cases f with
    | exhausted => exact ha
    | _ => exact ⟨hr, ha.2⟩

/-! ## The turn of an entry -/

/-- What comes of running an entry with a given command.  There is no result of the command if it did not
get its turn or failed. -/
def Served (P : Prop) (fuel : Nat) (seconds : Option Float) (q : QueueRef) (n : EntryRef)
    (following : List EntryRef) (G : α → Prop) (Q : α → Engine → Prop) (e : Engine) :
    Except Failure (Option α) × Engine → Prop
  | (.ok none, e') => Advances P fuel seconds q [n] e e' ∧ (e'.queue q).pending = following
  | (.ok (some a), e') => G a ∨ Advances P fuel seconds q [n] e e' ∧ Q a e'
  | (.error f, _) => f = .exhausted ∧ P

/-- Programs remain when a queue comes back from an entry. -/
theorem remains_settled (ran : Bool) (x : Engine) : x.Remains q (settled seconds q n ran x) := by
  obtain ⟨queues, entries, -⟩ : (settled seconds q n ran x).queues = x.queues ∧
      (settled seconds q n ran x).entries = x.entries ∧ x.Keeps (settled seconds q n ran x) :=
    settled_tables ran x
  exact .of_tables queues entries

/-- A queue is about to take an entry of a program: the first one of the pending ones, whose command
touches nothing but its queue. -/
structure Taken (P : Prop) (q : QueueRef) (n : EntryRef) (following : List EntryRef) (e : Engine) :
    Prop where
  ready : Ready P q e
  pending : (e.queue q).pending = n :: following
  residing : (e.entry n).residing = some q
  isLocal : (e.entry n).code.handler.behaviour.isLocal = true

/-- The entry is about to run its command on the engine `x`. -/
structure Begins (P : Prop) (q : QueueRef) (n : EntryRef) (following : List EntryRef) (e x : Engine) :
    Prop where
  apart : (e.begun q n following).Apart [n] x
  healthy : x.Healthy
  procedures : x.HasProcedure → P

namespace Taken

variable (t : Taken P q n following e)

include t

/-- The entry that is begun is live. -/
theorem live : e.Live n :=
  t.ready.healthy.tidy.pending q n (t.pending ▸ List.mem_cons_self)

/-- The entries behind it are live. -/
theorem behind : ∀ m ∈ following, e.Live m := fun m hm =>
  t.ready.healthy.tidy.pending q m (t.pending ▸ List.mem_cons_of_mem n hm)

/-- The queue is there when it has begun the entry. -/
theorem queues_begun : q < (e.begun q n following).queues.size :=
  Nat.lt_of_lt_of_le t.ready.queue (e.moves_begun t.ready.queue n following []).queues

/-- The entry has begun. -/
theorem begins : Begins P q n following e (e.begun q n following) where
  apart := .refl _ _
  healthy := Engine.healthy_begun e n following t.ready.healthy t.live t.behind
  procedures hb := t.ready.procedures ((e.moves_begun t.ready.queue n following []).hasProcedure hb)

end Taken

namespace Begins

variable {x y : Engine} (h : Begins P q n following e x)

include h

/-- The engine is one of the discipline of that entry. -/
theorem inv : (Discipline.apart n P).inv x :=
  ⟨h.healthy, h.procedures⟩

/-- Whatever the discipline of the entry allows may come before the command. -/
theorem step (hs : (Discipline.apart n P).Step x y) : Begins P q n following e y :=
  ⟨h.apart.trans hs.2, hs.1.1, hs.1.2⟩

variable (t : Taken P q n following e)

include t

/-- The entry is live when its command runs. -/
theorem live : x.Live n :=
  h.apart.live t.live

/-- The entry is there when its command runs. -/
theorem size : n < x.entries.size :=
  (h.live t).1

/-- The queue is there when the command runs. -/
theorem queues : q < x.queues.size :=
  Nat.lt_of_lt_of_le t.queues_begun h.apart.queues

/-- The queue has the entries behind it pending. -/
theorem queue : x.queue q = { e.queue q with pending := following, last := some n } :=
  (h.apart.queue t.queues_begun).trans (e.queue_begun t.ready.queue n following)

/-- What is pending are the entries behind it. -/
theorem pending : (x.queue q).pending = following :=
  congrArg Queue.pending (h.queue t)

/-- The entry is the one that was begun last. -/
theorem last : (x.queue q).last = some n :=
  congrArg Queue.last (h.queue t)

/-- The entry has the command that it had. -/
theorem code : (x.entry n).code = (e.entry n).code :=
  h.apart.code t.live.1

/-- The entry runs on the queue that began it. -/
theorem residingQueue : x.residingQueue n = some q := by
  unfold Engine.residingQueue
  rw [h.apart.residing t.live.1, show ((e.begun q n following).entry n).residing = some q from t.residing]
  refine congrArg some (x.follow_self ?_)
  rw [h.queue t]
  exact t.ready.current

/-- The command keeps the engine healthy. -/
theorem healthy_command (hi : (Drive.calls fuel).Isolated) :
    Discipline.healthy.Leaves x (fun _ _ => True) (Commands.execute (Drive.calls fuel) n x) := by
  have safe : Discipline.healthy.Safe x (Commands.execute (Drive.calls fuel) n) :=
    Discipline.Healthy.safe_local hi (h.live t) (by rw [h.code t]; exact t.isLocal)
  exact safe.run x h.healthy (Discipline.healthy.refl x)

/-- A command of a program holds nothing, since a sound command that may hold its entry touches more than
its queue. -/
theorem unheld : (x.entry n).code.handler.isHoldable = false := by
  rw [Bool.eq_false_iff]
  intro hold
  have may := (h.healthy.code (h.size t)).handler.1 hold
  have isLocal := t.isLocal
  rw [h.code t] at may
  cases hb : (e.entry n).code.handler.behaviour <;> rw [hb] at isLocal may <;> cases isLocal <;>
    cases may

/-- The entry is done, and nothing but notes on it has changed. -/
theorem served {ran : Bool} (hm : (x.entry n).isFinished = true)
    (executed : Executor.execute (Drive.calls fuel) n (e.begun q n following) = (.ok ran, x)) :
    Advances P fuel seconds q [n] e (settled seconds q n ran x) ∧
      ((settled seconds q n ran x).queue q).pending = following :=
  ⟨advances_settled t.ready t.pending executed (.of_apart h.apart t.queues_begun) h.healthy (h.last t) hm,
    (remains_settled ran x).pending.trans (h.pending t)⟩

/-- The command has run, and the entry is left. -/
theorem left {X : List EntryRef} (hX : n ∈ X) {saveAs : Option String} (moved : x.Moves q X y)
    (hlast : (y.queue q).last = (x.queue q).last) (healthy : y.Healthy)
    (executed : Executor.execute (Drive.calls fuel) n (e.begun q n following) =
      (.ok true, (Executor.leave n saveAs y).2)) :
    Advances P fuel seconds q X e (settled seconds q n true (Executor.leave n saveAs y).2) ∧
      y.Remains q (settled seconds q n true (Executor.leave n saveAs y).2) := by
  have hny : y.Live n := moved.live (h.live t)
  have hqy : q < y.queues.size := Nat.lt_of_lt_of_le (h.queues t) moved.queues
  have inv : (Discipline.apart n P).inv y := ⟨healthy, fun hy => h.procedures (moved.hasProcedure hy)⟩
  have left := (Discipline.safe_leave (Discipline.Apart.bookkeeping n P) ⟨rfl, hny⟩ saveAs).run y inv
    ((Discipline.apart n P).refl y)
  rw [show Executor.leave n saveAs y = (.ok (), (Executor.leave n saveAs y).2) from
    Prod.ext (Executor.leave_ok n saveAs y) rfl] at left
  have apart : y.Apart [n] (Executor.leave n saveAs y).2 := left.1.2
  have within : ∀ m ∈ [n], m ∈ X := fun m hm => List.mem_singleton.1 hm ▸ hX
  have begun : (e.begun q n following).Moves q X x := .of_apart (h.apart.mono within) t.queues_begun
  have moves : (e.begun q n following).Moves q X (Executor.leave n saveAs y).2 :=
    (begun.trans moved fun _ h _ => h).trans (.of_apart apart hqy) fun m hm _ => within m hm
  have done := Executor.leave_finished saveAs hny.1 (by rw [moved.code (h.size t)]; exact h.unheld t)
  refine ⟨advances_settled t.ready t.pending executed moves left.1.1.1 ?_ done,
    (Engine.Remains.of_apart apart hqy).trans (remains_settled true _)⟩
  rw [apart.queue hqy, hlast]
  exact h.last t

end Begins

/-- If the interpreter puts something in the place of a command that comes to the same, then it gets to
where the queue gets by running the entry. -/
theorem serve_served (seconds : Option Float) (hi : (Drive.calls fuel).Isolated)
    (hp : (Drive.calls fuel).Prompt ∨ P) (t : Taken P q n following e) (act : Action α)
    (hQ : ∀ a y z, y.Remains q z → Q a y → Q a z)
    (hact : ∀ x, Begins P q n following e x →
      Serves P q n G Q (Commands.execute (Drive.calls fuel) n) x (act x)) :
    Served P fuel seconds q n following G Q e
      (serve (Drive.calls fuel) seconds q n following act e) := by
  let b := e.begun q n following
  have noting := Discipline.Apart.bookkeeping n P
  unfold serve
  obtain ⟨ran, x, step, marked, heq⟩ | ⟨x, cut, heq⟩ | ⟨code, scope, saveAs, x, step, -, heq⟩ :=
    Discipline.executeWith_split noting.toNoting (Discipline.Apart.procedureSafe hi hp) t.begins.inv
      ⟨rfl, t.live⟩
  · -- The entry never gets to its command.
    rw [attend_eq (heq act)]
    exact (t.begins.step step).served t marked.2 (by rw [Executor.execute_eq, heq]; rfl)
  · rw [attend_error (heq act)]
    exact ⟨rfl, cut⟩
  have begins := t.begins.step step
  have hx := hact x begins
  have healthy := begins.healthy_command t hi
  have executed := Executor.execute_eq (Drive.calls fuel) n b
  rw [heq] at executed
  match hr : act x with
  | (.ok a, y) =>
    rw [hr] at hx
    have ran : Executor.executeWith (Drive.calls fuel) n act b =
        (.ok (true, some a), (Executor.leave n saveAs y).2) := by
      rw [heq, hr]
      rfl
    rw [attend_eq ran]
    refine hx.imp id fun ⟨hcommand, moved, hlast, hq⟩ => ?_
    rw [hcommand] at executed healthy
    obtain ⟨advances, remains⟩ := begins.left t (List.mem_singleton_self n) moved hlast healthy.1.1 executed
    exact ⟨advances, hQ _ _ _ remains hq⟩
  | (.error f, y) =>
    rw [hr] at hx
    by_cases hf : f = .exhausted
    · rw [hf] at hx hr
      rw [attend_error (f := .exhausted) (x := y) (by rw [heq, hr]; rfl)]
      exact ⟨rfl, hx⟩
    have concluded {β : Type} :
        Executor.conclude n code scope saveAs ((.error f, y) : Except Failure β × Engine) =
          (.ok (false, none), Executor.failed n code scope f y) := by
      cases f with
      | exhausted => exact absurd rfl hf
      | _ => rfl
    obtain ⟨hcommand, apart⟩ :
        Commands.execute (Drive.calls fuel) n x = (.error f, y) ∧ x.Apart [n] y := by
      cases f with
      | exhausted => exact absurd rfl hf
      | _ => exact hx
    rw [hcommand] at executed healthy
    rw [concluded] at executed
    have kept : (Discipline.apart n P).Step x y := by
      refine ⟨⟨?_, fun hy => begins.procedures (apart.hasProcedure hy)⟩, apart⟩
      cases f with
      | exhausted => exact absurd rfl hf
      | _ => exact healthy.1
    obtain ⟨failed, marked⟩ := Discipline.step_failed noting.toNoting kept.1
      ⟨rfl, (begins.step kept).live t⟩ (.error (Executor.failureText code f) scope (some f)) scope
    have ran : Executor.executeWith (Drive.calls fuel) n act b =
        (.ok (false, none), Executor.failed n code scope f y) := by
      rw [heq, hr]
      exact concluded
    rw [attend_eq ran]
    exact (begins.step (kept.trans failed)).served t marked.2 executed

end Structured

end QueueScript
