import QueueScript.Proofs.HeldEntries
import QueueScript.Proofs.Isolation

/-!
# Entries of a line come one after the other

A queue begins an entry when it is back from those that it began before, and so does the queue that came
in its place, with one exception: a `wait` replaces a queue and starts the replacement before it is done
itself.  If its delay does not hold any more at that time, the replacement begins the next entry while the
`wait` is under way, and before the `wait` is saved under the name that it was given.

So nothing is begun while an entry is under way on its line, unless a `wait` is under way
(`Engine.Successive`); a replacement whose delay holds begins nothing; and when the executor is back from
an entry that is to be saved, it is saved.
-/

namespace QueueScript

namespace Engine

theorem IsWait.lt {e : Engine} {n : EntryRef} (h : e.IsWait n) : n < e.entries.size := by
  refine Nat.lt_of_not_le fun hle => ?_
  have none : e.entry n = default := by simp [entry, Array.getD_eq_getD_getElem?, hle]
  unfold IsWait at h
  rw [none] at h
  cases h

/-- Whenever an entry was begun, and another one was under way on the line of its queue, that one was a
`wait`, or a `wait` that was begun later was under way. -/
def Successive (e : Engine) : Prop :=
  ∀ ⦃recent old t n before previous⦄, e.journal = recent ++ .began t n before previous :: old →
    ∀ ⦃inner x outer⦄, Step.underway old = inner ++ x :: outer → e.LeadsTo x.1 t →
      ∃ w ∈ inner ++ [x], e.IsWait w.2

theorem residingQueue_congr {e e' : Engine} {n : EntryRef} (hq : e'.queues = e.queues)
    (hr : (e'.entry n).residing = (e.entry n).residing) : e'.residingQueue n = e.residingQueue n := by
  unfold residingQueue
  rw [hr]
  exact congrArg (Option.map · (e.entry n).residing) (funext (follow_congr hq))

namespace Successive

variable {e e' : Engine}

/-- Nothing is put into the history, and lines to its queues are not new. -/
theorem later (h : e.Successive) (hj : e'.journal = e.journal) (hw : ∀ n, e.IsWait n → e'.IsWait n)
    (hl : ∀ s ∈ e.journal, ∀ p, e'.LeadsTo p s.queue → e.LeadsTo p s.queue) : e'.Successive := by
  intro recent old t n before previous hjournal inner x outer hu hleads
  rw [hj] at hjournal
  have recorded : Step.began t n before previous ∈ e.journal := by
    rw [hjournal]
    exact List.mem_append_right _ List.mem_cons_self
  obtain ⟨w, hmem, wait⟩ := h hjournal hu (hl _ recorded _ hleads)
  exact ⟨w, hmem, hw _ wait⟩

/-- No queue is replaced. -/
theorem same (h : e.Successive) (hj : e'.journal = e.journal) (hw : ∀ n, e.IsWait n → e'.IsWait n)
    (hr : ∀ p, (e'.queue p).replacedBy = (e.queue p).replacedBy) : e'.Successive :=
  h.later hj hw fun _ _ _ hl => hl.same fun p => (hr p).symm

/-- A step is put into the history.  If it begins an entry, what is under way lets it. -/
theorem note (h : e.Successive) {s : Step} (hj : e'.journal = s :: e.journal)
    (hw : ∀ n, e.IsWait n → e'.IsWait n) (hr : ∀ p, (e'.queue p).replacedBy = (e.queue p).replacedBy)
    (hs : ∀ t n before previous, s = .began t n before previous → ∀ inner x outer,
      e.underway = inner ++ x :: outer → e.LeadsTo x.1 t → ∃ w ∈ inner ++ [x], e.IsWait w.2) :
    e'.Successive := by
  intro recent old t n before previous hjournal inner x outer hu hleads
  rw [hj] at hjournal
  have leads : e.LeadsTo x.1 t := hleads.same fun p => (hr p).symm
  have wait : ∃ w ∈ inner ++ [x], e.IsWait w.2 := by
    cases recent with
    | nil =>
      obtain ⟨rfl, rfl⟩ := List.cons.inj hjournal
      exact hs _ _ _ _ rfl _ _ _ hu leads
    | cons _ recent => exact h (List.cons.inj hjournal).2 hu leads
  obtain ⟨w, hmem, wait⟩ := wait
  exact ⟨w, hmem, hw _ wait⟩

theorem changeQueue (h : e.Successive) {q : QueueRef} {f : Queue → Queue}
    (hf : ∀ x, (f x).replacedBy = x.replacedBy) : (e.changeQueue q f).Successive :=
  h.same rfl (fun _ hn => hn) (e.queue_changeQueue_keep hf q)

/-- A queue that is replaced leads to a new one, about which there is nothing in the history. -/
theorem convert (h : e.Successive) (ho : e.Orderly) {q : QueueRef} (hc : e.Converts q e') :
    e'.Successive := by
  have back {p t : QueueRef} (hl : e'.LeadsTo p t) (ht : t ≠ e.queues.size) : e.LeadsTo p t := by
    induction hl with
    | here p => exact .here p
    | @next p r t hr hrest ih =>
      by_cases hnew : p = e.queues.size
      · rw [hnew, hc.newReplacedBy] at hr
        cases hr
      · by_cases hpq : p = q
        · rw [hpq, hc.old] at hr
          obtain rfl := Option.some.inj hr
          cases hrest with
          | here => exact absurd rfl ht
          | next hr _ =>
            rw [hc.newReplacedBy] at hr
            cases hr
        · rw [hc.other hpq hnew] at hr
          exact .next hr (ih ht)
  refine h.later hc.journal (fun n hn => ?_) fun s hs p hl => back hl (Nat.ne_of_lt (ho.traced hs).1)
  unfold IsWait
  rw [hc.moved.code]
  exact hn

theorem hosting :
    Upkeep.Hosting (fun _ _ => True) False False (fun _ _ => True) Engine.Successive where
  quiet _ h hq _ := h.same hq.journal (fun n hn => by unfold IsWait; rw [hq.code hn.lt]; exact hn)
    fun p => (hq.queue p).replacedBy
  fill {e q xs ys f} _ h _ _ _ := h.same rfl
    (fun n hn => by unfold IsWait; rw [Fills.entry_old xs ys f hn.lt]; exact hn)
    ((e.grown xs).queue_put_keep q ys f fun _ _ => rfl)
  drop _ _ h _ _ := h.changeQueue fun _ => rfl
  make {e x} _ h hx := h.same rfl (fun _ hn => hn) fun p => by
    rw [e.queue_withQueue]
    split
    · rename_i hp
      rw [hx.replacedBy, hp, e.queue_of_size_le (Nat.le_refl _)]
      rfl
    · rfl
  launch {e q} _ h _ _ _ := h.same rfl (fun _ hn => hn)
    (e.queue_changeQueue_keep (f := ({ · with state := .running })) (g := Queue.replacedBy)
      (fun _ => rfl) q)
  close _ h _ _ _ hc _ := h.same hc.journal
    (fun n hn => by unfold IsWait; rw [hc.code]; exact hn) hc.replaced
  convert ho h _ _ hc _ := h.convert ho hc
  begins {e q n rest} _ h hq _ _ := by
    refine h.note rfl (fun _ hn => hn)
      (e.queue_begun_keep q n rest (g := Queue.replacedBy) (fun _ _ => rfl) fun _ _ => rfl) ?_
    rintro t m before previous hs inner x outer hu hl
    cases hs
    exact hq.waits hu hl
  back _ _ _ h := h.note rfl (fun _ hn => hn) (fun _ => rfl) fun _ _ _ _ hs => by cases hs
  listen _ h _ := h.changeQueue fun _ => rfl
  active _ _ _ _ := trivial
  registered _ _ _ _ := trivial
  allows {_ op} _ := by
    cases op with
    | start | runToCompletion | runScript | runCommands => exact False.elim
    | append | inject => exact False.elim
    | _ => trivial
  pause _ h _ _ _ := h.changeQueue fun _ => rfl
  resume _ h _ _ _ := h.changeQueue fun _ => rfl
  hear _ h _ _ _ := h.changeQueue fun _ => rfl
  late _ h _ _ _ := h.same rfl (fun _ hn => hn) fun _ => rfl
  task _ _ h := h.same rfl (fun _ hn => hn) fun _ => rfl

end Successive

end Engine

theorem Reachable.successive {config : Config} {e : Engine} (h : Reachable (Host.create config []) e) :
    e.Successive := by
  have new := Host.create_isNew config []
  refine (Discipline.Upheld.step_runs Engine.Successive.hosting ⟨Host.create_orderly config, ?_⟩
    new.underway h.runs).1.2
  intro recent old t n before previous hjournal
  rw [new.journal] at hjournal
  cases recent <;> cases hjournal

/-! ## Replacements that are held back -/

/-- A timed queue whose delay holds is launched, and begins nothing. -/
theorem Drive.start_held {calls : Calls} {e : Engine} {t : QueueRef} {d : Delay}
    (ht : t < e.queues.size) (hidle : (e.queue t).state = .idle) (hpace : (e.queue t).pace = .timed)
    (hdelay : (e.queue t).delay = some d) (hd : Queues.isHolding e d = true) (fuel : Nat) :
    ∃ events, Drive.start calls fuel t e = (.ok (), { e.launched t with events }) := by
  obtain ⟨events, launch⟩ := e.launch_eq t
  let x : Engine := { e.launched t with events }
  have here : x.queue t = { e.queue t with state := .running } := e.queue_launched ht
  have holding : Queues.isHolding x d = true := by
    rw [← hd]
    cases d <;> rfl
  have held : Drive.isHeldBack t x = (.ok true, x) := by
    rw [Drive.isHeldBack_of_some (by rw [here]; exact hdelay), if_pos holding]
  have turn : Drive.heartbeat calls fuel t x = (.ok (), x) := by
    rw [Drive.heartbeat_of_timed (by rw [here]) (by rw [here]; exact hpace)]
    exact Action.bind_ok held
  refine ⟨events, ?_⟩
  show (if (e.queue t).state = .idle then _ else _ : Action Unit) e = _
  rw [if_pos hidle]
  exact (Action.bind_ok launch).trans turn

/-- A queue is replaced by one whose delay holds, and no entry is begun. -/
theorem Queues.replaceByTimed_held {calls : Calls} {e : Engine} {q : QueueRef} {d : Delay}
    (hq : q < e.queues.size) (hd : isHolding e d = true) (fuel : Nat) :
    ∃ e', (do
      let t ← replaceByTimed q (some d)
      Drive.start calls fuel t : Action Unit) e = (.ok (), e') ∧ e'.journal = e.journal := by
  obtain ⟨y, replace, replaces⟩ := e.replaceByTimed_replaces (some d) hq
  have holding : isHolding y d = true := by
    rw [← hd]
    cases d with
    | heartbeat release => exact congrArg (fun t => decide (t < release)) replaces.books.heartbeatTime
    | clock release => exact congrArg (fun t => decide (t < release)) replaces.books.clock
  obtain ⟨events, start⟩ : ∃ events, Drive.start calls fuel e.queues.size y =
      (.ok (), { y.launched e.queues.size with events }) :=
    Drive.start_held (by rw [replaces.queues]; exact Nat.lt_succ_self _) (by rw [replaces.new])
      (by rw [replaces.new]) (by rw [replaces.new]) holding fuel
  exact ⟨_, (Action.bind_ok replace).trans start, replaces.books.journal⟩

/-! ## Entries that are saved -/

namespace Executor

/-- The name that an entry is to be saved under, if it is to run. -/
def saveName? (calls : Calls) (n : EntryRef) (e : Engine) : Option String :=
  let x := announced n e
  match prelude calls n none (x.entry n).code.metaArgs x with
  | (.ok (.run saveAs), _) => saveAs
  | _ => none

/-- The entry is saved under the name on the queue that it resides on. -/
def Saved (n : EntryRef) (name : String) (e : Engine) : Prop :=
  ∀ q, e.residingQueue n = some q → (e.queue q).memory < e.memories.size → e.held? q name = some n

variable {calls : Calls} {n : EntryRef} {name : String} {e e' : Engine}

theorem save_saved (h : save n name e = (.ok (), e')) : Saved n name e' := by
  cases hr : e.residingQueue n with
  | none =>
    rw [save_of_none hr] at h
    cases h
    intro q hq
    rw [hr] at hq
    cases hq
  | some p =>
    rw [save_of_some hr] at h
    cases h
    have residing : (Queues.hold p name n e).2.residingQueue n = some p := by
      rw [← hr]
      exact Engine.residingQueue_congr rfl rfl
    intro q hq hm
    obtain rfl : p = q := Option.some.inj (residing.symm.trans hq)
    have size : (e.queue p).memory < e.memories.size :=
      Nat.lt_of_lt_of_eq hm (Array.size_modify ..)
    show ((e.changeMemory (e.queue p).memory _).memory (e.queue p).memory).held.get? _ = _
    rw [e.memory_changeMemory_self size]
    exact Keyed.get?_put_self _ _ _

theorem Saved.finish (h : Saved n name e) :
    Saved n name (e.changeEntry n ({ · with isFinished := true })) := by
  let x := e.changeEntry n ({ · with isFinished := true })
  have residing : x.residingQueue n = e.residingQueue n := by
    have kept : (x.entry n).residing = (e.entry n).residing :=
      e.entry_changeEntry_keep (g := Entry.residing) (f := ({ · with isFinished := true })) (fun _ => rfl) n n
    exact Engine.residingQueue_congr rfl kept
  intro q hq hm
  rw [residing] at hq
  exact h q hq hm

theorem perform_saved (h : perform calls n (some name) e = (.ok (), e')) : Saved n name e' := by
  unfold perform at h
  obtain ⟨_, x₁, -, h⟩ := Action.ok_of_bind h
  obtain ⟨_, x₂, -, h⟩ := Action.ok_of_bind h
  obtain ⟨_, x₃, -, h⟩ := Action.ok_of_bind h
  obtain ⟨_, x₄, saved, h⟩ := Action.ok_of_bind h
  have saved := save_saved saved
  replace h : (if !(x₄.entry n).code.handler.isHoldable then Entries.finish n else pure () :
      Action Unit) x₄ = (.ok (), e') := h
  split at h
  · cases h
    exact saved.finish
  · cases h
    exact saved

/-- An entry that ran and was to be saved is saved. -/
theorem execute_saved (h : execute calls n e = (.ok true, e')) (hs : saveName? calls n e = some name) :
    Saved n name e' := by
  let x := announced n e
  let z := e.changeEntry n ({ · with context := e.residingQueue n })
  let code := (z.entry n).code
  let scope := z.scope n
  replace h : (if isRefused x n then do
        Action.error ("The command '" ++ code.keyword ++ "' cannot be used in a procedure.") scope none
        Entries.finish n
        pure false
      else
        Action.orElse (attempt calls n scope >>= fun _ => pure true) fun f => do
          Action.error (failureText code f) scope (some f)
          Entries.finish n
          pure false : Action Bool) x = (.ok true, e') := h
  split at h
  · cases h
  have ran : (attempt calls n scope >>= fun _ => pure true : Action Bool) x = (.ok true, e') := by
    generalize (attempt calls n scope >>= fun _ => pure true : Action Bool) = a at h
    cases ha : a x with
    | mk r y =>
      cases r with
      | ok b => rwa [Action.orElse_ok ha] at h
      | error f =>
        by_cases hf : f = .exhausted
        · rw [hf] at ha
          rw [Action.orElse_exhausted ha] at h
          cases h
        · rw [Action.orElse_error hf ha] at h
          cases h
  obtain ⟨_, y, attempted, hy⟩ := Action.ok_of_bind ran
  cases hy
  rw [attempt, Action.entry_bind] at attempted
  obtain ⟨p, z, entered, performed⟩ := Action.ok_of_bind attempted
  unfold saveName? at hs
  dsimp only at hs
  rw [entered] at hs
  cases p with
  | skip outcome => cases hs
  | run saveAs =>
    obtain rfl : saveAs = some name := hs
    exact perform_saved performed

end Executor

/-! ## Order of execution -/

/-- Whenever a queue of a run began an entry, it was back from every entry that had been begun on its
line, unless a `wait` was under way, at least as late as that entry.  A queue that is replaced by one
whose delay holds does not begin an entry by that, and an entry that ran and was to be saved is saved
when its queue is back from it. -/
theorem entries_one_by_one {config : Config} {e : Engine} (h : Reachable (Host.create config []) e) :
    (∀ recent old t n before previous, e.journal = recent ++ .began t n before previous :: old →
      ∀ p m before' previous', .began p m before' previous' ∈ old → e.LeadsTo p t →
        ((p, m) ∉ Step.underway old ∧ ∃ ran, .returned p m ran ∈ old) ∨
        ∃ inner outer, Step.underway old = inner ++ (p, m) :: outer ∧
          ∃ w ∈ inner ++ [(p, m)], e.IsWait w.2) ∧
      (∀ (calls : Calls) (x : Engine) (q : QueueRef) (d : Delay) fuel, q < x.queues.size →
        Queues.isHolding x d = true → ∃ y, (do
          let t ← Queues.replaceByTimed q (some d)
          Drive.start calls fuel t : Action Unit) x = (.ok (), y) ∧ y.journal = x.journal) ∧
      ∀ (x y : Engine) fuel n name, x.Healthy → x.Furnished → x.Live n →
        Executor.execute (Drive.calls fuel) n x = (.ok true, y) →
          Executor.saveName? (Drive.calls fuel) n x = some name →
            ∀ q, y.residingQueue n = some q → y.held? q name = some n := by
  refine ⟨fun recent old t n before previous hjournal p m before' previous' hbegan hleads => ?_,
    fun calls x q d fuel hq hd => Queues.replaceByTimed_held hq hd fuel,
    fun x y fuel n name hh hf hn hran hname q hq => ?_⟩
  · by_cases hu : (p, m) ∈ Step.underway old
    · obtain ⟨inner, outer, split⟩ := List.append_of_mem hu
      exact .inr ⟨inner, outer, split, h.successive hjournal split hleads⟩
    · exact .inl ⟨hu, (Step.underway_or_returned hbegan).resolve_left hu⟩
  · obtain ⟨procedures, starts⟩ := Discipline.Furnished.hardy.calls_safe fuel
    have kept := (Discipline.gives_executor Discipline.Furnished.hardy.outreach Discipline.Furnished.hardy.blocks
      procedures starts hn).run x ⟨hh, hf⟩
      (Discipline.Furnished.furnished.refl x)
    rw [hran] at kept
    obtain ⟨⟨⟨healthy, furnished⟩, -⟩, -⟩ := kept
    exact Executor.execute_saved hran hname q hq (furnished.memory (healthy.tidy.residingQueue_lt hq))

/-- A history split where a queue begins an entry. -/
theorem Step.split_began {js : List Step} {i : Nat} {q : QueueRef} {n : EntryRef}
    (h : js[i]?.any (fun s => s.queue == q && s.isBegin n) = true) :
    ∃ before previous, js = js.take i ++ .began q n before previous :: js.drop (i + 1) := by
  obtain ⟨s, hs, hbegan⟩ := (Option.any_eq_true _ _).1 h
  obtain ⟨hi, rfl⟩ := List.getElem?_eq_some_iff.1 hs
  obtain ⟨hq, hn⟩ := Bool.and_eq_true_iff.1 hbegan
  cases hstep : js[i] with
  | returned p m ran =>
    rw [hstep] at hn
    cases hn
  | began p m before previous =>
    rw [hstep] at hq hn
    obtain rfl : p = q := eq_of_beq hq
    obtain rfl : m = n := eq_of_beq hn
    refine ⟨before, previous, ?_⟩
    rw [← hstep, ← List.drop_eq_getElem_cons hi, List.take_append_drop]

/-- A `wait` of a second is saved.  The next entry is begun when the heart beats, after the queue that was
replaced was back from the `wait`. -/
theorem entries_one_by_one_wait :
    let e₀ := ((Operation.runCommands "wait 1 save:w\ndebug log <entry[w].delay>" none {} false).act 10
      (Host.create {} [])).2
    let e₁ := ((Operation.start 0).act 10 e₀).2
    let e₂ := ((Operation.tick (some 2.0)).act 10 e₁).2
    let old := e₂.journal.drop 2
    let r := Executor.execute (Drive.calls 8) 0 e₀
    (∃ before previous, e₂.journal = e₂.journal.take 1 ++ .began 1 1 before previous :: old) ∧
      e₂.LeadsTo 0 1 ∧ (0, 0) ∉ Step.underway old ∧ (∃ ran, .returned 0 0 ran ∈ old) ∧
      r.2.residingQueue 0 = some 1 ∧ r.2.held? 1 "w" = some 0 := by
  intro e₀ e₁ e₂ old r
  obtain ⟨ok₀, ok₁, ok₂, ok, size₀⟩ :
      ((Operation.runCommands "wait 1 save:w\ndebug log <entry[w].delay>" none {} false).act 10
        (Host.create {} [])).1.toBool = true ∧
      ((Operation.start 0).act 10 e₀).1.toBool = true ∧
      ((Operation.tick (some 2.0)).act 10 e₁).1.toBool = true ∧ r.1.toOption = some true ∧
        0 < e₀.queues.size := by decide +kernel
  obtain ⟨began, first, replaced, quiet, size, resides, name, residing⟩ :
      e₂.journal[1]?.any (fun s => s.queue == 1 && s.isBegin 1) = true ∧
      old[1]?.any (fun s => s.queue == 0 && s.isBegin 0) = true ∧ (e₂.queue 0).replacedBy = some 1 ∧
      Step.underway old = [] ∧ 0 < e₀.entries.size ∧ (e₀.entry 0).residing = some 0 ∧
      Executor.saveName? (Drive.calls 8) 0 e₀ = some "w" ∧ r.2.residingQueue 0 = some 1 := by decide +kernel
  have run₀ : Reachable (Host.create {} []) e₀ := .ok .first 10 (.runCommands _ none {} false) trivial ok₀
  have run₁ : Reachable (Host.create {} []) e₁ := run₀.ok 10 (.start 0) size₀ ok₁
  have run₂ : Reachable (Host.create {} []) e₂ := run₁.ok 10 (.tick (some 2.0)) trivial ok₂
  have leads : e₂.LeadsTo 0 1 := .next replaced (.here 1)
  obtain ⟨before, previous, split⟩ := Step.split_began began
  obtain ⟨before', previous', earlier⟩ := Step.split_began first
  have recorded : Step.began 0 0 before' previous' ∈ old := by
    rw [earlier]
    exact List.mem_append_right _ List.mem_cons_self
  have ran : r = (.ok true, r.2) := by
    refine Prod.ext ?_ rfl
    cases hr : r.1 with
    | ok b =>
      rw [hr] at ok
      exact congrArg Except.ok (Option.some.inj ok)
    | error f =>
      rw [hr] at ok
      cases ok
  obtain ⟨order, -, saved⟩ := entries_one_by_one run₂
  refine ⟨⟨before, previous, split⟩, leads, ?_, ?_, residing, ?_⟩
  · rw [quiet]
    exact List.not_mem_nil
  · rcases order _ _ _ _ _ _ split _ _ _ _ recorded leads with ⟨-, returned⟩ | ⟨inner, outer, under, -⟩
    · exact returned
    · rw [show Step.underway (List.drop (1 + 1) e₂.journal) = [] from quiet] at under
      cases inner <;> cases under
  · have live : e₀.Live 0 := run₀.furnished.1.tidy.based.live_of_residing size resides
    exact saved e₀ r.2 8 0 "w" run₀.furnished.1 run₀.furnished.2 live ran name 1 residing

/-- A `wait` that is over at once is saved too late: the queue in the place of its own begins the next
entry while it is still under way, and that entry does not find it. -/
theorem begun_while_waiting :
    let source := "wait 0 save:w\ndebug log <entry[w].delay>"
    let e := ((Operation.runCommands source none {} true).act 10 (Host.create {} [])).2
    let old := e.journal.drop 3
    Reachable (Host.create {} []) e ∧ e.LeadsTo 0 1 ∧
      (∃ before previous, e.journal = e.journal.take 2 ++ .began 1 1 before previous :: old) ∧
      (0, 0) ∈ Step.underway old ∧
      e.events.any (fun event => event.message.startsWith
        "Tag <entry[w].delay> is invalid: No entry was saved as 'w'") = true := by
  intro source e old
  obtain ⟨ok, replaced, began, under, missed⟩ :
      ((Operation.runCommands source none {} true).act 10 (Host.create {} [])).1.toBool = true ∧
      (e.queue 0).replacedBy = some 1 ∧
      e.journal[2]?.any (fun s => s.queue == 1 && s.isBegin 1) = true ∧ (0, 0) ∈ Step.underway old ∧
      e.events.any (fun event => event.message.startsWith
        "Tag <entry[w].delay> is invalid: No entry was saved as 'w'") = true := by decide +kernel
  exact ⟨.ok .first 10 (.runCommands source none {} true) trivial ok, .next replaced (.here 1),
    Step.split_began began, under, missed⟩

end QueueScript
