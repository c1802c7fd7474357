import QueueScript.Proofs.Upkeep.Starts

/-!
# Commands keep a property up

Most commands only take notes, fill the queue that they run on and report, so they leave the lines of
queues as they are.  Those that take entries off their queue do it while it runs them
(`Engine.Executes`).  Two commands start queues: a script starts on a new queue under a free id, and a
queue that is to wait is replaced, which the `wait` that is under way allows.  With these, every entry
that a queue begins keeps a property up (`Upheld.runsEntries`), at every level of nesting.
-/

namespace QueueScript

namespace Engine

/-- A queue that a command may have in hand: it runs, or it is registered. -/
def AtHand (e : Engine) (q : QueueRef) : Prop :=
  Drive.isActive e q = true ∨ ∃ id, e.registered? id = some q

theorem AtHand.apart {X : List EntryRef} {e e' : Engine} {q : QueueRef} (h : e.AtHand q)
    (hq : q < e.queues.size) (ha : e.Apart X e') : e'.AtHand q := by
  refine h.imp (fun hactive => ?_) fun ⟨id, hid⟩ => ⟨id, (ha.registered? id).trans hid⟩
  unfold Drive.isActive
  rw [ha.queue hq]
  exact hactive

end Engine

namespace Commands

variable {calls : Calls} {n : EntryRef} {e : Engine}

theorem execute_wait (h : (e.entry n).code.handler.behaviour = .wait) :
    execute calls n e = Wait.execute calls n e := by
  refine (Action.bind_ok (a := Action.entry n) (x := e.entry n) rfl).trans ?_
  rw [h]

theorem execute_run (h : (e.entry n).code.handler.behaviour = .run) :
    execute calls n e = Run.execute calls n e := by
  refine (Action.bind_ok (a := Action.entry n) (x := e.entry n) rfl).trans ?_
  rw [h]

end Commands

/-- Entries that are dropped from a queue that is stopped need not be dropped before. -/
theorem Queues.clear_stop {e : Engine} {q : QueueRef} (h : (e.queue q).state.isEnd = false) :
    (do Queues.clear q; Queues.stop q : Action Unit) e = Queues.stop q e := by
  let x := e.changeQueue q ({ · with pending := [] })
  have state : (x.queue q).state = (e.queue q).state :=
    e.queue_changeQueue_keep (f := ({ · with pending := [] })) (g := Queue.state) (fun _ => rfl) q q
  have stopped (y : Engine) (hy : (y.queue q).state.isEnd = false) : Queues.stop q y =
      Queues.complete q (y.changeQueue q ({ · with state := .stopped, pending := [] })) := by
    show (if (y.queue q).state.isEnd then pure () else _ : Action Unit) y = _
    rw [hy]
    rfl
  show Queues.stop q x = _
  rw [stopped x (by rw [state, h]), stopped e h]
  exact congrArg (Queues.complete q) (e.changeQueue_changeQueue q _ _)

namespace Discipline

variable {S T : Prop} {C : Engine → QueueRef → Prop} {J : Engine → Prop} {calls : Calls} {e x : Engine}
  {q : QueueRef} {n : EntryRef}

/-! ## What a command looks up -/

section Lookups

variable (hi : calls.Isolated)

include hi

/-- The queue that a delay is meant for runs or is registered. -/
theorem gives_targetAtHand (hex : x.Executes q n) :
    (apart n True).Gives x (Commands.Wait.target calls n) fun p y => p < y.queues.size ∧ y.AtHand p := by
  have hb := Apart.bookkeeping n True
  have hp := Apart.procedureSafe (n := n) (P := True) hi (.inr trivial)
  refine safe_bind (safe_argumentText? hb hp _) fun id => ?_
  have later {y : Engine} {p : QueueRef} (hp : p < y.queues.size) (h : y.AtHand p) :
      (apart n True).Gives y (pure p) fun p z => p < z.queues.size ∧ z.AtHand p :=
    gives_pure fun z _ hl => ⟨Nat.lt_of_lt_of_le hp hl.queues, h.apart hp hl⟩
  split
  · refine look_bind fun y _ hl => ?_
    have here : y.residingQueue n = some q := by
      unfold Engine.residingQueue
      rw [hl.residing hex.entry, hex.residing, Option.map_some, y.follow_self]
      rw [hl.queue hex.queue, hex.current]
    rw [here]
    exact later (Nat.lt_of_lt_of_le hex.queue hl.queues) (Engine.AtHand.apart (.inl hex.active) hex.queue hl)
  · refine look_bind fun y hy _ => ?_
    split
    · rename_i p h
      exact later (hy.1.tidy.registered?_lt h) (.inr ⟨_, h⟩)
    · exact gives_breakOff _

/-- The id that a script is to run under is free when it is looked up, and nothing that comes after
takes it. -/
theorem gives_optionsVacant (n : EntryRef) :
    (apart n True).Gives x (Commands.Run.options calls n) fun options y => y.Vacant options.id := by
  have hb := Apart.bookkeeping n True
  have hp := Apart.procedureSafe (n := n) (P := True) hi (.inr trivial)
  have rest {y : Engine} (id : Option String) (hid : y.Vacant id) :
      (apart n True).Gives y (Commands.Run.optionsUnder calls n id) fun options z => z.Vacant options.id := by
    have done (options : Scripts.RunOptions) (h : options.id = id) :
        (apart n True).Gives y (pure options) fun options z => z.Vacant options.id := by
      refine gives_pure fun z _ hl k hk => ?_
      rw [h] at hk
      exact (hl.registered? k).trans (hid k hk)
    refine safe_bind (safe_argument? hb hp _) fun given => safe_bind (safe_object? n _) fun speed => ?_
    refine safe_bind (safe_runPace hp hb n speed) fun pace => ?_
    cases given with
    | some a =>
      refine safe_bind (safe_reveal _) fun _ => ?_
      exact safe_bind (safe_pure _) fun args => done _ rfl
    | none => exact safe_bind (safe_pure _) fun args => done _ rfl
  rw [Commands.Run.options_eq]
  refine safe_bind (safe_argumentText? hb hp _) fun id => ?_
  cases id with
  | none => exact rest none nofun
  | some id =>
    refine look_bind fun y _ _ => ?_
    split
    · exact gives_bind (Q := fun _ _ => False) (gives_breakOff _) fun _ _ _ _ h => h.elim
    · rename_i hfree
      refine rest (some id) fun k hk => ?_
      cases hk
      simpa using hfree

/-- A word that a command is found to have is one of its keys or of its bare words. -/
theorem gives_flag (hn : n < x.entries.size) (word : String) :
    (apart n True).Gives x (Entries.flag calls n word) fun b _ => b = true →
      ((x.entry n).code.argument? word).isSome = true ∨
        (x.entry n).code.literals.contains (Text.lower word) = true := by
  have hb := Apart.bookkeeping n True
  have hp := Apart.procedureSafe (n := n) (P := True) hi (.inr trivial)
  refine ⟨fun y hy hl => ?_⟩
  have code := hl.code hn
  cases h : (x.entry n).code.argument? word with
  | none =>
    have found : (y.entry n).code.argument? word = none := by rw [code, h]
    rw [Entries.flag_of_unkeyed calls found, code]
    exact ⟨Step.refl hy, .inr⟩
  | some a => exact ((safe_flag hb hp word).run y hy hl).mono fun _ _ _ _ _ => .inl rfl

end Lookups

/-- What a command does first is to take notes on its entry. -/
theorem leaves_noted {α β : Type} {D : Discipline} {a : Action α} {f : α → Action β}
    {P : α → Engine → Prop} {R : β → Engine → Prop}
    (hu : ∀ {e e'}, D.le e e' → e'.underway = e.underway) (hh : x.Healthy) (hex : x.Executes q n)
    (ha : (apart n True).Gives x a P) (hs : D.Leaves x (fun _ _ => True) (a x))
    (hf : ∀ v y, D.inv y → y.Executes q n → x.Apart [n] y → P v y → D.Leaves y R (f v y)) :
    D.Leaves x R ((a >>= f) x) :=
  leaves_bindApart hh ha hs fun v y hy hl _ alone hP => hf v y hy (hex.apart alone (hu hl)) alone hP

/-! ## Commands that take entries off their queue -/

namespace Steady

variable (hJ : Upkeep S T C J) (hi : calls.Isolated) (hp : (steady J).ProcedureSafe calls)
  (hx : (steady J).inv x) (hex : x.Executes q n)

include hx hex

omit hx in
theorem mine_executes : (steady J).mine x q :=
  ⟨hex.queue, hex.current⟩

omit hx in
theorem leaves_requireQueue {β : Type} {f : QueueRef → Action β} {R : β → Engine → Prop}
    (h : (steady J).Leaves x R (f q x)) : (steady J).Leaves x R ((Entries.requireQueue n >>= f) x) := by
  rw [Action.bind_ok (Entries.requireQueue_eq hex.residingQueue)]
  exact h

include hJ

/-- A queue that runs is stopped, with its pending entries dropped before. -/
theorem leaves_clearAndStop :
    (steady J).Leaves x (fun _ _ => True) ((do Queues.clear q; Queues.stop q : Action Unit) x) := by
  rw [Queues.clear_stop (by rw [hex.running]; rfl)]
  exact leaves_stop hJ hx hex.queue

theorem leaves_stopExecute : (steady J).Leaves x (fun _ _ => True) (Commands.Stop.execute n x) :=
  leaves_requireQueue hex (leaves_clearAndStop hJ hx hex)

theorem leaves_determineExecute :
    (steady J).Leaves x (fun _ _ => True) (Commands.Determine.execute n x) := by
  have hb := bookkeeping hJ
  have hba := Apart.bookkeeping n True
  refine leaves_requireQueue hex ?_
  refine leaves_noted (·.2.underway) hx.1.healthy hex (safe_determineOutcome n)
    ((safe_determineOutcome n).run x hx ((steady J).refl x)) fun v x₁ hx₁ hex₁ _ _ => ?_
  refine leaves_noted (·.2.underway) hx₁.1.healthy hex₁ (safe_isTrue n _)
    ((safe_isTrue n _).run x₁ hx₁ ((steady J).refl x₁)) fun passively x₂ hx₂ hex₂ _ _ => ?_
  refine leaves_noted (·.2.underway) hx₂.1.healthy hex₂ (safe_describe v)
    ((safe_describe v).run x₂ hx₂ ((steady J).refl x₂)) fun _ x₃ hx₃ hex₃ _ _ => ?_
  refine leaves_noted (·.2.underway) hx₃.1.healthy hex₃ (safe_reportParsed hba n _)
    ((safe_reportParsed hb n _).run x₃ hx₃ ((steady J).refl x₃)) fun _ x₄ hx₄ hex₄ _ _ => ?_
  have determined := (safe_determine hJ hex₄.queue v).run x₄ hx₄ ((steady J).refl x₄)
  refine leaves_bind (determined.and (R := fun _ y => y.Executes q n) fun _ y h => ?_)
    fun _ x₅ hx₅ _ ⟨_, hex₅⟩ => ?_
  · have quiet := hex₄.quiet (.determine x₄ q v)
    have left := (Healthy.blocks.determine v hex₄.queue).run x₄ hx₄.1.healthy (healthy.refl x₄)
    rw [h] at quiet left
    exact quiet left.1.2.1
  · show (steady J).Leaves x₅ _ ((if passively then pure () else _ : Action Unit) x₅)
    split
    · exact ⟨Step.refl hx₅, trivial⟩
    · exact leaves_clearAndStop hJ hx₅ hex₅

/-- A loop, or a round of it, is ended early. -/
theorem leaves_drop (hl : (x.entry n).code.LeavesLoop) (count : Nat) :
    (steady J).Leaves x (fun _ _ => True) (Queues.dropFirst q count x) := by
  have healthy := (safe_dropFirst Healthy.blocks hex.queue count).run x hx.1.healthy (healthy.refl x)
  refine leaves healthy fun step => ⟨⟨?_, hJ.drop count hx.1 hx.2 hex hl⟩, ?_⟩
  · refine hx.1.fewer step.1 (x.size_changeQueue q _) (Nat.le_refl _) (fun p m hm => ?_) (fun _ => rfl)
      fun _ => .inl
    change m ∈ ((x.changeQueue q _).queue p).pending at hm
    rw [x.queue_changeQueue] at hm
    split at hm
    · exact List.mem_of_mem_drop hm
    · exact hm
  · exact .of_same rfl (x.queue_changeQueue_keep (g := Queue.replacedBy)
      (f := fun y => { y with pending := y.pending.drop count }) (fun _ => rfl) q)

include hi hp

theorem leaves_loopExecute (hloop : (x.entry n).code.handler.behaviour = .loop) :
    (steady J).Leaves x (fun _ _ => True) (Commands.Loop.execute calls n x) := by
  have hb := bookkeeping hJ
  have hw := weaving hJ
  have run {α : Type} {a : Action α} {y : Engine} (hy : (steady J).inv y) (h : (steady J).Safe y a) :
      (steady J).Leaves y (fun _ _ => True) (a y) := h.run y hy ((steady J).refl y)
  -- Entries are dropped only where the word is among those of the command.
  have early {y : Engine} {word : String} (hy : (steady J).inv y) (hey : y.Executes q n)
      (hall : x.Apart [n] y) (hword : word ∈ ["stop", "next"])
      (h : ((x.entry n).code.argument? word).isSome = true ∨
        (x.entry n).code.literals.contains (Text.lower word) = true) (stop : Bool) :
      (steady J).Leaves y (fun _ _ => True) (Commands.Loop.endEarly n q stop y) := by
    have leavesLoop : (y.entry n).code.LeavesLoop := by
      rw [hall.code hex.entry]
      exact ⟨hloop, word, hword, h⟩
    exact leaves_endEarly hb hy (mine_executes hey) (leaves_drop hJ hy hey leavesLoop) n stop
  refine leaves_requireQueue hex ?_
  refine leaves_noted (·.2.underway) hx.1.healthy hex (gives_flag hi hex.entry "stop")
    (run hx (safe_flag hb hp _)) fun stops x₁ hx₁ hex₁ alone₁ stop => ?_
  cases stops with
  | true => exact early hx₁ hex₁ alone₁ List.mem_cons_self (stop rfl) true
  | false =>
    refine leaves_noted (·.2.underway) hx₁.1.healthy hex₁ (gives_flag hi hex₁.entry "next")
      (run hx₁ (safe_flag hb hp _)) fun skips x₂ hx₂ hex₂ alone₂ next => ?_
    rw [alone₁.code hex.entry] at next
    cases skips with
    | true =>
      exact early hx₂ hex₂ (alone₁.trans alone₂) (List.mem_cons_of_mem _ List.mem_cons_self) (next rfl) false
    | false =>
      refine leaves_noted (·.2.underway) hx₂.1.healthy hex₂ (gives_flag hi hex₂.entry _)
        (run hx₂ (safe_flag hb hp _)) fun marks x₃ hx₃ hex₃ _ _ => ?_
      cases marks with
      | true => exact run hx₃ (safe_iterate hw hex₃.live (mine_executes hex₃))
      | false => exact run hx₃ (safe_startLoop hw hex₃.live (mine_executes hex₃))

end Steady

/-! ## Commands that start queues -/

namespace Upheld

variable (hJ : Upkeep S T C J) (hi : calls.Isolated) (hp : (upheld J).ProcedureSafe calls)
  (hx : (upheld J).inv x)

include hJ hi hp hx

/-- A queue is delayed, or replaced by one that is delayed. -/
theorem leaves_waitExecute (hreplace : Replaces C J calls) (hex : x.Executes q n) (hwait : x.IsWait n) :
    (upheld J).Leaves x (fun _ _ => True) (Commands.Wait.execute calls n x) := by
  have hb := bookkeeping hJ
  have hba := Apart.bookkeeping n True
  have hpa := Apart.procedureSafe (n := n) (P := True) hi (.inr trivial)
  have run {α : Type} {a : Action α} {y : Engine} (hy : (upheld J).inv y) (h : (upheld J).Safe y a) :
      (upheld J).Leaves y (fun _ _ => True) (a y) := h.run y hy ((upheld J).refl y)
  refine leaves_noted (·.2.underway) hx.1.healthy hex (safe_count n _) (run hx (safe_count n _))
    fun millis x₁ hx₁ hex₁ alone₁ _ => ?_
  refine leaves_noted (·.2.underway) hx₁.1.healthy hex₁ (gives_targetAtHand hi hex₁)
    (run hx₁ (safe_target hp hb)) fun p x₂ hx₂ hex₂ alone₂ ⟨hp₂, hand₂⟩ => ?_
  refine leaves_noted (·.2.underway) hx₂.1.healthy hex₂ (safe_flag hba hpa _)
    (run hx₂ (safe_flag hb hp _)) fun onClock x₃ hx₃ hex₃ alone₃ _ => ?_
  have hp₃ := Nat.lt_of_lt_of_le hp₂ alone₃.queues
  have hand₃ := hand₂.apart hp₂ alone₃
  refine leaves_bind (Q := fun a y => y = x₃ ∧ a = x₃.queue p) ⟨Step.refl hx₃, rfl, rfl⟩ ?_
  rintro _ _ - - ⟨rfl, rfl⟩
  refine leaves_noted (·.2.underway) hx₃.1.healthy hex₃ (safe_reportParsed hba n _)
    (run hx₃ (safe_reportParsed hb n _)) fun _ x₄ hx₄ hex₄ alone₄ _ => ?_
  have hp₄ := Nat.lt_of_lt_of_le hp₃ alone₄.queues
  have hand₄ := hand₃.apart hp₃ alone₄
  let delay := Queues.delayOf x₄ millis onClock
  rw [Action.look_bind]
  cases hpace : (Engine.queue _ p).pace with
  | timed => exact ⟨step (Steady.step_delay hJ (some delay) hx₄ hp₄), trivial⟩
  | instant =>
    have pace : (x₄.queue p).pace = .instant := by
      rw [alone₄.queue hp₃]
      exact hpace
    have alone := ((alone₁.trans alone₂).trans alone₃).trans alone₄
    refine hreplace x₄ p (some delay) hx₄ hp₄ ?_ (hex₄.delays (hwait.later alone.toKeeps hex.entry))
    rcases hand₄ with hactive | ⟨id, hid⟩
    · exact hJ.active hx₄.1 hx₄.2 hactive pace
    · exact hJ.registered hx₄.1 hx₄.2 hid pace

/-- A script starts on a queue of its own. -/
theorem leaves_runExecute (hstart : Starts S J calls) (hn : x.Live n) :
    (upheld J).Leaves x (fun _ _ => True) (Commands.Run.execute calls n x) := by
  have hb := bookkeeping hJ
  have hr := Steady.reaching hJ
  have hps := Steady.procedureSafe hi hp
  have run {α : Type} {a : Action α} {y : Engine} {Q : α → Engine → Prop} (h : (upheld J).Gives y a Q)
      (hy : (upheld J).inv y) : (upheld J).Leaves y Q (a y) := h.run y hy ((upheld J).refl y)
  have lift {α : Type} {a : Action α} {y : Engine} {Q : α → Engine → Prop} (h : (steady J).Gives y a Q)
      (hy : (upheld J).inv y) : (upheld J).Leaves y Q (a y) := leaves (h.run y hy ((steady J).refl y))
  have rest (name : String) {x : Engine} (hx : (upheld J).inv x) (hn : x.Live n) :
      (upheld J).Leaves x (fun _ _ => True) ((do
        let options ← Commands.Run.options calls n
        let q ← Scripts.prepare name options
        let queue ← Action.queue q
        Entries.store n "created_queue" (.str queue.id)
        Commands.report n [("script", name), ("queue", queue.id), ("type", queue.pace.name)]
        if (← Action.entry n).isAwaited then
          Queues.onComplete q (.finish n)
        else
          Entries.finish n
        calls.start q : Action Unit) x) := by
    refine leaves_bindApart hx.1.healthy (gives_optionsVacant hi n)
      (lift (safe_runOptions hps hr.toBookkeeping n) hx) fun options x₁ hx₁ hl₁ _ _ vacant => ?_
    have prepared := lift (gives_prepare hr.toPreparing name options) hx₁
    refine leaves_bind (prepared.and (R := fun q y => x₁.Rests y ∧ y.Startable q) fun q y h =>
      Scripts.prepare_startable vacant h) fun q x₂ hx₂ hl₂ hq => ?_
    obtain ⟨⟨-, free⟩, -, startable⟩ := hq
    have hn₂ : x₂.Live n := (upheld J).own_mono ((upheld J).trans hl₁ hl₂) hn
    let queue := x₂.queue q
    show (upheld J).Leaves x₂ _ ((do
      Entries.store n "created_queue" (.str queue.id)
      Commands.report n [("script", name), ("queue", queue.id), ("type", queue.pace.name)]
      if (← Action.entry n).isAwaited then
        Queues.onComplete q (.finish n)
      else
        Entries.finish n
      calls.start q : Action Unit) x₂)
    refine leaves_bindRests (Action.restful_changeEntry n _) (run (safe_store hb hn₂ _ _) hx₂)
      fun _ x₃ hx₃ hl₃ _ rests₃ => ?_
    refine leaves_bindRests (Action.restful_report n _) (run (safe_reportParsed hb n _) hx₃)
      fun _ x₄ hx₄ hl₄ _ rests₄ => ?_
    have hl := (upheld J).trans hl₃ hl₄
    have hn₄ : x₄.Live n := (upheld J).own_mono hl hn₂
    have startable₄ := (startable.later rests₃).later rests₄
    have start {x₅ : Engine} (hx₅ : (upheld J).inv x₅) (hl₅ : (upheld J).le x₄ x₅) (rests₅ : x₄.Rests x₅) :
        (upheld J).Leaves x₅ (fun _ _ => True) (calls.start q x₅) :=
      hstart x₅ q hx₅ ((driven J).mine_mono ((upheld J).trans hl hl₅) free) fun _ => startable₄.later rests₅
    show (upheld J).Leaves x₄ _ ((if (x₄.entry n).isAwaited then
      Queues.onComplete q (.finish n) >>= fun _ => calls.start q
      else Entries.finish n >>= fun _ => calls.start q : Action Unit) x₄)
    split
    · refine leaves_bindRests (Action.restful_await q n)
        (lift (Steady.gives_listen hJ hn₄ startable₄.here) hx₄) fun _ x₅ hx₅ hl₅ _ rests₅ => ?_
      exact start hx₅ hl₅ rests₅
    · refine leaves_bindRests (Action.restful_changeEntry n _) (run (gives_finishEntry hb hn₄) hx₄)
        fun _ x₅ hx₅ hl₅ _ rests₅ => ?_
      exact start hx₅ hl₅ rests₅
  refine leaves_bind (run (safe_element? n _) hx) fun name x₁ hx₁ hl₁ _ => ?_
  have hn₁ : x₁.Live n := (upheld J).own_mono hl₁ hn
  show (upheld J).Leaves x₁ _ ((if (x₁.scriptNamed? (name.getD "")).isNone then _ else _ : Action Unit) x₁)
  split
  · exact leaves_error nofun (Step.refl hx₁)
  · exact rest _ hx₁ hn₁

/-! ## Entries -/

/-- Every command keeps a property up. -/
theorem leaves_command (hstart : Starts S J calls) (hreplace : Replaces C J calls)
    (hex : x.Executes q n) :
    (upheld J).Leaves x (fun _ _ => True) (Commands.execute calls n x) := by
  have hr := Steady.reaching hJ
  have hw := Steady.weaving hJ
  have hps := Steady.procedureSafe hi hp
  have run {a : Action Unit} (h : (steady J).Safe x a) : (steady J).Leaves x (fun _ _ => True) (a x) :=
    h.run x hx ((steady J).refl x)
  by_cases hwait : (x.entry n).code.handler.behaviour = .wait
  · rw [Commands.execute_wait hwait]
    exact leaves_waitExecute hJ hi hp hx hreplace hex hwait
  by_cases hrun : (x.entry n).code.handler.behaviour = .run
  · rw [Commands.execute_run hrun]
    exact leaves_runExecute hJ hi hp hx hstart hex.live
  refine leaves (leaves_commandsExecute hr hps hx hex.live
    (fun _ => Steady.leaves_determineExecute hJ hx hex) (fun _ => Steady.leaves_stopExecute hJ hx hex)
    (fun _ => run (safe_conditionExecute hw hps hex.live))
    (Steady.leaves_loopExecute hJ hi hps hx hex) (fun h => absurd h hwait) (fun h => absurd h hrun)
    fun command _ => run (safe_hostExecute hr hw hex.live command))

omit hJ hi hp hx in
theorem step_begun (he : e.Healthy) (hq : q < e.queues.size) {rest : List EntryRef}
    (hpend : (e.queue q).pending = n :: rest) : healthy.Step e (e.begun q n rest) := by
  have hn : e.Live n := he.tidy.pending q n (by rw [hpend]; exact List.mem_cons_self)
  let x := e.changeQueue q ({ · with pending := rest })
  have taken := (Healthy.blocks.emptying.take he hq hpend).1
  have noted := Healthy.note taken.1 (.began q n (x.queue q) ((x.queue q).last.map x.entry))
  exact taken.trans (noted.trans (Healthy.last noted.1 q hn))

omit hi hp hx in
/-- A queue begins its first pending entry. -/
theorem inv_begun (he : (upheld J).inv e) (hq : e.Free q) {rest : List EntryRef}
    (hpend : (e.queue q).pending = n :: rest) (ha : Drive.isActive e q = true) :
    (upheld J).inv (e.begun q n rest) := by
  have begun := step_begun he.1.healthy hq.here hpend
  have size : (e.begun q n rest).queues.size = e.queues.size :=
    (Engine.size_changeQueue _ q _).trans (e.size_changeQueue q _)
  have hmem : n ∈ (e.queue q).pending := by
    rw [hpend]
    exact List.mem_cons_self
  refine ⟨he.1.fewer begun.1 size (Nat.le_refl _) (fun p m hm => ?_) (fun _ => rfl) fun s hs => ?_,
    hJ.begins he.1 he.2 hq hpend ha⟩
  · by_cases hp : p = q
    · rw [hp] at hm ⊢
      have hm : m ∈ rest := by rwa [e.queue_begun hq.here n rest] at hm
      rw [hpend]
      exact List.mem_cons_of_mem _ hm
    · rwa [← e.queue_begun_of_ne hp n rest]
  · rcases List.mem_cons.1 hs with rfl | hs
    · exact .inr ⟨hq.here, (he.1.healthy.tidy.pending q n hmem).1⟩
    · exact .inl hs

omit hx in
/-- The entries that queues begin keep a property up, if deeper levels of nesting do. -/
theorem runsEntries (hstart : Starts S J calls) (hreplace : Replaces C J calls) :
    (driven J).RunsEntries calls := by
  intro e q n rest he hq hpend ha _ _
  have begun := step_begun he.1.healthy hq.here hpend
  let y := e.begun q n rest
  have hy : (upheld J).inv y := inv_begun hJ he hq hpend ha
  have hex : y.Executes q n := .begun he.1 hq.here hpend ha
  have executed : (upheld J).Leaves y (fun _ _ => True) (Executor.execute calls n y) := by
    refine leaves_executeApart (bookkeeping hJ) hp hi hy hex.live hy.1.healthy hex.live
      fun x _ _ hx alone _ => ?_
    exact leaves_command hJ hi hp hx.1 hstart hreplace (hex.apart alone hx.2.2.underway)
  have unfolded : Drive.runEntry calls q n (e.changeQueue q ({ · with pending := rest })) =
      (Executor.execute calls n >>= fun ran => do
        Drive.note (.returned q n ran)
        pure ran) y := rfl
  rw [unfolded]
  match hr : Executor.execute calls n y with
  | (.error f, x) =>
    rw [Action.bind_error hr]
    cases (Executor.sure_execute calls n).on y f (congrArg Prod.fst hr)
    trivial
  | (.ok ran, x) =>
    rw [Action.bind_ok hr]
    rw [hr] at executed
    obtain ⟨⟨hx, kept, onward⟩, -⟩ := executed
    have noted := Healthy.note hx.1.healthy (.returned q n ran)
    have traced : q < x.queues.size ∧ n < x.entries.size :=
      ⟨Nat.lt_of_lt_of_le hex.queue kept.1.queues, Nat.lt_of_lt_of_le hex.entry kept.1.entries⟩
    refine ⟨⟨⟨?_, hJ.back q n ran hx.2⟩, ?_, ?_⟩, trivial⟩
    · refine hx.1.fewer noted.1 rfl (Nat.le_refl _) (fun _ _ h => h) (fun _ => rfl) fun s hs => ?_
      rcases List.mem_cons.1 hs with rfl | hs
      · exact .inr traced
      · exact .inl hs
    · exact healthy.trans begun.2 (healthy.trans kept noted.2)
    · refine ⟨fun {p t} ht hl => ?_, ?_⟩
      · have here : t < y.queues.size := Nat.lt_of_lt_of_le ht begun.2.1.queues
        have before : y.LeadsTo p t := onward.leads here (hl.same fun _ => rfl)
        exact before.same fun p => (e.queue_begun_keep q n rest (g := Queue.replacedBy) (fun _ _ => rfl)
          (fun _ _ => rfl) p).symm
      · show x.underway.erase (q, n) = _
        rw [onward.underway]
        exact List.erase_cons_head (q, n) e.underway

omit hi hp hx in
/-- What entries set going keeps a property up, at every level of nesting. -/
theorem calls_upheld (fuel : Nat) :
    (upheld J).ProcedureSafe (Drive.calls fuel) ∧ Starts S J (Drive.calls fuel) ∧
      Replaces C J (Drive.calls fuel) := by
  induction fuel with
  | zero =>
    refine ⟨fun _ _ _ => gives_exhausted, fun e q he _ _ => Lenient.inv_cut he,
      fun e q d he hq _ _ => ?_⟩
    obtain ⟨x, replace, -⟩ := e.replaceByTimed_replaces d hq
    have cut : (do
        let t ← Queues.replaceByTimed q d
        (Drive.calls 0).start t : Action Unit) e = (.error .exhausted, x) := Action.bind_ok replace
    rw [cut]
    trivial
  | succ fuel ih =>
    obtain ⟨hp, hstart, hreplace⟩ := ih
    have runs : (driven J).RunsEntries (Drive.calls fuel) :=
      runsEntries hJ (Drive.isolated_calls fuel) hp hstart hreplace
    refine ⟨fun _ name args => ⟨fun e he _ => leaves_runProcedure hJ runs fuel name args he⟩,
      fun e q he hq hs => ?_, fun e q d he hq hc hd => ?_⟩
    · exact leaves_start hJ runs he hq (fun s _ => (hs s).free) fuel
    · exact leaves_replace hJ runs he hq hc hd d fuel

omit hi hp hx in
theorem calls_runsEntries (fuel : Nat) : (driven J).RunsEntries (Drive.calls fuel) := by
  obtain ⟨hp, hstart, hreplace⟩ := calls_upheld hJ fuel
  exact runsEntries hJ (Drive.isolated_calls fuel) hp hstart hreplace

end Upheld

end Discipline

end QueueScript
