import QueueScript.Proofs.Structured.Rounds

/-!
# Marks

The entry at the end of a round finds its loop by its owner, and puts the next round in its own place or
ends the loop.  Here is what its turn leads to.
-/

namespace QueueScript

variable {P : Prop} {fuel : Nat} {seconds : Option Float} {q : QueueRef} {n mark : EntryRef}
  {X following ns : List EntryRef} {e e' : Engine} {α : Type}

namespace Commands

variable {calls : Calls}

theorem execute_of_loop (h : (e.entry n).code.handler.behaviour = .loop) :
    execute calls n e = Loop.execute calls n e := by
  rw [execute, Action.entry_bind, h]

theorem execute_of_condition (h : (e.entry n).code.handler.behaviour = .condition) :
    execute calls n e = Condition.execute calls n e := by
  rw [execute, Action.entry_bind, h]

end Commands

namespace Structured

/-! ## Up to the command of a mark -/

/-- The engine when a mark has stored what a loop counts from and how its index is called. -/
def stored (mark : EntryRef) (e : Engine) : Engine :=
  let store (key : String) (v : Value) (x : Engine) : Engine :=
    x.changeEntry mark fun y => { y with objects := y.objects.put (Text.lower key) v }
  store "as" (.str "value") (store "from" (.num 1.0) e)

/-- The engine when a mark has read its arguments, of which it has none. -/
def readMark (mark : EntryRef) (e : Engine) : Engine :=
  stored mark ((Executor.announced mark e).changeEntry mark ({ · with arguments := [] }))

section Mark

variable {calls : Calls} {script : Option ScriptRef} {line : Int}

/-- A mark has no keys. -/
theorem argument_mark (key : String) (hcode : (e.entry mark).code = .mark script line) :
    Entries.argument? calls mark key e = (.ok none, e) :=
  Entries.argument?_of_none (by rw [hcode]; rfl)

/-- A mark has one word. -/
theorem flag_mark (word : String) (hcode : (e.entry mark).code = .mark script line) :
    Entries.flag calls mark word e = (.ok ([Builtin.loopMark].contains (Text.lower word)), e) := by
  refine (Action.bind_ok (argument_mark word hcode)).trans ?_
  show (Except.ok ((e.entry mark).code.literals.contains (Text.lower word)), e) = _
  rw [hcode]
  rfl

theorem code_changeEntry {f : Entry → Entry} (hf : ∀ x, (f x).code = x.code) {code : Compiled}
    (hcode : (e.entry mark).code = code) : ((e.changeEntry mark f).entry mark).code = code :=
  (e.entry_changeEntry_keep hf mark mark).trans hcode

theorem not_stop : [Builtin.loopMark].contains (Text.lower "stop") = false := by
  decide +kernel

theorem not_next : [Builtin.loopMark].contains (Text.lower "next") = false := by
  decide +kernel

theorem go_on : [Builtin.loopMark].contains (Text.lower Builtin.loopMark) = true := by
  decide +kernel

/-- A mark is told to go on with its loop. -/
theorem isControl_mark (hcode : (e.entry mark).code = .mark script line) :
    Commands.Loop.isControl calls mark e = (.ok true, e) := by
  unfold Commands.Loop.isControl
  refine (Action.bind_ok (flag_mark "stop" hcode)).trans ?_
  rw [not_stop]
  refine (Action.bind_ok (flag_mark "next" hcode)).trans ?_
  rw [not_next]
  refine (Action.bind_ok (flag_mark Builtin.loopMark hcode)).trans ?_
  rw [go_on]
  rfl

/-- A mark parses nothing but what it does not say. -/
theorem parse_mark (hcode : (e.entry mark).code = .mark script line) (hargs : (e.entry mark).arguments = []) :
    Commands.parse calls mark e = (.ok (), stored mark e) := by
  let storeFrom (y : Entry) : Entry := { y with objects := y.objects.put (Text.lower "from") (.num 1.0) }
  let x := e.changeEntry mark storeFrom
  have hx : (x.entry mark).code = .mark script line := code_changeEntry (f := storeFrom) (fun _ => rfl) hcode
  have named : Entries.argumentText? calls mark "as" x = (.ok none, x) :=
    Action.bind_ok (argument_mark "as" hx)
  have loop : Commands.parse calls mark e = Commands.Loop.parse calls mark e := by
    rw [Commands.parse, Action.entry_bind, hcode]
    rfl
  rw [loop]
  show (Action.each (Commands.Loop.take mark) (e.entry mark).arguments >>= fun _ => _) e = _
  rw [hargs]
  have taken : Action.each (Commands.Loop.take mark) [] e = (.ok (), e) := rfl
  refine (Action.bind_ok taken).trans ((Action.bind_ok (isControl_mark hcode)).trans ?_)
  rw [if_pos rfl]
  refine (Action.bind_ok (argument_mark "from" hcode)).trans ?_
  show (Entries.argumentText? calls mark "as" >>= fun name =>
    Entries.store mark "as" (.str (name.getD "value"))) x = _
  exact Action.bind_ok named

/-- The steps of a mark up to its command. -/
theorem enter_mark (hcode : (e.entry mark).code = .mark script line) (hm : mark < e.entries.size)
    (scope : Scope) :
    Executor.enter calls mark scope e =
      (.ok (some none), stored mark (e.changeEntry mark ({ · with arguments := [] }))) := by
  let x := e.changeEntry mark ({ · with arguments := [] })
  have hx : (x.entry mark).code = .mark script line :=
    code_changeEntry (f := ({ · with arguments := [] })) (fun _ => rfl) hcode
  have resolved : Entries.resolveArguments calls mark e = (.ok [], x) := by
    show (Action.collect (Entries.resolveArgument calls mark) (e.entry mark).code.parsed >>= fun args =>
      Action.changeEntry mark ({ · with arguments := args }) >>= fun _ => pure args) e = _
    rw [hcode]
    rfl
  have parsed : Commands.parse calls mark x = (.ok (), stored mark x) :=
    parse_mark hx (congrArg Entry.arguments (e.entry_changeEntry_self hm _))
  show (Executor.prelude calls mark none (e.entry mark).code.metaArgs >>= fun p => _) e = _
  rw [hcode]
  show (Entries.resolveArguments calls mark >>= fun _ => Commands.parse calls mark >>= fun _ =>
    pure (some none)) e = _
  rw [Action.bind_ok resolved, Action.bind_ok parsed]
  rfl

/-- A mark is not refused, and then goes on with its loop. -/
theorem execute_mark (hcode : (e.entry mark).code = .mark script line) (hm : mark < e.entries.size)
    {y : Engine} (hcommand : Commands.execute calls mark (readMark mark e) = (.ok (), y)) :
    Executor.execute calls mark e = (.ok true, (Executor.leave mark none y).2) := by
  let z := e.changeEntry mark ({ · with context := e.residingQueue mark })
  let scope := z.scope mark
  have entries : (Executor.announced mark e).entries = z.entries := by
    show (z.emit (.executing (z.entry mark).code.render scope) scope).entries = z.entries
    obtain ⟨events, announced⟩ := z.emit_eq (.executing (z.entry mark).code.render scope) scope
    rw [announced]
  have hx : ((Executor.announced mark e).entry mark).code = .mark script line := by
    rw [Engine.entry_congr entries]
    exact code_changeEntry (f := ({ · with context := e.residingQueue mark })) (fun _ => rfl) hcode
  have size : mark < (Executor.announced mark e).entries.size := by
    rw [entries, Engine.size_changeEntry]
    exact hm
  have passes : Executor.isRefused (Executor.announced mark e) mark = false := by
    unfold Executor.isRefused
    rw [hx]
    rfl
  have left : Executor.leave mark none y = (.ok (), (Executor.leave mark none y).2) :=
    Prod.ext (Executor.leave_ok mark none y) rfl
  have attempted : Executor.attempt calls mark scope (Executor.announced mark e) =
      (.ok (), (Executor.leave mark none y).2) := by
    rw [Executor.attempt_eq]
    exact (Action.bind_ok (enter_mark hx size scope)).trans ((Action.bind_ok hcommand).trans left)
  show (if Executor.isRefused (Executor.announced mark e) mark then _ else Action.orElse
    (Executor.attempt calls mark scope >>= fun _ => pure true) _ : Action Bool)
      (Executor.announced mark e) = _
  rw [passes, if_neg Bool.false_ne_true]
  exact Action.orElse_ok ((Action.bind_ok attempted).trans rfl)

/-- The command of a mark goes on with its loop. -/
theorem command_mark (hcode : (e.entry mark).code = .mark script line)
    (hq : e.residingQueue mark = some q) :
    Commands.execute calls mark e = Commands.Loop.iterate mark q e := by
  have loop : Commands.execute calls mark e = Commands.Loop.execute calls mark e :=
    Commands.execute_of_loop (by rw [hcode]; rfl)
  rw [loop]
  refine (Action.bind_ok (Entries.requireQueue_eq hq)).trans ?_
  refine (Action.bind_ok (flag_mark "stop" hcode)).trans ?_
  rw [not_stop, if_neg Bool.false_ne_true]
  refine (Action.bind_ok (flag_mark "next" hcode)).trans ?_
  rw [not_next, if_neg Bool.false_ne_true]
  refine (Action.bind_ok (flag_mark Builtin.loopMark hcode)).trans ?_
  rw [go_on, if_pos rfl]

end Mark

/-- The interpreter runs a mark after the same steps. -/
theorem atMark_eq (mark : EntryRef) (act : Action α) (e : Engine) :
    atMark mark act e =
      (act >>= fun a => Entries.finish mark >>= fun _ => pure (true, a)) (readMark mark e) :=
  rfl

/-- A mark gets to its command. -/
theorem begins_readMark (t : Taken P q mark following e) :
    Begins P q mark following e (readMark mark (e.begun q mark following)) := by
  have noting := (Discipline.Apart.bookkeeping mark P).toNoting
  have jot {x : Engine} {f : Entry → Entry} (hx : Begins P q mark following e x) (hf : Entry.Jots f) :
      Begins P q mark following e (x.changeEntry mark f) :=
    hx.step (noting.jot hx.inv ⟨rfl, hx.live t⟩ hf)
  have announced := t.begins.step (Discipline.step_announced noting t.begins.inv ⟨rfl, t.live⟩)
  have asked := jot announced (f := ({ · with arguments := [] })) fun _ => ⟨_, _, _, rfl⟩
  have counted := jot asked (f := fun y => { y with
    objects := y.objects.put (Text.lower "from") (.num 1.0) }) fun _ => ⟨_, _, _, rfl⟩
  exact jot counted (f := fun y => { y with
    objects := y.objects.put (Text.lower "as") (.str "value") }) fun _ => ⟨_, _, _, rfl⟩

/-! ## The turn of a mark -/

/-- The turn of a mark leads to where the interpreter gets, if that goes on with the loop in the same
way. -/
theorem attend_mark (seconds : Option Float) (hi : (Drive.calls fuel).Isolated)
    {Q : α → Engine → Prop} (hQ : ∀ a y z, y.Remains q z → Q a y → Q a z) (t : Taken P q mark following e)
    {script : Option ScriptRef} {line : Int} (hcode : (e.entry mark).code = .mark script line)
    (hX : mark ∈ X) {act : Action α}
    (hact : ∀ x, Begins P q mark following e x → ∃ a y, act x = (.ok a, y) ∧
      Commands.Loop.iterate mark q x = (.ok (), y) ∧ x.Moves q X y ∧
      (y.queue q).last = (x.queue q).last ∧ Q a y) :
    ∃ a e', attend seconds q mark following (atMark mark act) e = (.ok a, e') ∧
      Advances P fuel seconds q X e e' ∧ Q a e' := by
  have begins := begins_readMark t
  let b := e.begun q mark following
  have code : (b.entry mark).code = .mark script line := hcode
  have size : mark < b.entries.size := t.live.1
  have executes {y : Engine} (hy : Commands.execute (Drive.calls fuel) mark (readMark mark b) = (.ok (), y)) :
      Executor.execute (Drive.calls fuel) mark b = (.ok true, (Executor.leave mark none y).2) :=
    execute_mark code size hy
  have runs := atMark_eq mark act (e.begun q mark following)
  generalize readMark mark (e.begun q mark following) = x at begins executes runs
  obtain ⟨a, y, hy, hiterate, moved, hlast, hq⟩ := hact x begins
  have code : (x.entry mark).code = .mark script line := (begins.code t).trans hcode
  have command : Commands.execute (Drive.calls fuel) mark x = (.ok (), y) := by
    rw [command_mark code (begins.residingQueue t)]
    exact hiterate
  have healthy := begins.healthy_command t hi
  rw [command] at healthy
  obtain ⟨advances, remains⟩ := begins.left t hX moved hlast healthy.1.1 (executes command)
  have unheld : (y.entry mark).code.handler.isHoldable = false := by
    rw [moved.code (begins.size t), code]
    rfl
  have left : Executor.leave mark none y =
      (.ok (), y.changeEntry mark ({ · with isFinished := true })) := by
    show (if !(y.entry mark).code.handler.isHoldable then Entries.finish mark else pure () :
      Action Unit) y = _
    rw [unheld]
    rfl
  have ran : atMark mark act (e.begun q mark following) =
      (.ok (true, a), (Executor.leave mark none y).2) := by
    rw [left, runs]
    exact Action.bind_ok hy
  exact ⟨a, _, attend_eq ran, advances, hQ _ _ _ remains hq⟩

/-! ## The next round, or the end of the loop -/

section Iterate

variable {b : Nat} {r : Rounds} {more : Nat} {index : Int}

/-- A loop has counted on. -/
theorem Round.loopOf (h : Round q b r more index ns mark e) : ∃ v, v + 1.0 = Float.ofInt (index + 1) ∧
    Commands.Loop.loopOf e mark = some (r.owner, ⟨v, r.target, r.binding.name, r.binding.before⟩) := by
  obtain ⟨v, hv, hloop⟩ := h.loop
  refine ⟨v, h.next hv, ?_⟩
  unfold Commands.Loop.loopOf
  rw [h.owned]
  show (e.entry r.owner).loop.map (r.owner, ·) = _
  rw [hloop]
  rfl

/-- The mark of a round with one to come puts that on the queue. -/
theorem Round.iterate_opens (h : Round q b r (more + 1) index ns mark e) (he : e.Healthy) :
    Commands.Loop.iterate mark q e = (.ok (), opened q r (Float.ofInt (index + 1)) e) := by
  obtain ⟨v, hv, hloop⟩ := h.loopOf
  have goes : Float.ofInt (index + 1) ≤ r.target := h.next_le.2 (Nat.succ_pos more)
  have body : Commands.Loop.body r.owner (bound q r (Float.ofInt (index + 1)) e) =
      (.ok r.body, bound q r (Float.ofInt (index + 1)) e) := by
    show (Except.ok ((bound q r (Float.ofInt (index + 1)) e).entry r.owner).firstBlock, _) = _
    rw [Entry.firstBlock, (moves_bound q r _ e).blocks h.owner_lt, ← Entry.firstBlock, h.body]
  rw [Commands.Loop.iterate_of_some hloop]
  dsimp only
  rw [hv, if_pos goes]
  exact (Action.bind_ok body).trans (injectIteration_bound r _ he.catalogue.loops h.owner_lt
    (clonable_bound q r _ (he.tidy.based.repeatable (he.tidy.owner h.owned)) h.body))

/-- The mark of the last round ends the loop. -/
theorem Round.iterate_closes (h : Round q b r 0 index ns mark e) :
    Commands.Loop.iterate mark q e = closeLoop q r (Float.ofInt (index + 1)) e := by
  obtain ⟨v, hv, hloop⟩ := h.loopOf
  have stops : ¬ Float.ofInt (index + 1) ≤ r.target := fun hle => Nat.lt_irrefl 0 (h.next_le.1 hle)
  rw [Commands.Loop.iterate_of_some hloop]
  dsimp only
  rw [hv, if_neg stops]
  rfl

/-- Giving the index back what it held before touches neither queues nor entries. -/
theorem restore_eq (q : QueueRef) (b : Binding) (e : Engine) :
    ∃ memories, b.restore q e = (.ok (), { e with memories }) := by
  unfold Binding.restore
  cases b.before with
  | none => exact ⟨_, rfl⟩
  | some v => exact ⟨_, rfl⟩

theorem closeLoop_eq (q : QueueRef) (r : Rounds) (value : Float) (e : Engine) :
    ∃ e', closeLoop q r value e = (.ok (), e') ∧ e.Moves q [r.owner] e' ∧ e'.queue q = e.queue q := by
  obtain ⟨memories, restored⟩ := restore_eq q r.binding (counted r value e)
  have moved : (counted r value e).Moves q [r.owner] { counted r value e with memories } :=
    .of_tables rfl rfl rfl rfl rfl (Nat.le_refl _)
  exact ⟨_, restored, (moves_counted q r value e).trans moved fun _ h _ => h, rfl⟩

end Iterate

section Turns

variable {b : Nat} {r : Rounds} {more : Nat} {index : Int} (hi : (Drive.calls fuel).Isolated)
  (hr : Ready P q e) (hpending : (e.queue q).pending = mark :: following)

include hr hpending

theorem Round.taken (h : Round q b r more index ns mark e) : Taken P q mark following e where
  ready := hr
  pending := hpending
  residing := h.residing
  isLocal := by
    rw [h.code]
    rfl

omit hr hpending in
theorem Round.begins {x : Engine} (h : Round q b r more index ns mark e)
    (hx : Begins P q mark following e x) : Round q b r more index ns mark x :=
  h.keep hx.apart.size hx.apart.code hx.apart.blocks hx.apart.residing hx.apart.owner (hx.apart.loop h.owner_lt)

include hi

/-- The turn of the mark of a round with one to come. -/
theorem Round.turn_opens (seconds : Option Float) (h : Round q b r (more + 1) index ns mark e) :
    ∃ ns' mark' e', attend seconds q mark following
        (atMark mark (openRound q r (Float.ofInt (index + 1)))) e = (.ok (ns', mark'), e') ∧
      Advances P fuel seconds q [r.owner, mark] e e' ∧
      (e'.queue q).pending = ns' ++ mark' :: following ∧
      Round q e.entries.size r more (index + 1) ns' mark' e' := by
  have t := h.taken hr hpending
  have within : ∀ m ∈ [r.owner], m ∈ [r.owner, mark] := fun m hm => List.mem_append_left [mark] hm
  let value := Float.ofInt (index + 1)
  let Q (a : List EntryRef × EntryRef) (z : Engine) : Prop :=
    (z.queue q).pending = a.1 ++ a.2 :: following ∧ Round q e.entries.size r more (index + 1) a.1 a.2 z
  have stays (a : List EntryRef × EntryRef) (y z : Engine) (hremains : y.Remains q z) (hq : Q a y) : Q a z :=
    ⟨hremains.pending.trans hq.1, hq.2.remains hremains⟩
  have opens (x : Engine) (hx : Begins P q mark following e x) :
      ∃ a y, openRound q r value x = (.ok a, y) ∧ Commands.Loop.iterate mark q x = (.ok (), y) ∧
        x.Moves q [r.owner, mark] y ∧ (y.queue q).last = (x.queue q).last ∧ Q a y := by
    have hround := h.begins hx
    have hqx := hx.queues t
    have hox := hround.owner_lt
    have hc := hx.healthy.catalogue.loops
    have counts := hround.toCounts.succ
    have ht := hx.healthy.tidy
    have block := ht.based.repeatable (ht.owner hround.owned)
    have newer := round_opened r value hqx hox counts (.ofInt counts.small) block hround.body
    have clonable := clonable_bound q r value block hround.body
    refine ⟨_, _, openRound_eq r value hc hox clonable, hround.iterate_opens hx.healthy,
      (moves_opened r value hqx).mono within, last_opened r value hqx, ?_,
      newer.older h.owner_lt hx.apart.size⟩
    show ((opened q r value x).queue q).pending = _
    rw [pending_opened r value hqx, hx.pending t]
  obtain ⟨⟨ns', mark'⟩, e', hturn, hadvances, hq⟩ :=
    attend_mark seconds hi stays t h.code
      (List.mem_cons_of_mem r.owner (List.mem_singleton_self mark)) opens
  exact ⟨ns', mark', e', hturn, hadvances, hq⟩

/-- The turn of the mark of the last round. -/
theorem Round.turn_closes (seconds : Option Float) (h : Round q b r 0 index ns mark e) :
    ∃ e', attend seconds q mark following
        (atMark mark (closeLoop q r (Float.ofInt (index + 1)))) e = (.ok (), e') ∧
      Advances P fuel seconds q [r.owner, mark] e e' ∧ (e'.queue q).pending = following := by
  have t := h.taken hr hpending
  have within : ∀ m ∈ [r.owner], m ∈ [r.owner, mark] := fun m hm => List.mem_append_left [mark] hm
  let value := Float.ofInt (index + 1)
  let Q (_ : Unit) (z : Engine) : Prop := (z.queue q).pending = following
  have stays (a : Unit) (y z : Engine) (hremains : y.Remains q z) (hq : Q a y) : Q a z :=
    hremains.pending.trans hq
  have closes (x : Engine) (hx : Begins P q mark following e x) :
      ∃ a y, closeLoop q r value x = (.ok a, y) ∧ Commands.Loop.iterate mark q x = (.ok (), y) ∧
        x.Moves q [r.owner, mark] y ∧ (y.queue q).last = (x.queue q).last ∧ Q a y := by
    obtain ⟨y, closed, moved, queue⟩ := closeLoop_eq q r value x
    refine ⟨(), y, closed, (h.begins hx).iterate_closes.trans closed, moved.mono within, ?_, ?_⟩
    · rw [queue]
    · exact (congrArg Queue.pending queue).trans (hx.pending t)
  obtain ⟨_, e', hturn, hadvances, hq⟩ :=
    attend_mark seconds hi stays t h.code
      (List.mem_cons_of_mem r.owner (List.mem_singleton_self mark)) closes
  exact ⟨e', hturn, hadvances, hq⟩

end Turns

end Structured

end QueueScript
