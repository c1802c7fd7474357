import QueueScript.Proofs.Looping.Laws
import QueueScript.Proofs.Looping.Parsing
import QueueScript.Proofs.LoopMarks

/-!
# Entries that queues begin give loops their turns

An entry that a queue begins leaves all loops alone up to its command.  The command of a loop gives it its
first turn, and that of a mark the next one, in the place of the one before.  All other commands leave loops
alone, also those that put a block on a queue.  So in every run in which marks are left to loops, every loop
that has begun has had its turns (`Runs.rounding`).
-/

namespace QueueScript

open Structured (Rounds)

/-! ## Arguments when a loop starts -/

/-- A loop that has come to its command has stored what it was asked for. -/
theorem Executor.asked_enter {calls : Calls} {n : EntryRef} {scope : Scope} {saveAs : Option String}
    {x z : Engine} (hi : calls.Isolated) (hx : x.Healthy) (hn : x.Live n)
    (hloop : (x.entry n).code.handler.behaviour = .loop)
    (h : Executor.enter calls n scope x = (.ok (some saveAs), z)) : ∃ first, z.Asked n first := by
  rw [Executor.enter, Action.entry_bind] at h
  obtain ⟨p, y, prelude, h⟩ := Action.ok_of_bind h
  have safe : (Discipline.apart n True).Safe x (Executor.prelude calls n none (x.entry n).code.metaArgs) :=
    Discipline.safe_prelude (Discipline.Apart.bookkeeping n True).toNoting
      (Discipline.Apart.procedureSafe hi (.inr trivial)) ⟨rfl, hn⟩ none _
  have run := safe.run x ⟨hx, fun _ => trivial⟩ (.refl _ x)
  rw [prelude] at run
  have apart : x.Apart [n] y := run.1.2
  have hny : y.Live n := apart.live hn
  cases p with
  | skip outcome =>
    obtain ⟨_, y₁, -, h⟩ := Action.ok_of_bind h
    obtain ⟨_, y₂, -, h⟩ := Action.ok_of_bind h
    cases h
  | run saveAs' =>
    obtain ⟨args, y₁, resolved, h⟩ := Action.ok_of_bind h
    obtain ⟨_, y₂, parsed, h⟩ := Action.ok_of_bind h
    cases h
    obtain ⟨-, noted, -, -⟩ := Entries.resolveArguments_eq hi run.1.1.1 hny resolved
    have isLoop : (y₁.entry n).code.handler.behaviour = .loop := by
      rw [noted.code hny.1, apart.code hn.1]
      exact hloop
    rw [Commands.parse, Action.entry_bind, isLoop] at parsed
    obtain ⟨first, _, stores⟩ := Commands.Loop.parse_stores hi run.1.1.1 hny resolved parsed
    exact ⟨first, stores.asked⟩

namespace Structured

/-- Up to its command a mark only takes notes. -/
theorem step_readMark {D : Discipline} {e : Engine} {n : EntryRef} (hb : D.Noting) (he : D.inv e)
    (hn : D.own e n) : D.Step e (readMark n e) := by
  have announced := Discipline.step_announced hb he hn
  have jot {x : Engine} {f : Entry → Entry} (hx : D.Step e x) (hf : Entry.Jots f) :
      D.Step e (x.changeEntry n f) :=
    hx.trans (hb.jot hx.1 (D.own_mono hx.2 hn) hf)
  have asked := jot announced (f := ({ · with arguments := [] })) fun _ => ⟨_, _, _, rfl⟩
  have counted := jot asked (f := fun y => { y with
    objects := y.objects.put (Text.lower "from") (.num 1.0) }) fun _ => ⟨_, _, _, rfl⟩
  exact jot counted (f := fun y => { y with
    objects := y.objects.put (Text.lower "as") (.str "value") }) fun _ => ⟨_, _, _, rfl⟩

end Structured

namespace Engine

variable {X : List EntryRef} {e e' : Engine} {q : QueueRef} {n m : EntryRef} {r : Option EntryRef}
  {first : Option Argument}

theorem Asked.same_entry (h : e.Asked n first) (hn : e'.entry n = e.entry n) : e'.Asked n first := by
  constructor
  · rw [hn]
    exact h.quantity
  · rw [hn]
    exact h.from_

/-- A queue runs an entry that was taken off it, and that has not begun a loop. -/
structure OnTurn (q : QueueRef) (n : EntryRef) (r : Option EntryRef) (e : Engine) : Prop
    extends e.Heads q n r where
  idle : (e.entry n).loop = none
  off : n ∉ (e.queue q).pending

theorem OnTurn.apart (h : e.OnTurn q n r) (ht : e.Tidy) (ha : e.Apart X e') : e'.OnTurn q n r where
  toHeads := h.toHeads.apart ht ha
  idle := (ha.loop h.entry).trans h.idle
  off := by
    rw [ha.queue h.queue]
    exact h.off

theorem OnTurn.not_pending {K : Catalogue} (h : e.OnTurn q n r) (hl : e.Looped K) (p : QueueRef) :
    n ∉ (e.queue p).pending := by
  intro hp
  have here : p = q := Option.some.inj ((hl.residing hp).symm.trans h.residing)
  exact h.off (here ▸ hp)

/-- A loop that has not begun owns no entries. -/
theorem Rounding.childless (hr : e.Rounding none) (hidle : (e.entry n).loop = none) (hloop : e.isLoop n = true)
    (hm : m < e.entries.size) : (e.entry m).owner ≠ some n := by
  intro ho
  cases (congrArg Option.isSome hidle).symm.trans (hr.owned hm ho hloop)

/-- Entries that were not made yet were not begun. -/
theorem Looped.unbegun {K : Catalogue} {k : EntryRef} (h : e.Looped K) (hk : e.entries.size ≤ k) :
    e.Unbegun k := by
  intro p before previous hj
  obtain ⟨s, nested⟩ := h.began hj
  have hlt : k < e.entries.size := by
    cases nested with
    | entry hsize _ _ _ => exact hsize
    | mark hsize _ _ _ _ _ _ => exact hsize
  exact Nat.not_lt.2 hk hlt

/-- Clones of the entries in a block of an entry that is no loop are put on a queue. -/
theorem Calm.injected {xs : List Entry} (ht : e.Tidy) (hq : q < e.queues.size) (hn : n < e.entries.size)
    (hl : e.isLoop n = false) (hx : ∀ x ∈ xs, x.loop = none ∧ x.isLoopMark = false) :
    e.Calm (e.injected n q false xs) := by
  let ys := xs.map fun x => { e.placed q (e.child n x) with forcedInstant := false }
  have length : ys.length = xs.length := List.length_map _
  have fills : e.Fills q [] ys (List.range' e.entries.size xs.length ++ ·) := by
    refine ⟨fun y hy => ?_, ?_, fun hle _ => ?_⟩
    · obtain ⟨x, -, rfl⟩ := List.mem_map.1 hy
      rfl
    · rw [e.grown_nil, length]
      exact List.perm_append_comm
    · rwa [e.grown_nil]
  have calm : e.Calm ((e.grown []).put q ys (List.range' e.entries.size xs.length ++ ·)) := by
    refine .filled ht hq fills (fun x hx => by cases hx) fun y hy => ?_
    obtain ⟨x, mem, rfl⟩ := List.mem_map.1 hy
    refine ⟨(hx x mem).1, (hx x mem).2, fun k hk => ?_⟩
    cases hk
    exact ⟨hn, hl⟩
  rwa [e.grown_nil] at calm

/-- The queue comes back from an entry. -/
theorem Rounding.returned {ran : Bool} (h : e.Rounding none) :
    Rounding none { e with journal := .returned q n ran :: e.journal } where
  furnished := ⟨h.furnished.memory, h.furnished.list⟩
  nodup := h.nodup
  idle := h.idle
  owned := h.owned
  turned {m} hm ho hl hb := by
    obtain ⟨first, ts, t, turned, awaits⟩ := h.turned hm ho hl hb
    have still : e.Still m { e with journal := .returned q n ran :: e.journal } :=
      ⟨Nat.le_refl _, fun _ => rfl, fun _ => rfl, rfl, rfl, fun _ _ => rfl,
        fun hn hn' => absurd hn' (Nat.not_lt.2 hn), rfl⟩
    refine ⟨first, ts, t, .still turned still, awaits.only, fun hk p before previous hj => ?_⟩
    rcases List.mem_cons.1 hj with hj | hj
    · cases hj
    · exact awaits.unbegun hk p before previous hj

end Engine

namespace Discipline

open Discipline.Furnished (furnished)

namespace Looping

variable {α β : Type} {K : Catalogue} (hK : K.Native) {calls : Calls} {e : Engine} {q : QueueRef}
  {n : EntryRef} {r : Option EntryRef}

include hK

omit hK in
/-- What a command does before it comes to its blocks: it takes notes, and the entry stays on its turn. -/
theorem leaves_noted {a : Action α} {f : α → Action β} {P : α → Prop} {R : β → Engine → Prop}
    (hi : calls.Isolated) (hp : (looping K).ProcedureSafe calls) (he : (looping K).inv e) (h : e.OnTurn q n r)
    (ha : ∀ {D : Discipline} {e₀ : Engine}, D.Bookkeeping → D.ProcedureSafe calls → D.own e₀ n →
      D.mine e₀ q → D.Gives e₀ a fun x _ => P x)
    (hf : ∀ x e₁, P x → (looping K).inv e₁ → e₁.OnTurn q n r → e.Apart [n] e₁ →
      (looping K).Leaves e₁ R (f x e₁)) :
    (looping K).Leaves e R ((a >>= f) e) := by
  have alone : (apart n True).Gives e a fun x _ => P x := ha (Apart.bookkeeping n True)
    (Apart.procedureSafe hi (.inr trivial)) ⟨rfl, h.live⟩ trivial
  have kept : (looping K).Gives e a fun x _ => P x := ha bookkeeping hp h.live h.queue
  refine leaves_bindApart he.1.1 alone (kept.run e he ((looping K).refl e))
    fun x e₁ he₁ _ hx apart _ => ?_
  exact hf x e₁ hx he₁ (h.apart he.1.1.tidy apart) apart

omit hK in
/-- What a command only reads leaves the entry on its turn as it is. -/
theorem leaves_read {a : Action α} {f : α → Action β} {R : β → Engine → Prop}
    (hi : calls.Isolated) (hp : (looping K).ProcedureSafe calls) (he : (looping K).inv e) (h : e.OnTurn q n r)
    (ha : ∀ {D : Discipline} {e₀ : Engine}, D.Noting → D.ProcedureSafe calls → D.Safe e₀ a)
    (hf : ∀ x e₁, (looping K).inv e₁ → e₁.OnTurn q n r → e₁.entry n = e.entry n →
      (looping K).Leaves e₁ R (f x e₁)) :
    (looping K).Leaves e R ((a >>= f) e) := by
  have alone : (apart e.entries.size True).Safe e a := ha (Apart.bookkeeping _ True).toNoting
    (Apart.procedureSafe hi (.inr trivial))
  have kept : (looping K).Safe e a := ha bookkeeping.toNoting hp
  refine leaves_bindApart he.1.1 alone (kept.run e he ((looping K).refl e))
    fun x e₁ he₁ _ _ apart _ => ?_
  exact hf x e₁ he₁ (h.apart he.1.1.tidy apart) (apart.entry_eq h.entry)

omit hK in
/-- A command leaves an engine as far as nesting goes; the rest is shown of the engine that it leaves. -/
theorem leaves_also {a : Action α} {Q : α → Engine → Prop} (he : (looping K).inv e)
    (hn : (nest K).Leaves e Q (a e)) (hf : furnished.Safe e a)
    (h : (a e).1 ≠ .error .exhausted → (a e).2.Furnished → (a e).2.Rounding none) :
    (looping K).Leaves e Q (a e) :=
  hn.also fun hx => h hx ((hf.run e (furnished_inv he) (furnished.refl e)).step hx).1.2

/-! ## Conditions -/

section Commands

variable (hi : calls.Isolated) (hp : (looping K).ProcedureSafe calls)

include hi hp

theorem leaves_condition (he : (looping K).inv e) (h : e.OnTurn q n r) (hl : e.isLoop n = false) :
    (looping K).Leaves e (fun _ _ => True) (Commands.Condition.execute calls n e) := by
  let bs := (e.entry n).blocks
  rw [Commands.Condition.execute_of_residing h.residingQueue]
  refine leaves_noted hi hp he h (fun hb hp _ _ => gives_choose hb hp 0 bs)
    fun chosen e₁ hchosen he₁ h₁ alone => ?_
  cases chosen with
  | none => exact (safe_reportParsed bookkeeping.toNoting n _).run e₁ he₁ ((looping K).refl e₁)
  | some chosen =>
    obtain ⟨index, b⟩ := chosen
    refine leaves_noted (P := fun _ => True) hi hp he₁ h₁ (fun hb _ _ _ => safe_reportParsed hb n _)
      fun _ e₂ _ he₂ h₂ alone₂ => ?_
    have same : (e₂.entry n).blocks = bs := (alone.trans alone₂).blocks h.entry
    have hb : b ∈ (e₂.entry n).blocks := same ▸ hchosen index b rfl
    have plain := ((alone.trans alone₂).roots.isLoop h.entry).trans hl
    have stock : ∀ k ∈ b.body, healthy.Stock e₂ k := fun k hk =>
      Nest.stock_inner he₂.1 h₂.live (Entry.mem_inner hb hk)
    have clonable := he₂.1.1.tidy.based.clonable fun k hk => (stock k hk).base
    have unmarked : ∀ k ∈ b.body, (e₂.entry k).isLoopMark = false := fun k hk =>
      (he₂.1.2.unmarked_inner hK he₂.1.1.tidy h₂.live (Entry.mem_inner hb hk)).isMark
    have safe : furnished.Safe e₂ (do Queues.inject q (← Entries.spawn n b.body)) :=
      safe_injectBlock Furnished.enduring.blocks h₂.live h₂.queue fun k hk => { stock k hk with }
    refine leaves_also he₂ (Nest.leaves_block hK he₂.1 h₂.toHeads plain hb) safe fun hx hf => ?_
    have healthy := Nest.step_healthy ((Nest.leaves_block hK he₂.1 h₂.toHeads plain hb).step hx)
    rw [e₂.inject_spawn n q clonable] at hf healthy ⊢
    refine he₂.2.calm he₂.1.1 healthy (.injected he₂.1.1.tidy h₂.queue h₂.entry plain fun x hx => ?_) hf
    obtain ⟨k, hk, rfl⟩ := List.mem_map.1 hx
    exact ⟨(clonable k hk).2.loop, unmarked k hk⟩

/-! ## Loops -/

omit hp in
/-- The command of a loop gives it its first turn, unless it has no rounds or nothing to repeat. -/
theorem leaves_start (hpn : (nest K).ProcedureSafe calls) (he : (looping K).inv e) (h : e.OnTurn q n r)
    (hl : e.isLoop n = true) {first : Option Argument} (hasked : e.Asked n first) :
    (looping K).Leaves e (fun _ _ => True) (Commands.Loop.start n q e) := by
  have safe : furnished.Safe e (Commands.Loop.start n q) :=
    safe_startLoop (Blocks.weaving Furnished.enduring.blocks) h.live h.queue
  have nested := Nest.leaves_startLoop hK he.1 hi hpn h.toHeads hl
  refine leaves_also he nested safe fun hx hf => ?_
  have healthy := Nest.step_healthy (nested.step hx)
  have loops : e.catalogue.find? "repeat" = some Builtin.loop.handler := by
    rw [he.1.2.catalogue]
    exact hK.loops
  have repeatable := he.1.1.tidy.based.repeatable h.live
  obtain ⟨events, started⟩ := Commands.Loop.start_eq loops h.entry repeatable q
  have shown : e.Calm { e with events } := .of_level (.of_tables rfl rfl rfl rfl rfl)
  have same : Engine.Furnished { e with events } := ⟨he.2.furnished.memory, he.2.furnished.list⟩
  by_cases hle : e.countOf n "quantity" ≤ 0.0
  · rw [started, if_pos hle] at healthy ⊢
    exact he.2.calm he.1.1 healthy shown same
  rw [if_neg hle] at started
  cases hbody : (e.entry n).code.firstBlock.isEmpty with
  | true =>
    rw [hbody, if_pos rfl] at started
    rw [started] at healthy ⊢
    exact he.2.calm he.1.1 healthy shown same
  | false =>
    rw [hbody, if_neg Bool.false_ne_true] at started
    have atStart : e.AtStart q n first := {
      queue := h.queue
      memory := he.2.furnished.memory h.queue
      entry := h.entry
      isLoop := hl
      catalogue := loops
      idle := h.idle
      repeatable
      childless := fun hm => he.2.childless h.idle hl hm
      asked := hasked }
    obtain ⟨y, hy⟩ : ∃ y, Structured.opened q (e.roundsAsked n q) (e.countOf n "from") { e with events } = y :=
      ⟨_, rfl⟩
    rw [hy] at started
    rw [started] at hf ⊢
    have opened : Turn.Acts ⟨q, e, y⟩ (e.roundsAsked n q) (e.countOf n "from") :=
      .inl ⟨repeatable, rfl, events, hy.symm⟩
    have begun : (y.entry n).loop.isSome = true := congrArg Option.isSome (opened.loop h.entry)
    have turned : y.Turned n first ([] ++ [⟨q, e, y⟩]) := .start atStart started begun
    exact (he.2.except n).acts he.1.1.tidy h.live opened h.queue hf turned
      (fun k hk => (he.1.2.unmarked_inner hK he.1.1.tidy h.live (Entry.mem_inner_of_firstBlock hk)).isMark)
      (fun k hk => he.1.2.unbegun hk) (fun p => h.not_pending he.1.2 p)
      fun p k hk _ => he.2.childless h.idle hl (he.1.1.tidy.pending p k hk).1

/-- The command of a loop that is no mark ends a loop or a round, or gives the loop its first turn. -/
theorem leaves_loop (hpn : (nest K).ProcedureSafe calls) (he : (looping K).inv e) (h : e.OnTurn q n r)
    (hl : e.isLoop n = true) (hmark : (e.entry n).isLoopMark = false) {first : Option Argument}
    (hasked : e.Asked n first) :
    (looping K).Leaves e (fun _ _ => True) (Commands.Loop.execute calls n e) := by
  have ends (stop : Bool) {x : Engine} (hx : (looping K).inv x) (hq : q < x.queues.size) :
      (looping K).Leaves x (fun _ _ => True) (Commands.Loop.endEarly n q stop x) :=
    leaves_endEarly bookkeeping hx hq
      (fun count => (emptying.drop count hq).run x hx ((looping K).refl x)) n stop
  have reads : (e.entry n).code.readsMark = false := by
    rcases he.1.2.unmarked hK he.1.1.tidy h.live with hu | ⟨k, hk, -⟩
    · exact hu.readsMark hl
    · unfold Entry.isLoopMark at hmark
      rw [hk] at hmark
      cases hmark
  have unfolded : Commands.Loop.execute calls n e = (do
      if ← Entries.flag calls n "stop" then Commands.Loop.endEarly n q true
      else if ← Entries.flag calls n "next" then Commands.Loop.endEarly n q false
      else if ← Entries.flag calls n Builtin.loopMark then Commands.Loop.iterate n q
      else Commands.Loop.start n q : Action Unit) e :=
    Action.bind_ok (Entries.requireQueue_eq h.residingQueue)
  rw [unfolded]
  refine leaves_read hi hp he h (fun hb hp => safe_flag hb hp _) fun stop e₁ he₁ h₁ same₁ => ?_
  cases stop with
  | true => exact ends true he₁ h₁.queue
  | false =>
    refine leaves_read hi hp he₁ h₁ (fun hb hp => safe_flag hb hp _) fun next e₂ he₂ h₂ same₂ => ?_
    cases next with
    | true => exact ends false he₂ h₂.queue
    | false =>
      have same := same₂.trans same₁
      have reads₂ : (e₂.entry n).code.readsMark = false := by rw [same, reads]
      show (looping K).Leaves e₂ _ ((Entries.flag calls n Builtin.loopMark >>= fun goes =>
        if goes then Commands.Loop.iterate n q else Commands.Loop.start n q) e₂)
      rw [Action.bind_ok (Nest.flag_mark reads₂)]
      refine leaves_start hK hi hpn he₂ h₂ ?_ (hasked.same_entry same)
      unfold Engine.isLoop
      rw [same]
      exact hl

/-- The command of an entry that is no mark. -/
theorem leaves_command (hpn : (nest K).ProcedureSafe calls) (hs : (looping K).StartSafe calls)
    (he : (looping K).inv e) (h : e.OnTurn q n r) (hmark : (e.entry n).isLoopMark = false)
    (hasked : (e.entry n).code.handler.behaviour = .loop → ∃ first, e.Asked n first) :
    (looping K).Leaves e (fun _ _ => True) (Commands.execute calls n e) := by
  have hr := outreach hK
  have run {a : Action Unit} {Q : Unit → Engine → Prop} (ha : (looping K).Gives e a Q) :
      (looping K).Leaves e (fun _ _ => True) (a e) :=
    (ha.run e he ((looping K).refl e)).mono fun _ _ _ _ => trivial
  refine leaves_commandsExecute hr.toReaching hp he h.live
    (fun _ => run (safe_determineExecute hr.toFilling emptying h.live))
    (fun _ => run (safe_stopExecute hr.toFilling emptying h.live)) (fun hb => ?_) (fun hb => ?_)
    (fun _ => run (safe_waitExecute hr hp hs h.live))
    (fun _ => run (gives_runExecute hr hp hs h.live)) fun command hb => ?_
  · refine leaves_condition hK hi hp he h ?_
    unfold Engine.isLoop
    rw [hb]
    rfl
  · obtain ⟨first, asked⟩ := hasked hb
    refine leaves_loop hK hi hp hpn he h ?_ hmark asked
    unfold Engine.isLoop
    rw [hb]
    rfl
  · have none : (e.entry n).code.handler.behaviour.isHost = false := by
      rcases he.1.2.unmarked hK he.1.1.tidy h.live with hu | ⟨k, hk, -⟩
      · exact hu.isHost
      · rw [hk]
        rfl
    rw [hb] at none
    cases none

end Commands

/-! ## Marks -/

omit hK in
theorem furnished_begun {rest : List EntryRef} (h : e.Furnished) : (e.begun q n rest).Furnished := by
  refine h.same ?_ (e.queue_begun_keep q n rest (fun _ _ => rfl) fun _ _ => rfl)
    (e.queue_begun_keep q n rest (fun _ _ => rfl) fun _ _ => rfl) (Nat.le_refl _) (Nat.le_refl _)
  exact (Engine.size_changeQueue _ q _).trans (e.size_changeQueue q _)

/-- A mark that its loop waits for gives it its next turn. -/
theorem rounding_iterate {x : Engine} {m : EntryRef} {first : Option Argument} {ts : List Turn} {t : Turn}
    (hx : (nest K).inv x) (hr : x.Rounding (some m)) (hq : q < x.queues.size) (hn : x.Live n)
    (hm : x.Live m) (turned : x.Turned m first (ts ++ [t])) (mark : t.mark? = some n)
    (hnone : ∀ p k, k ∈ (x.queue p).pending → (x.entry k).isLoopMark = true → (x.entry k).owner ≠ some m) :
    ∃ y, Commands.Loop.iterate n q x = (.ok (), y) ∧ y.Rounding none ∧ y.Healthy ∧ y.Live n ∧
      (y.entry n).code = (x.entry n).code := by
  obtain ⟨s, y, hs, iterated, acts⟩ :=
    turned.rounded.iterate (List.mem_append_right _ (List.mem_singleton_self t)) mark q
  have further : y.Turned m first ((ts ++ [t]) ++ [⟨q, x, y⟩]) := by
    rw [List.append_assoc]
    exact .turn turned hq (hr.furnished.memory hq) mark iterated
  have acts : Turn.Acts ⟨q, x, y⟩ (x.roundsLeft m s) (s.index + 1.0) := acts.imp And.right And.right
  have safe : furnished.Safe x (Commands.Loop.iterate n q) :=
    safe_iterate (Blocks.weaving Furnished.enduring.blocks) hn hq
  have furnished := safe.run x ⟨hx.1, hr.furnished⟩ (furnished.refl x)
  rw [iterated] at furnished
  have moved := acts.moves hq
  refine ⟨y, iterated, ?_, furnished.1.1.1, moved.live hn, moved.code hn.1⟩
  refine hr.acts (t := ⟨q, x, y⟩) (r := x.roundsLeft m s) hx.1.tidy hm acts hq furnished.1.1.2 further
    (fun k hk => (hx.2.unmarked_inner hK hx.1.tidy hm (Entry.mem_inner_of_firstBlock hk)).isMark)
    (fun k hk => hx.2.unbegun hk) (fun p hp => ?_) hnone
  cases (hr.idle hp).symm.trans hs

omit hK in
/-- No further mark of its loop is pending where a mark was begun. -/
theorem unmarked_begun {rest : List EntryRef} {m : EntryRef} (hr : e.Rounding none) (hq : q < e.queues.size)
    (hp : (e.queue q).pending = n :: rest)
    (only : ∀ p k, k ∈ (e.queue p).pending → (e.entry k).isLoopMark = true → (e.entry k).owner = some m →
      p = q ∧ k = n) (p : QueueRef) (k : EntryRef) (hk : k ∈ ((e.begun q n rest).queue p).pending)
    (hmark : (e.entry k).isLoopMark = true) : (e.entry k).owner ≠ some m := by
  intro ho
  have nodup := hr.nodup q
  rw [hp] at nodup
  by_cases hpq : p = q
  · rw [hpq, e.queue_begun hq] at hk
    obtain ⟨-, rfl⟩ := only q k (hp ▸ List.mem_cons_of_mem _ hk) hmark ho
    exact (List.nodup_cons.1 nodup).1 hk
  · rw [e.queue_begun_of_ne hpq] at hk
    exact hpq (only p k hk hmark ho).1

/-- The turn of a mark is the next turn of its loop. -/
theorem rounding_mark {rest : List EntryRef} (calls : Calls) (he : (looping K).inv e) (hq : q < e.queues.size)
    (hp : (e.queue q).pending = n :: rest) (ha : Drive.isActive e q = true)
    (hmark : (e.entry n).isLoopMark = true) :
    (Drive.runEntry calls q n (e.changeQueue q ({ · with pending := rest }))).2.Rounding none := by
  have hn := he.1.1.tidy.pending q n (hp ▸ List.mem_cons_self)
  obtain ⟨m, code, owner, hlt, loop, begun⟩ : ∃ m, (e.entry n).code = e.markOf m ∧
      (e.entry n).owner = some m ∧ m < n ∧ e.isLoop m = true ∧ (e.entry m).loop.isSome = true := by
    rcases he.1.2.unmarked hK he.1.1.tidy hn with hu | h
    · cases hu.isMark.symm.trans hmark
    · exact h
  have hm := he.1.1.tidy.owner owner
  obtain ⟨first, ts, t, turned, mark, only⟩ := he.2.awaited hm.1 loop begun hp hmark owner he.1.2.residing
  have alone := unmarked_begun he.2 hq hp only
  obtain ⟨began, r, heads⟩ := Nest.begun he.1 hq hp ha
  have furnished₀ : (e.begun q n rest).Furnished := furnished_begun he.2.furnished
  have rounding₀ := he.2.begun hq hp furnished₀ fun m' _ ho => owner.symm.trans ho
  have unfolded : Drive.runEntry calls q n (e.changeQueue q ({ · with pending := rest })) =
      (Executor.execute calls n >>= fun ran => do
        Drive.note (.returned q n ran)
        pure ran) (e.begun q n rest) := rfl
  rw [unfolded]
  have turned₀ : (e.begun q n rest).Turned m first (ts ++ [t]) := .still turned (.begun e m q n rest)
  have code₀ : ((e.begun q n rest).entry n).code = e.markOf m := code
  have loop₀ : (e.begun q n rest).isLoop m = true := loop
  have alone : ∀ p k, k ∈ ((e.begun q n rest).queue p).pending →
      ((e.begun q n rest).entry k).isLoopMark = true → ((e.begun q n rest).entry k).owner ≠ some m := alone
  have hm₀ : (e.begun q n rest).Live m := hm
  generalize e.begun q n rest = y₀ at *
  -- Up to its command the mark only takes notes.
  have level : y₀.Level (Structured.readMark n y₀) :=
    (Structured.step_readMark Level.closing.toNoting trivial trivial).2
  have nested : (nest K).Step y₀ (Structured.readMark n y₀) :=
    Structured.step_readMark Nest.bookkeeping.toNoting began.1 heads.live
  have furnished : furnished.Step y₀ (Structured.readMark n y₀) :=
    Structured.step_readMark Furnished.enduring.beating.toNoting ⟨began.1.1, furnished₀⟩ heads.live
  have apart : y₀.Apart [n] (Structured.readMark n y₀) := (Structured.step_readMark
    (Apart.bookkeeping n True).toNoting ⟨began.1.1, fun _ => trivial⟩ ⟨rfl, heads.live⟩).2
  have executes {y : Engine} (h : Commands.execute calls n (Structured.readMark n y₀) = (.ok (), y)) :=
    Structured.execute_mark code₀ heads.entry h
  generalize Structured.readMark n y₀ = x at *
  have healthy : healthy.Step y₀ x := Nest.step_healthy nested
  have heads' := heads.apart began.1.1.tidy apart
  have calm : y₀.Calm x := .of_level level
  have codex : (x.entry n).code = e.markOf m := (level.code n).trans code₀
  obtain ⟨y, iterated, rounding, kept, hn, same⟩ := rounding_iterate hK nested.1
    (rounding₀.calm began.1.1 healthy calm furnished.1.2) heads'.queue heads'.live (apart.live hm₀)
    (.still turned₀ (calm.still began.1.1 healthy hm₀.1 loop₀)) mark
    fun p k hk hkm ho => by
      unfold Entry.isLoopMark at hkm
      rw [level.code k] at hkm
      refine alone p k ?_ hkm ((level.owner k).symm.trans ho)
      rcases level.pending p with pending | none
      · rwa [pending] at hk
      · rw [none] at hk
        cases hk
  have executed := executes ((Structured.command_mark codex heads'.residingQueue).trans iterated)
  have unheld : (y.entry n).code.handler.isHoldable = false := by
    rw [same, codex]
    rfl
  have left : Executor.leave n none y = (.ok (), y.changeEntry n ({ · with isFinished := true })) := by
    show (if !(y.entry n).code.handler.isHoldable then Entries.finish n else pure () : Action Unit) y = _
    rw [unheld]
    rfl
  rw [left] at executed
  have finished : y.Calm (y.changeEntry n ({ · with isFinished := true })) :=
    .of_level (.changeEntry y n (fun _ => rfl) (fun _ => rfl) (fun _ => rfl) fun _ => rfl)
  rw [Action.bind_ok executed]
  exact (rounding.calm kept (Healthy.bookkeeping.finish kept hn).1 finished
    ⟨rounding.furnished.memory, rounding.furnished.list⟩).returned

/-! ## Entries -/

/-- The entries that queues begin give loops their turns, if deeper levels of nesting do. -/
theorem runsEntries {calls : Calls} (hi : calls.Isolated) (hpn : (nest K).ProcedureSafe calls)
    (hsn : (nest K).StartSafe calls) (hp : (looping K).ProcedureSafe calls) (hs : (looping K).StartSafe calls) :
    (looping K).RunsEntries calls := by
  intro e q n rest he hq hpend hactive hwait hdelay
  cases hmark : (e.entry n).isLoopMark with
  | true =>
    exact (Nest.runsEntries hK hi hpn hsn e q n rest he.1 hq hpend hactive hwait hdelay).also
      fun _ => rounding_mark hK calls he hq hpend hactive hmark
  | false =>
    have head : n ∈ (e.queue q).pending := hpend ▸ List.mem_cons_self
    obtain ⟨began, r, heads⟩ := Nest.begun he.1 hq hpend hactive
    let y := e.begun q n rest
    have rounding : y.Rounding none := he.2.begun hq hpend (furnished_begun he.2.furnished) fun m hm _ => by
      cases hmark.symm.trans hm
    have step : (looping K).Step e y := began.also rounding
    have onTurn : y.OnTurn q n r := by
      refine ⟨heads, he.2.idle head, ?_⟩
      have nodup := he.2.nodup q
      rw [hpend] at nodup
      rw [e.queue_begun hq]
      exact (List.nodup_cons.1 nodup).1
    obtain ⟨⟨announced, -⟩, aside⟩ := step_announced (Apart.bookkeeping n True).toNoting
      ⟨began.1.1, fun _ => trivial⟩ ⟨rfl, heads.live⟩
    have aside : y.Apart [n] (Executor.announced n y) := aside
    have executed : (looping K).Leaves y (fun _ _ => True) (Executor.execute calls n y) := by
      refine leaves_executeApart bookkeeping hp hi step.1 heads.live began.1.1 heads.live
        fun x scope saveAs hx alone entered => ?_
      have code := alone.code heads.entry
      refine leaves_command hK hi hp hpn hs hx.1 (onTurn.apart began.1.1.tidy alone) ?_ fun hb => ?_
      · unfold Entry.isLoopMark
        rw [code]
        exact hmark
      · refine Executor.asked_enter hi announced (aside.live heads.live) ?_ entered
        rw [aside.code heads.entry, ← code]
        exact hb
    have unfolded : Drive.runEntry calls q n (e.changeQueue q ({ · with pending := rest })) =
        (Executor.execute calls n >>= fun ran => do
          Drive.note (.returned q n ran)
          pure ran) y := rfl
    rw [unfolded]
    refine Leaves.from step.2 (leaves_bind executed fun ran x hx _ _ => ?_)
    have noted : (nest K).Step x { x with journal := .returned q n ran :: x.journal } :=
      Nest.step_noted hx.1 fun _ _ _ _ h => by cases h
    exact ⟨noted.also hx.2.returned, trivial⟩

theorem calls_runsEntries (fuel : Nat) : (looping K).RunsEntries (Drive.calls fuel) := by
  have nested := callsSafe (Nest.turns hK) fun fuel hp hs => Nest.runsEntries hK (Drive.isolated_calls fuel) hp hs
  have safe := callsSafe (turns hK) (fun fuel hp hs => runsEntries hK (Drive.isolated_calls fuel)
    (nested fuel).1 (nested fuel).2 hp hs) fuel
  exact runsEntries hK (Drive.isolated_calls fuel) (nested fuel).1 (nested fuel).2 safe.1 safe.2

end Looping

end Discipline

/-! ## Runs -/

theorem Engine.IsNew.rounding {e : Engine} (h : e.IsNew) : e.Rounding none where
  furnished := by
    refine ⟨fun {q} hq => ?_, fun {q i} hi => ?_⟩
    · rw [h.queues] at hq
      cases hq
    · rw [h.queue_eq] at hi
      cases hi
  nodup q := by
    rw [h.queue_eq]
    exact List.nodup_nil
  idle hn := by
    rw [h.queue_eq] at hn
    cases hn
  owned hn := by
    rw [h.entries] at hn
    cases hn
  turned hm := by
    rw [h.entries] at hm
    cases hm

/-- As long as marks are left to loops, every loop that has begun has had its turns. -/
theorem Runs.rounding {config : Config} {e : Engine}
    (h : Runs (Operation.LeavesMarks (Host.create config []).catalogue) (Host.create config []) e) :
    e.Rounding none := by
  have hK := Host.create_catalogue_native config
  have new := Host.create_isNew config []
  have healthy := (Host.create_wakeful config).healthy new.tidy
  have inv : (Discipline.looping (Host.create config []).catalogue).inv e :=
    Discipline.inv_admitted (Discipline.Looping.beating hK) (Discipline.Looping.calls_runsEntries hK)
      ⟨⟨healthy, new.looped rfl⟩, new.rounding⟩ (h.mono fun _ op ha => by
        cases op <;> exact ha.admits)
  exact inv.2

end QueueScript
