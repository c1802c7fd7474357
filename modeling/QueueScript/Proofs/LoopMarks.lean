import QueueScript.Proofs.Nesting.Turn
import QueueScript.Proofs.Wakeups

/-!
# Marks of loops close loops from the inside out

The loop that a command ends early is not noted anywhere: it is found by looking for the first mark among
the pending entries.  This finds the innermost loop around the command, since the pending entries of every
queue are nested at all times, as long as no written line is taken for a mark and the host puts no entries
before pending marks.
-/

namespace QueueScript

/-- The sources of the operation have no line that is taken for a mark, and it puts entries at the head of
a queue only if no mark is pending there. -/
def Operation.LeavesMarks (K : Catalogue) (e : Engine) : Operation → Prop
  | .register record => Source.Unmarked K record.source
  | .runCommands source _ _ _ | .append _ source => Source.Unmarked K source
  | .inject q source => Source.Unmarked K source ∧
    ∀ n ∈ (e.queue q).pending, (e.entry n).isLoopMark = false
  | _ => True

theorem Operation.LeavesMarks.admits {K : Catalogue} {e : Engine} {op : Operation}
    (h : op.LeavesMarks K e) : (Discipline.nest K).Admits e op := by
  cases op with
  | register record => exact h
  | runCommands source name options starts => exact h
  | append q source => exact h
  | inject q source => exact h
  | _ => trivial

theorem Engine.IsNew.looped {K : Catalogue} {e : Engine} (h : e.IsNew) (hc : e.catalogue = K) :
    e.Looped K where
  catalogue := hc
  origin hn := by
    have hn := hn.1
    rw [h.entries] at hn
    cases hn
  pending q := by
    rw [h.queue_eq]
    exact ⟨none, .nil⟩
  residing hn := by
    rw [h.queue_eq] at hn
    cases hn
  source n := by
    unfold Engine.script
    rw [h.scripts]
    exact rfl
  base {n codes} hb := by
    unfold Engine.script at hb
    rw [h.scripts] at hb
    cases hb
  began hj := by
    rw [h.journal] at hj
    cases hj

namespace Commands.Loop

/-- The scan looks only at which entries are marks. -/
theorem firstMark_congr {e e' : Engine} {ns : List EntryRef}
    (h : ∀ n ∈ ns, (e'.entry n).isLoopMark = (e.entry n).isLoopMark) :
    firstMark e' ns = firstMark e ns := by
  induction ns with
  | nil => rfl
  | cons n rest ih =>
    unfold firstMark
    rw [h n List.mem_cons_self, ih fun m hm => h m (List.mem_cons_of_mem _ hm)]

/-- Ending a loop or a round early fails only if no mark is found. -/
theorem endEarly_fails_iff (n : EntryRef) (q : QueueRef) (stop : Bool) (e : Engine) :
    (endEarly n q stop e).1 = .error (.runtime (.notInLoop stop)) ↔
      firstMark e (e.queue q).pending = none := by
  cases found : firstMark e (e.queue q).pending with
  | none =>
    rw [endEarly_of_none found]
    exact ⟨fun _ => rfl, fun _ => rfl⟩
  | some p =>
    obtain ⟨i, mark⟩ := p
    let told : Action Unit :=
      report n [(if stop then "stop" else "next", "skipped " ++ Number.natText i ++ " entries")]
    have restored (loop : LoopState) (x : Engine) : ((restore q loop >>= fun _ => told) x).1 = .ok () := by
      unfold restore
      cases loop.before with
      | none => rfl
      | some v => rfl
    have ends : (endEarly n q stop e).1 = .ok () := by
      rw [endEarly_of_some found]
      cases stop with
      | false => rfl
      | true =>
        let x := e.changeQueue q fun y => { y with pending := y.pending.drop (i + 1) }
        have dropped : Queues.dropFirst q (i + 1) e = (.ok (), x) := rfl
        refine (congrArg Prod.fst (Action.bind_ok dropped)).trans ?_
        rw [if_pos rfl, Action.look_bind]
        cases loopOf x mark with
        | none => rfl
        | some p => exact restored p.2 x
    refine ⟨fun h => ?_, nofun⟩
    cases ends.symm.trans h

/-- A loop command is told to end the loop, or the round, that it stands in. -/
def IsToldToEnd (calls : Calls) (n : EntryRef) (x x' : Engine) : Bool → Prop
  | true => Entries.flag calls n "stop" x = (.ok true, x')
  | false => ∃ y, Entries.flag calls n "stop" x = (.ok false, y) ∧
    Entries.flag calls n "next" y = (.ok true, x')

variable {calls : Calls} {n : EntryRef} {q : QueueRef} {stop : Bool} {x x' : Engine}

theorem IsToldToEnd.execute_eq (h : IsToldToEnd calls n x x' stop) (hq : x.residingQueue n = some q) :
    execute calls n x = endEarly n q stop x' := by
  refine (Action.bind_ok (Entries.requireQueue_eq hq)).trans ?_
  cases stop with
  | true => exact Action.bind_ok h
  | false =>
    obtain ⟨y, hstop, hnext⟩ := h
    exact (Action.bind_ok hstop).trans (Action.bind_ok hnext)

/-- Finding out what a loop command is told leaves all queues alone. -/
theorem IsToldToEnd.apart (h : IsToldToEnd calls n x x' stop) (hi : calls.Isolated) (hx : x.Healthy) :
    x.Apart [n] x' := by
  have read (word : String) {y y' : Engine} {told : Bool} (hy : y.Healthy)
      (hr : Entries.flag calls n word y = (.ok told, y')) : y'.Healthy ∧ y.Apart [n] y' := by
    have safe : (Discipline.apart n True).Safe y (Entries.flag calls n word) :=
      Discipline.safe_flag (Discipline.Apart.bookkeeping n True)
        (Discipline.Apart.procedureSafe hi (.inr trivial)) word
    have run := safe.run y ⟨hy, fun _ => trivial⟩ (.refl [n] y)
    rw [hr] at run
    exact ⟨run.1.1.1, run.1.2⟩
  cases stop with
  | true => exact (read "stop" hx h).2
  | false =>
    obtain ⟨y, hstop, hnext⟩ := h
    obtain ⟨hy, first⟩ := read "stop" hx hstop
    exact first.trans (read "next" hy hnext).2

end Commands.Loop

namespace Engine

/-- A queue has begun an entry, whose command is now executed: the entries that were pending then are
still pending, and the marks among them are those that the engine `e` has. -/
structure AtCommand (e : Engine) (q : QueueRef) (n : EntryRef) (before : Queue) (x : Engine) : Prop where
  healthy : x.Healthy
  queue : q < x.queues.size
  residing : x.residingQueue n = some q
  pending : (x.queue q).pending = before.pending
  mark : ∀ k ∈ before.pending, (x.entry k).isLoopMark = (e.entry k).isLoopMark

/-- What the scan finds when a command ends a loop or a round early. -/
theorem AtCommand.firstMark_eq {e x x' : Engine} {q : QueueRef} {n : EntryRef} {before : Queue}
    (h : e.AtCommand q n before x) (ha : x.Apart [n] x') :
    Commands.Loop.firstMark x' (x'.queue q).pending = Commands.Loop.firstMark e before.pending := by
  rw [ha.queue h.queue, h.pending]
  refine Commands.Loop.firstMark_congr fun k hk => ?_
  rw [ha.roots.isLoopMark (h.healthy.tidy.pending q k (h.pending ▸ hk)).1, h.mark k hk]

end Engine

theorem Runs.healthy_looped {config : Config} {e : Engine}
    (h : Runs (Operation.LeavesMarks (Host.create config []).catalogue) (Host.create config []) e) :
    e.Healthy ∧ e.Looped (Host.create config []).catalogue := by
  have hK := Host.create_catalogue_native config
  have new := Host.create_isNew config []
  have healthy := (Host.create_wakeful config).healthy new.tidy
  exact Discipline.inv_admitted (Discipline.Nest.beating hK) (Discipline.Nest.calls_runsEntries hK)
    ⟨healthy, new.looped rfl⟩ (h.mono fun _ _ ha => ha.admits)

/-- No written line is taken for a mark, and the host puts entries at the head of a queue only if no mark
is pending there.  Then all entries but the blank ones that scripts are made into are lines of sources,
marks, or entries of blocks that are owned by the entries that the blocks stand in, and the pending entries
of every queue are nested: the marks belong to loops that have begun and differ from each other, each of them
to the nearest loop above the one before it, and the entries before a mark to its loop.
So a command that ends a loop or a round early ends that of the innermost loop around it, and fails if and
only if there is none. -/
theorem loop_marks_nested {config : Config} {e : Engine}
    (h : Runs (Operation.LeavesMarks (Host.create config []).catalogue) (Host.create config []) e) :
    (∀ n < e.entries.size, (e.IsBase n ∧ (e.entry n).IsBlank) ∨
      Engine.Origin (Host.create config []).catalogue e n) ∧
    (∀ q, (∃ r, e.Nested r (e.queue q).pending) ∧ (e.loopsOf (e.queue q).pending).Nodup ∧
      ∀ m ∈ e.loopsOf (e.queue q).pending, e.isLoop m = true ∧ (e.entry m).loop.isSome = true) ∧
    ∀ q n before previous, Step.began q n before previous ∈ e.journal → (e.entry n).isLoopMark = false →
      ∃ r, e.NearestLoop n r ∧ ∀ fuel x x' stop, e.AtCommand q n before x →
        Commands.Loop.IsToldToEnd (Drive.calls fuel) n x x' stop →
          (∀ m, r = some m → ∃ i mark, (e.entry mark).owner = some m ∧
            Commands.Loop.firstMark x' (x'.queue q).pending = some (i, mark)) ∧
          ((Commands.Loop.execute (Drive.calls fuel) n x).1 = .error (.runtime (.notInLoop stop)) ↔
            r = none) := by
  obtain ⟨healthy, looped⟩ := h.healthy_looped
  refine ⟨fun n hn => ?_, fun q => ?_, fun q n before previous hj hn => ?_⟩
  · by_cases hb : e.IsBase n
    · exact .inl ⟨hb, healthy.tidy.based.blank hb⟩
    · exact .inr (looped.origin ⟨hn, hb⟩)
  · obtain ⟨r, nested⟩ := looped.pending q
    refine ⟨⟨r, nested⟩, ?_, nested.begun_of_mem_loopsOf⟩
    exact (nested.loopsOf_pairwise (looped.owner_lt healthy.tidy)).2.imp fun hlt => Nat.ne_of_gt hlt
  · obtain ⟨r, nested⟩ := looped.began hj
    cases nested with
    | mark _ hmark _ _ _ _ _ => cases hmark.symm.trans hn
    | entry _ _ above rest =>
      refine ⟨r, above, fun fuel x x' stop hx told => ?_⟩
      have alone := told.apart (Drive.isolated_calls fuel) hx.healthy
      have scanned := rest.firstMark
      rw [told.execute_eq hx.residing, Commands.Loop.endEarly_fails_iff, hx.firstMark_eq alone]
      cases r with
      | none => exact ⟨nofun, fun _ => rfl, fun _ => scanned⟩
      | some m =>
        obtain ⟨i, mark, found, owned, -⟩ := scanned
        refine ⟨fun k hk => ?_, fun hnone => ?_, nofun⟩
        · cases hk
          exact ⟨i, mark, owned, found⟩
        · cases found.symm.trans hnone

/-- Whether a step begins an entry of a queue, with others still pending. -/
def Step.beginsAhead (q : QueueRef) (n : EntryRef) (pending : List EntryRef) : Step → Bool
  | .began p m before _ => p = q ∧ m = n ∧ before.pending = pending
  | .returned _ _ _ => false

/-- A loop that waits stands in another one, so an instant queue is replaced inside of both.  After the
delay it is told to end the inner loop, and the first mark is the mark of that loop. -/
theorem loop_marks_nested_waiting :
    let source := "repeat 2 as:a \x7b\n- repeat 2 as:b \x7b\n- wait 1\n- repeat stop\n\x7d\n\x7d"
    let e₁ := ((Operation.runCommands source none {} true).act 10 (Host.create {} [])).2
    let e₂ := ((Operation.tick (some 2.0)).act 10 e₁).2
    let x := e₁.changeQueue 1 ({ · with pending := [8, 5] })
    e₂.loopsOf (e₂.queue 1).pending = [9, 3] ∧ (e₂.loopsOf (e₂.queue 1).pending).Nodup ∧
      e₂.NearestLoop 7 (some 4) ∧
      (∃ i mark, (e₂.entry mark).owner = some 4 ∧
        Commands.Loop.firstMark x (x.queue 1).pending = some (i, mark)) ∧
      (Commands.Loop.execute (Drive.calls 10) 7 x).1 ≠ .error (.runtime (.notInLoop true)) := by
  intro source e₁ e₂ x
  obtain ⟨ok₁, ok₂, unmarked, size, residing, marks, pending, wordless, literal, began, loops, plain, owner,
      isLoop⟩ :
      ((Operation.runCommands source none {} true).act 10 (Host.create {} [])).1.toBool = true ∧
      ((Operation.tick (some 2.0)).act 10 e₁).1.toBool = true ∧
      Line.allUnmarked (Host.create {} []).catalogue (Source.parse source).lines = true ∧
      1 < e₁.queues.size ∧ x.residingQueue 7 = some 1 ∧
      (∀ k ∈ [8, 5], (x.entry k).isLoopMark = (e₂.entry k).isLoopMark) ∧
      (e₁.queue 1).pending = [7, 8, 5] ∧ ((x.entry 7).code.argument? "stop").isNone = true ∧
      (x.entry 7).code.literals.contains (Text.lower "stop") = true ∧
      e₂.journal.any (Step.beginsAhead 1 7 [8, 5]) = true ∧
      e₂.loopsOf (e₂.queue 1).pending = [9, 3] ∧ (e₂.entry 7).isLoopMark = false ∧
      (e₂.entry 7).owner = some 4 ∧ e₂.isLoop 4 = true := by decide +kernel
  have run₁ : Runs (Operation.LeavesMarks (Host.create {} []).catalogue) (Host.create {} []) e₁ :=
    .ok .first 10 (.runCommands source none {} true) trivial unmarked ok₁
  have run₂ : Runs (Operation.LeavesMarks (Host.create {} []).catalogue) (Host.create {} []) e₂ :=
    run₁.ok 10 (.tick (some 2.0)) trivial trivial ok₂
  clear_value e₂ e₁
  have healthy : x.Healthy := by
    obtain ⟨healthy, -⟩ := run₁.healthy_looped
    refine healthy.keeps (e₁.keeps_changeQueue 1 _)
      (healthy.tidy.changeQueue 1 (fun n hn => .inl ?_) (fun _ h => .inl h) (fun _ h => .inl h) fun _ h => .inl h)
    rw [pending]
    exact List.mem_cons_of_mem _ hn
  have told : Commands.Loop.IsToldToEnd (Drive.calls 10) 7 x x true := by
    have reads := Entries.flag_of_unkeyed (Drive.calls 10) (Option.isNone_iff_eq_none.1 wordless)
    rwa [literal] at reads
  obtain ⟨step, hstep, hbegan⟩ := List.any_eq_true.1 began
  cases step with
  | returned => cases hbegan
  | began q n before previous =>
    obtain ⟨rfl, rfl, hbefore⟩ := of_decide_eq_true hbegan
    obtain ⟨-, nested, ends⟩ := loop_marks_nested run₂
    obtain ⟨r, above, hr⟩ := ends 1 7 before previous hstep plain
    have inner : e₂.NearestLoop 7 (some 4) := .loop owner isLoop
    cases above.unique inner
    have there : e₂.AtCommand 1 7 before x := {
      healthy
      queue := by rwa [e₁.size_changeQueue]
      residing
      pending := by rw [hbefore, e₁.queue_changeQueue_self size]
      mark := by rwa [hbefore] }
    obtain ⟨found, fails⟩ := hr 10 x x true there told
    exact ⟨loops, (nested 1).2.1, inner, found 4 rfl, fun h => nomatch fails.1 h⟩

/-- A line in a loop has two words, the mark and a number.  It is taken for a mark of the loop, which starts the
next round before the current one has come to its own mark, so two marks of one loop are pending.  Nor are
entries nested that the host puts before a mark. -/
theorem marks_misread :
    let source := "repeat 2 \x7b\n- repeat \x00callback 5\n- wait 1\n\x7d"
    let e := ((Operation.runCommands source none {} true).act 20 (Host.create {} [])).2
    let plain := "repeat 2 \x7b\n- wait 1\n\x7d"
    let e₁ := ((Operation.runCommands plain none {} true).act 20 (Host.create {} [])).2
    let e₂ := ((Operation.inject 1 "debug hi").act 20 e₁).2
    (((Source.parse source).lines.flatMap fun l => (l.command, l.args) :: l.blocks.flatMap fun b =>
        b.lines.map fun l => (l.command, l.args)) =
      [("repeat", ["2"]), ("repeat", [Builtin.loopMark, "5"]), ("wait", ["1"])] ∧
      Reachable (Host.create {} []) e ∧ e.loopsOf (e.queue 1).pending = [2, 2]) ∧
    Line.allUnmarked (Host.create {} []).catalogue (Source.parse plain).lines = true ∧
      Reachable (Host.create {} []) e₂ ∧ ¬ ∃ r, e₂.Nested r (e₂.queue 1).pending := by
  intro source e plain e₁ e₂
  obtain ⟨ok, words, twice, ok₁, unmarked, size, ok₂, pending, ordinary, unowned, mark⟩ :
      ((Operation.runCommands source none {} true).act 20 (Host.create {} [])).1.toBool = true ∧
      ((Source.parse source).lines.flatMap fun l => (l.command, l.args) :: l.blocks.flatMap fun b =>
        b.lines.map fun l => (l.command, l.args)) =
        [("repeat", ["2"]), ("repeat", [Builtin.loopMark, "5"]), ("wait", ["1"])] ∧
      e.loopsOf (e.queue 1).pending = [2, 2] ∧
      ((Operation.runCommands plain none {} true).act 20 (Host.create {} [])).1.toBool = true ∧
      Line.allUnmarked (Host.create {} []).catalogue (Source.parse plain).lines = true ∧
      1 < e₁.queues.size ∧ ((Operation.inject 1 "debug hi").act 20 e₁).1.toBool = true ∧
      (e₂.queue 1).pending = [4, 3] ∧ (e₂.entry 4).isLoopMark = false ∧ (e₂.entry 4).owner = none ∧
      (e₂.entry 3).isLoopMark = true := by decide +kernel
  have run : Reachable (Host.create {} []) e :=
    .ok .first 20 (.runCommands source none {} true) trivial ok
  have run₁ : Reachable (Host.create {} []) e₁ :=
    .ok .first 20 (.runCommands plain none {} true) trivial ok₁
  have run₂ : Reachable (Host.create {} []) e₂ := run₁.ok 20 (.inject 1 "debug hi") size ok₂
  refine ⟨⟨words, run, twice⟩, unmarked, run₂, ?_⟩
  rw [pending]
  clear_value e₂
  rintro ⟨r, nested⟩
  cases nested with
  | mark _ hmark _ _ _ _ _ => cases ordinary.symm.trans hmark
  | entry _ _ above rest =>
    -- The entry belongs to no loop, but a mark follows.
    cases above.unique (.top unowned)
    cases rest with
    | entry _ hplain _ _ => cases mark.symm.trans hplain

end QueueScript
