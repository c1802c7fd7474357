import QueueScript.Proofs.Conservation
import QueueScript.Proofs.Looping.Commands
import QueueScript.Proofs.Structured.Programs

/-!
# Loops run as often as they are asked to

The command of a loop reads two whole numbers, the quantity and the first index, and gives the loop a first
turn.  The mark that a turn puts behind the block gives it the next one, as often as the quantity says, and
one more time to end it.  So the block is put on the queue that many times, with one index after the other.
Whatever else an engine does meanwhile leaves the entry of the loop alone and makes no entries for it
(`Runs.rounding`).

Whole numbers that are too large are not read as what they are, since their text has an exponent
(`large_index_lost`).
-/

namespace QueueScript

variable {m : EntryRef} {q : QueueRef} {e : Engine} {a : Argument} {first : Option Argument} {n : Nat} {f : Int}

/-- A loop is asked for `n` rounds from the index `f` on, and all numbers that it counts with are exact as
doubles. -/
structure Argument.Asks (a : Argument) (first : Option Argument) (n : Nat) (f : Int) : Prop where
  quantity : a.whole? = some (n : Int)
  start : first.elim (some 1) Argument.whole? = some f
  count_small : n < 2 ^ 53
  start_small : f.natAbs < 2 ^ 53
  end_small : (f + n).natAbs < 2 ^ 53

namespace Engine

/-- What a loop has stored is what it was asked for. -/
theorem Asked.holds (h : e.Asked m first) (ha : (e.entry m).arguments = [a]) (hk : a.Asks first n f) :
    Doubles.Holds (e.countOf m "quantity") n ∧ Doubles.Holds (e.countOf m "from") f := by
  obtain ⟨shown, v, whole, stored⟩ := h.quantity ha
  obtain ⟨w, given, missing, stored'⟩ := h.from_
  rw [countOf_num stored, countOf_num stored']
  constructor
  · obtain ⟨v', whole', holds⟩ := Argument.asWhole_of_whole? shown hk.quantity (by simpa using hk.count_small)
    cases whole.symm.trans whole'
    exact holds
  · have start := hk.start
    cases first with
    | none =>
      cases start
      rw [missing rfl]
      exact .one
    | some b =>
      obtain ⟨shown, whole⟩ := given b rfl
      obtain ⟨v', whole', holds⟩ := Argument.asWhole_of_whole? shown start hk.start_small
      cases whole.symm.trans whole'
      exact holds

/-- A loop that is asked for a round at least, and has something to repeat, begins. -/
theorem AtStart.begins (h : e.AtStart q m first) (ha : (e.entry m).arguments = [a]) (hk : a.Asks first n f)
    (hpos : 0 < n) (hbody : (e.entry m).code.firstBlock ≠ []) :
    ∃ y, Commands.Loop.start m q e = (.ok (), y) ∧ y.Turned m first [⟨q, e, y⟩] := by
  obtain ⟨events, started⟩ := Commands.Loop.start_eq h.catalogue h.entry h.repeatable q
  have pos : ¬ e.countOf m "quantity" ≤ 0.0 := by
    have small := hk.count_small
    rw [(h.asked.holds ha hk).1.le_iff Doubles.Holds.zero (by omega) (by decide)]
    omega
  rw [if_neg pos, if_neg (by simpa using hbody)] at started
  refine ⟨_, started, .start h started ?_⟩
  exact congrArg Option.isSome (Structured.loop_opened (e := { e with events }) (r := e.roundsAsked m q) h.entry)

/-- Whatever queue runs the mark of the last turn, the loop is given a further turn. -/
theorem Turned.next {ts : List Turn} {t : Turn} {k : EntryRef} (h : e.Turned m first (ts ++ [t]))
    (hk : t.mark? = some k) (calls : Calls) (hq : q < e.queues.size)
    (hm : (e.queue q).memory < e.memories.size) (hr : e.residingQueue k = some q) :
    ∃ y, Commands.execute calls k e = (.ok (), y) ∧ y.Turned m first (ts ++ [t, ⟨q, e, y⟩]) := by
  have rounded := h.rounded
  have last : t ∈ ts ++ [t] := List.mem_append_right _ (List.mem_singleton_self t)
  obtain ⟨script, line, code⟩ := rounded.code last hk
  obtain ⟨s, y, -, iterated, -⟩ := rounded.iterate last hk q
  exact ⟨y, (Structured.command_mark code hr).trans iterated, .turn h hq hm hk iterated⟩

/-! ## What is said of a loop -/

/-- Whatever queue runs the entry, the loop is given a further turn. -/
def GoesOn (m : EntryRef) (first : Option Argument) (ts : List Turn) (k : EntryRef) (e : Engine) : Prop :=
  ∀ calls q, q < e.queues.size → (e.queue q).memory < e.memories.size → e.residingQueue k = some q →
    ∃ y, Commands.execute calls k e = (.ok (), y) ∧ y.Turned m first (ts ++ [⟨q, e, y⟩])

/-- The turns of a loop that began with the turn `t₀` are `n` rounds with the indices from `f` on, one after
the other, and then a turn that ends it.  Until that one the last of them has left a mark, which is the next
turn when it is run. -/
structure HasRounds (m : EntryRef) (first : Option Argument) (ts : List Turn) (t₀ : Turn) (n : Nat) (f : Int)
    (e : Engine) : Prop where
  pos : 0 < n
  length : ts.length ≤ n + 1
  round {i : Nat} {t : Turn} : ts[i]? = some t → i < n →
    t.OpensRound (t₀.before.indexName m) (t₀.before.entry m).code.firstBlock (f + i)
  ends {i : Nat} {t : Turn} : ts[i]? = some t → n ≤ i →
    t.EndsLoop (t₀.before.indexName m) (t₀.before.definition? t₀.queue (t₀.before.indexName m))
  next : ts.length ≤ n → ∃ k, ts.getLast?.bind Turn.mark? = some k ∧ e.GoesOn m first ts k

/-- The turns of a loop begin with the one of its command, have made the entries that belong to it, and are
as many as it was asked for. -/
structure RunsAsAsked (m : EntryRef) (first : Option Argument) (ts : List Turn) (t₀ : Turn) (e : Engine) :
    Prop where
  head : t₀ ∈ ts.head?
  started : t₀.before.AtStart t₀.queue m first
  made (k : EntryRef) : k < e.entries.size → ((e.entry k).owner = some m ↔ ∃ t ∈ ts, t.Makes k)
  rounds {a : Argument} {n : Nat} {f : Int} : (t₀.before.entry m).arguments = [a] → a.Asks first n f →
    e.HasRounds m first ts t₀ n f

/-- The entry is pending where it resides, unless it was dropped since the engine `e₀` where a loop was left
early, or its queue was stopped. -/
def KeepsPending (e₀ e : Engine) (k : EntryRef) : Prop :=
  ∃ p, (e.entry k).residing = some p ∧ (k ∈ (e.queue p).pending ∨ e₀.Drops e k ∨ e₀.Stops e p)

/-- The loop has begun. -/
structure IsBegun (m : EntryRef) (e : Engine) : Prop where
  entry : m < e.entries.size
  isLoop : e.isLoop m = true
  begun : (e.entry m).loop.isSome = true

/-- The mark of the last turn is the next turn. -/
theorem HasRounds.turn {ts : List Turn} {t₀ : Turn} {k : EntryRef} (h : e.HasRounds m first ts t₀ n f)
    (hle : ts.length ≤ n) (hk : ts.getLast?.bind Turn.mark? = some k) (calls : Calls) (hq : q < e.queues.size)
    (hm : (e.queue q).memory < e.memories.size) (hr : e.residingQueue k = some q) :
    (Commands.execute calls k e).2.Turned m first (ts ++ [⟨q, e, (Commands.execute calls k e).2⟩]) := by
  obtain ⟨k', hk', goesOn⟩ := h.next hle
  obtain rfl : k' = k := Option.some.inj (hk'.symm.trans hk)
  obtain ⟨y, executed, turned⟩ := goesOn calls q hq hm hr
  rw [executed]
  exact turned

/-- The turns of a loop are as it was asked for. -/
theorem Turned.runsAsAsked {ts : List Turn} (h : e.Turned m first ts) : ∃ t₀, e.RunsAsAsked m first ts t₀ := by
  obtain ⟨t₀, head, started, code, counts⟩ := h.counts
  refine ⟨t₀, head, started, fun k hk => h.rounded.made hk, fun {a n f} ha hk => ?_⟩
  obtain ⟨quantity, start⟩ := started.asked.holds ha hk
  obtain ⟨pos, counting⟩ := counts n f quantity start hk.count_small hk.start_small hk.end_small
  have turns {i : Nat} {t : Turn} (hi : ts[i]? = some t) := code ▸ counting.turns hi
  refine ⟨pos, counting.length, fun hi => (turns hi).1, fun hi => (turns hi).2, fun hle => ?_⟩
  rcases List.eq_nil_or_concat' ts with rfl | ⟨ts', t, rfl⟩
  · cases head
  rw [List.length_append, List.length_singleton] at hle
  have opens := (turns (i := ts'.length) (t := t) (by simp)).1 (Nat.lt_of_succ_le hle)
  refine ⟨t.before.entries.size + (t₀.before.entry m).code.firstBlock.length, ?_, fun calls q hq hmem hr => ?_⟩
  · rw [List.getLast?_concat]
    exact opens.mark
  · obtain ⟨y, executed, turned⟩ := h.next opens.mark calls hq hmem hr
    refine ⟨y, executed, ?_⟩
    rwa [List.append_assoc]

/-- A mark that a loop waits for is pending, or it is known why it is not. -/
theorem Turned.keeps {config : Config} {ts : List Turn} {t : Turn} {k : EntryRef}
    (h : e.Turned m first (ts ++ [t])) (ha : e.Awaits m t)
    (he : Runs (fun x op => op.Continues x) (Host.create config []) e) (hk : t.mark? = some k) :
    (Host.create config []).KeepsPending e k := by
  have settled : (Host.create config []).Settled :=
    .of_new (Host.create_isNew config []) (Host.create_catalogue_sound config)
  obtain ⟨after, accounted⟩ := settled.runs he
  have last : t ∈ ts ++ [t] := List.mem_append_right _ (List.mem_singleton_self t)
  have makes := Turn.Makes.of_mark? hk
  have size : k < e.entries.size := Nat.lt_of_lt_of_le makes.2 (h.rounded.there last)
  have owner : (e.entry k).owner = some m := (h.rounded.made size).2 ⟨t, last, makes⟩
  have live : e.Live k := ⟨size, fun base => by
    rw [(after.orderly.healthy.tidy.based.blank base).owner] at owner
    cases owner⟩
  have new : ¬ k < (Host.create config []).entries.size := by
    rw [(Host.create_isNew config []).entries]
    exact Nat.not_lt_zero k
  obtain ⟨p, residing, -, fate⟩ := accounted.fate ⟨live, fun hk => absurd hk new⟩
  refine ⟨p, residing, fate.imp id fun fate => fate.resolve_left fun began => ?_⟩
  obtain ⟨s, hs, began⟩ := List.countP_pos_iff.1 began
  cases s with
  | returned q n ran => cases began
  | began q n before previous =>
    cases eq_of_beq (α := EntryRef) began
    exact ha.unbegun hk q before previous hs

end Engine

/-- Beats are operations of the host. -/
theorem Runs.ticks {A : Engine → Operation → Prop} (hA : ∀ x seconds, A x (.tick seconds)) {e₀ e e' : Engine}
    (h : Runs A e₀ e) {fuel : Nat} {seconds : Option Float} {beats : Nat}
    (ht : Heartbeat.ticks fuel seconds beats e = (.ok (), e')) : Runs A e₀ e' := by
  induction beats generalizing e with
  | zero =>
    cases ht
    exact h
  | succ beats ih =>
    rcases hx : Heartbeat.tick fuel seconds e with ⟨_ | _, x⟩
    · cases (Action.bind_error hx).symm.trans ht
    · have ran : (Operation.tick seconds).act fuel e = (.ok (), x) := hx
      have next : Runs A e₀ ((Operation.tick seconds).act fuel e).2 :=
        h.next fuel (.tick seconds) trivial (hA e seconds) (by rw [ran]; nofun)
      rw [ran] at next
      exact ih next ((Action.bind_ok hx).symm.trans ht)

/-- A queue that is started and runs to its end is an operation of the host, and so are the beats. -/
theorem Runs.finishes {A : Engine → Operation → Prop} (hA : ∀ x seconds, A x (.tick seconds))
    {e₀ e E : Engine} (h : Runs A e₀ e) (hq : q < e.queues.size) (ha : A e (.start q)) {seconds : Option Float}
    (hf : Structured.Finishes seconds q e E) : Runs A e₀ E := by
  obtain ⟨least, reached⟩ := hf.reached
  obtain ⟨x, beats, started, ticks⟩ := reached least (Nat.le_refl _)
  have ran : (Operation.start q).act least e = (.ok (), x) := started
  have next : Runs A e₀ ((Operation.start q).act least e).2 :=
    h.next least (.start q) hq ha (by rw [ran]; nofun)
  rw [ran] at next
  exact next.ticks hA ticks

/-- A loop that accepts its arguments stores what they say.  If it is asked for a round at least and has
something to repeat, its command begins it.  From then on its entries are those of its turns.  If it is
asked for `n` rounds from the index `f` on, its first `n` turns each put the block on a queue, with the
indices from `f` on one after the other, and its last turn puts nothing there and gives the definition of
the index back what it held before.  Until then the last turn has left a mark, and running that mark is the
next turn.

All runs of an engine come to this, as long as no written line is taken for a mark and the host puts no entries
before a mark: whatever is run between its turns, a loop that has begun has had its turns, and the mark of the
last one has not been begun.  It is still pending, unless it was dropped where a loop was left early or its queue
was stopped, as long as the host puts no entries on queues that were replaced and replaces none that has ended.

Beats get there.  An instant queue that is filled with a program, and is the only live one, is finished after a
number of them, and no loop waits for a mark on it, unless that mark was dropped where a loop was left early. -/
theorem loops_run_as_asked (m : EntryRef) :
    (∀ fuel x y z args, x.Healthy → x.Live m →
      Entries.resolveArguments (Drive.calls fuel) m x = (.ok args, y) →
      Commands.Loop.parse (Drive.calls fuel) m y = (.ok (), z) →
      ∃ first name, x.Stores (Drive.calls fuel) m args first name z) ∧
    (∀ q x first a n f, x.AtStart q m first → (x.entry m).arguments = [a] → a.Asks first n f → 0 < n →
      (x.entry m).code.firstBlock ≠ [] →
      ∃ y, Commands.Loop.start m q x = (.ok (), y) ∧ y.Turned m first [⟨q, x, y⟩]) ∧
    (∀ first ts (e : Engine), e.Turned m first ts → ∃ t₀, e.RunsAsAsked m first ts t₀) ∧
    ∀ config e, Runs (Operation.LeavesMarks (Host.create config []).catalogue) (Host.create config []) e →
      (e.IsBegun m → ∃ first ts t, e.Turned m first (ts ++ [t]) ∧ e.Awaits m t ∧
        (Runs (fun x op => op.Continues x) (Host.create config []) e →
          ∀ k, t.mark? = some k → (Host.create config []).KeepsPending e k)) ∧
      ∀ q seconds j, Runs (fun x op => op.Continues x) (Host.create config []) e → Structured.Prepared q e →
        (Structured.run (Drive.calls (j + 1)) seconds q e).1 = .ok .done →
        ∃ E, Structured.Finishes seconds q e E ∧ (E.IsBegun m → ∃ first ts t, E.Turned m first (ts ++ [t]) ∧
          ∀ k, t.mark? = some k → (E.entry k).residing = some q → (Host.create config []).Drops E k) := by
  have waits {config : Config} {e : Engine}
      (h : Runs (Operation.LeavesMarks (Host.create config []).catalogue) (Host.create config []) e)
      (hm : e.IsBegun m) : ∃ first ts t, e.Turned m first (ts ++ [t]) ∧ e.Awaits m t :=
    h.rounding.turned hm.entry (Option.some_ne_none m) hm.isLoop hm.begun
  refine ⟨fun fuel x y z args hx hm hr hp => ?_, fun q x first a n f h ha hk hpos hbody => ?_,
    fun first ts e h => h.runsAsAsked, fun config e h => ⟨fun hm => ?_, fun q seconds j hc prepared done => ?_⟩⟩
  · exact Commands.Loop.parse_stores (Drive.isolated_calls fuel) hx hm hr hp
  · exact h.begins ha hk hpos hbody
  · obtain ⟨first, ts, t, turned, awaits⟩ := waits h hm
    exact ⟨first, ts, t, turned, awaits, fun hc k hk => turned.keeps awaits hc hk⟩
  · obtain ⟨exit, E, run, ends⟩ := prepared.finishes (h.reachable .first) seconds j fun _ cut => by
      rw [done] at cut
      cases cut
    rw [run] at done
    cases done
    obtain ⟨-, finishes⟩ := ends.resolve_left nofun
    have marks := h.finishes (fun _ _ => trivial) prepared.queue trivial finishes
    have continues := hc.finishes (fun _ _ => ⟨trivial, nofun⟩) prepared.queue ⟨trivial, nofun⟩ finishes
    refine ⟨E, finishes, fun hm => ?_⟩
    obtain ⟨first, ts, t, turned, awaits⟩ := waits marks hm
    refine ⟨first, ts, t, turned, fun k hk residing => ?_⟩
    obtain ⟨p, residing', kept⟩ := turned.keeps awaits continues hk
    obtain rfl : q = p := Option.some.inj (residing.symm.trans residing')
    rcases kept with pending | dropped | ⟨-, stopped, -⟩
    · rw [finishes.pending] at pending
      cases pending
    · exact dropped
    · cases finishes.state.symm.trans stopped

/-- A loop with two rounds from five on: it parses, begins, and its two marks give it a second round and its
end.  A beat after the start is enough for its queue to come to its end. -/
theorem loops_run_as_asked_twice :
    let source := "repeat 2 from:5 as:i \x7b\n- debug log one\n\x7d"
    let e := ((Operation.runCommands source none {} false).act 10 (Host.create {} [])).2
    let x := (Entries.resolveArguments (Drive.calls 2) 1 e).2
    let z := (Commands.Loop.parse (Drive.calls 2) 1 x).2
    let z₁ := (Commands.Loop.start 1 0 z).2
    let z₂ := (Commands.execute (Drive.calls 2) 3 z₁).2
    let z₃ := (Commands.execute (Drive.calls 2) 5 z₂).2
    let E := ((Operation.runCommands source none {} true).act 10 (Host.create {} [])).2
    (∃ first, z₃.Turned 1 first [⟨0, z, z₁⟩, ⟨0, z₁, z₂⟩, ⟨0, z₂, z₃⟩]) ∧
      (∃ v, Doubles.Holds v 5 ∧ z₁.definition? 0 "i" = some (.num v)) ∧
      (∃ v, Doubles.Holds v 6 ∧ z₂.definition? 0 "i" = some (.num v)) ∧ z₃.definition? 0 "i" = none ∧
      (z₃.queue 0).pending = (z₂.queue 0).pending ∧
      (∃ first ts t, Engine.Turned 1 first (ts ++ [t]) E ∧ Engine.Awaits 1 t E) ∧
      ∃ F, Structured.Finishes none 0 e F := by
  intro source e x z z₁ z₂ z₃ E
  obtain ⟨⟨ok, asked, from', parses, resides, size, block, index⟩,
      ⟨here, memory, isLoop, idle, childless, before⟩,
      ⟨mark₁, here₁, memory₁, run₁⟩, ⟨mark₂, here₂, memory₂, run₂⟩,
      ⟨finished, unmarked, present, loops, began⟩,
      queue, state, pace, current, listeners, last, isProgram, registry, handoffs, interprets⟩ :
      (((Operation.runCommands source none {} false).act 10 (Host.create {} [])).1.toBool = true ∧
        ((Entries.resolveArguments (Drive.calls 2) 1 e).1.toOption.map (·.map Argument.whole?)) = some [some 2] ∧
        (((e.entry 1).code.argument? "from").bind (·.literal?)).map Argument.whole? = some (some 5) ∧
        (Commands.Loop.parse (Drive.calls 2) 1 x).1.toBool = true ∧
        (e.entry 1).residing = some 0 ∧ 1 < e.entries.size ∧ (z.entry 1).code.firstBlock.isEmpty = false ∧
        z.indexName 1 = "i") ∧
      (0 < z.queues.size ∧ (z.queue 0).memory < z.memories.size ∧ z.isLoop 1 = true ∧
        (z.entry 1).loop.isNone = true ∧ (∀ n < z.entries.size, (z.entry n).owner ≠ some 1) ∧
        (z.definition? 0 "i").isNone = true) ∧
      (Turn.mark? ⟨0, z, z₁⟩ = some 3 ∧ 0 < z₁.queues.size ∧ (z₁.queue 0).memory < z₁.memories.size ∧
        z₁.residingQueue 3 = some 0) ∧
      (Turn.mark? ⟨0, z₁, z₂⟩ = some 5 ∧ 0 < z₂.queues.size ∧ (z₂.queue 0).memory < z₂.memories.size ∧
        z₂.residingQueue 5 = some 0) ∧
      (((Operation.runCommands source none {} true).act 10 (Host.create {} [])).1.toBool = true ∧
        Line.allUnmarked (Host.create {} []).catalogue (Source.parse source).lines = true ∧
        1 < E.entries.size ∧ E.isLoop 1 = true ∧ (E.entry 1).loop.isSome = true) ∧
      0 < e.queues.size ∧ (e.queue 0).state = .idle ∧ (e.queue 0).pace = .instant ∧
      (e.queue 0).replacedBy = none ∧ (e.queue 0).listeners.isEmpty = true ∧ (e.queue 0).last = none ∧
      Compiled.isBlock ((e.queue 0).pending.map fun n => (e.entry n).code) = true ∧
      e.registry = [] ∧ e.handoffs.isEmpty = true ∧
      (Structured.run (Drive.calls 1) none 0 e).1.toOption = some .done := by decide +kernel
  have prepares : Runs (Operation.LeavesMarks (Host.create {} []).catalogue) (Host.create {} []) e :=
    .ok .first 10 (.runCommands source none {} false) trivial unmarked ok
  have continues : Runs (fun x op => op.Continues x) (Host.create {} []) e :=
    .ok .first 10 (.runCommands source none {} false) trivial ⟨trivial, nofun⟩ ok
  have ran : Runs (Operation.LeavesMarks (Host.create {} []).catalogue) (Host.create {} []) E :=
    .ok .first 10 (.runCommands source none {} true) trivial unmarked finished
  have healthy : e.Healthy := (prepares.reachable .first).furnished.1
  have live : e.Live 1 := healthy.tidy.based.live_of_residing size resides
  have hx : x = (Entries.resolveArguments (Drive.calls 2) 1 e).2 := rfl
  have hz : z = (Commands.Loop.parse (Drive.calls 2) 1 x).2 := rfl
  have hz₁ : z₁ = (Commands.Loop.start 1 0 z).2 := rfl
  have hz₂ : z₂ = (Commands.execute (Drive.calls 2) 3 z₁).2 := rfl
  have hz₃ : z₃ = (Commands.execute (Drive.calls 2) 5 z₂).2 := rfl
  clear_value E z₃ z₂ z₁ z x e
  obtain ⟨args, resolves, wholes⟩ := Action.ok_of_toOption asked
  obtain ⟨a, rfl, quantity⟩ : ∃ a, args = [a] ∧ a.whole? = some 2 := by
    obtain ⟨a, rest, rfl, ha, hrest⟩ := List.map_eq_cons_iff.1 wholes
    cases List.map_eq_nil_iff.1 hrest
    exact ⟨a, rfl, ha⟩
  have resolved : Entries.resolveArguments (Drive.calls 2) 1 e = (.ok [a], x) := Prod.ext resolves hx.symm
  have parsed : Commands.Loop.parse (Drive.calls 2) 1 x = (.ok (), z) := hz ▸ Action.ok_of_toBool parses
  obtain ⟨parse, start, turns, runs⟩ := loops_run_as_asked 1
  obtain ⟨first, name, stores⟩ := parse 2 e x z [a] healthy live resolved parsed
  obtain ⟨b, hb, from'⟩ := Option.map_eq_some_iff.1 from'
  obtain ⟨c, hc, literal⟩ := Option.bind_eq_some_iff.1 hb
  obtain rfl := stores.first_eq size hc literal
  have asks : a.Asks (some b) 2 5 := ⟨quantity, from', by decide, by decide, by decide⟩
  have atStart : z.AtStart 0 1 (some b) := Commands.Loop.atStart (Drive.isolated_calls 2) healthy live resolved
    parsed stores.asked here memory isLoop (Option.isNone_iff_eq_none.1 idle) childless
  obtain ⟨y, started, turned₁⟩ := start 0 z (some b) a 2 5 atStart stores.arguments asks (by decide) fun h => by
    rw [h] at block
    cases block
  obtain rfl : z₁ = y := hz₁.trans (congrArg Prod.snd started)
  obtain ⟨t₀, asked₁⟩ := turns _ _ _ turned₁
  cases asked₁.head
  have turned₂ := (asked₁.rounds stores.arguments asks).turn (by simp) mark₁ (Drive.calls 2) here₁ memory₁ run₁
  rw [← hz₂] at turned₂
  obtain ⟨t₀, asked₂⟩ := turns _ _ _ turned₂
  cases asked₂.head
  have turned₃ := (asked₂.rounds stores.arguments asks).turn (by simp) mark₂ (Drive.calls 2) here₂ memory₂ run₂
  rw [← hz₃] at turned₃
  obtain ⟨t₀, asked₃⟩ := turns _ _ _ turned₃
  cases asked₃.head
  have rounds := asked₃.rounds stores.arguments asks
  have first := rounds.round (i := 0) rfl (by decide)
  have second := rounds.round (i := 1) rfl (by decide)
  have ends := rounds.ends (i := 2) rfl (by decide)
  rw [index] at first second ends
  obtain ⟨first', ts, t, turned, awaits, -⟩ := (runs {} E ran).1 ⟨present, loops, began⟩
  obtain ⟨exit, interpreted, rfl⟩ := Action.ok_of_toOption (f := id) (by simpa using interprets)
  obtain ⟨F, finishes, -⟩ := (runs {} e prepares).2 0 none 0 continues {
    queue
    idle := state
    instant := pace
    current
    listeners := List.isEmpty_iff.1 listeners
    last
    isProgram
    registry
    handoffs := List.isEmpty_iff.1 handoffs } interpreted
  exact ⟨⟨some b, turned₃⟩, first.index, second.index,
    ends.restored.trans (Option.isNone_iff_eq_none.1 before), ends.pending, ⟨first', ts, t, turned, awaits⟩,
    F, finishes⟩

/-- The whole number `10 ^ 21` is accepted as a first index, and it is a double.  Its text has an exponent, so it
is read as one, while other commands keep it: the loop has its round with the index one. -/
theorem large_index_lost :
    let source := "repeat 1 from:<element[1000000000000000000000].mul[1]> \x7b\n- debug log <[value]>\n\x7d"
    let e := ((Operation.runCommands source none {} false).act 10 (Host.create {} [])).2
    let x := (Entries.resolveArguments (Drive.calls 2) 1 e).2
    let E := ((Operation.runCommands source none {} true).act 10 (Host.create {} [])).2
    Reachable (Host.create {} []) E ∧
      (∃ a, (Entries.argument? (Drive.calls 2) 1 "from" x).1 = .ok (some a) ∧ a.whole? = some (10 ^ 21) ∧
        a.asNumber.toOption.map Number.text = some "1e+21" ∧ a.asWhole.toOption.map Number.text = some "1") ∧
      (Commands.Loop.parse (Drive.calls 2) 1 x).1 = .ok () ∧
      E.events.reverse.filterMap (fun v => if v.kind = .log then some v.message else none) = ["1"] := by
  intro source e x E
  obtain ⟨ok, parses, logged, given⟩ :
      ((Operation.runCommands source none {} true).act 10 (Host.create {} [])).1.toBool = true ∧
      (Commands.Loop.parse (Drive.calls 2) 1 x).1.toBool = true ∧
      E.events.reverse.filterMap (fun v => if v.kind = .log then some v.message else none) = ["1"] ∧
      (Entries.argument? (Drive.calls 2) 1 "from" x).1.toOption.map (·.map fun a =>
        (a.whole?, a.asNumber.toOption.map Number.text, a.asWhole.toOption.map Number.text)) =
        some (some (some (10 ^ 21), some "1e+21", some "1")) := by decide +kernel
  obtain ⟨found, read, numbers⟩ := Action.ok_of_toOption given
  obtain ⟨a, rfl, seen⟩ := Option.map_eq_some_iff.1 numbers
  obtain ⟨whole, texts⟩ := Prod.mk.inj seen
  exact ⟨.ok .first 10 (.runCommands source none {} true) trivial ok,
    ⟨a, read, whole, Prod.mk.inj texts⟩, congrArg Prod.fst (Action.ok_of_toBool parses), logged⟩

end QueueScript
