import QueueScript.Proofs.Isolation
import QueueScript.Proofs.Looping.Turns

/-!
# Loops count their rounds

If a loop is asked for a small number of rounds from a small index on, its turns put its block on a queue
that many times, with one index after the other, and the turn after these ends the loop.
-/

namespace QueueScript

open Structured (Rounds Counts opened bound counted closeLoop)

variable {e : Engine} {q : QueueRef} {m : EntryRef} {r : Rounds} {v : Float} {name : String}

/-! ## The definition of the index -/

namespace Engine

theorem definition?_ne_absent : e.definition? q name ≠ some .absent := by
  unfold definition?
  split
  · exact (Option.some_ne_none _).symm
  · assumption

/-- What a definition holds once it was given a value. -/
theorem definition?_put (hm : (e.queue q).memory < e.memories.size) {x : Value} (hx : x ≠ .absent) :
    definition? (e.changeMemory (e.queue q).memory fun y =>
      { y with definitions := y.definitions.put (Text.lower name) x }) q name = some x := by
  have memory := memory_changeMemory_self e hm fun y =>
    { y with definitions := y.definitions.put (Text.lower name) x }
  have found : (definitions (e.changeMemory (e.queue q).memory fun y =>
      { y with definitions := y.definitions.put (Text.lower name) x }) q).get? (Text.lower name) = some x := by
    refine (congrArg (fun y : Memory => y.definitions.get? (Text.lower name)) memory).trans ?_
    exact Keyed.get?_put_self _ _ _
  unfold definition?
  rw [found]
  split
  · rename_i habsent
    exact absurd (Option.some.inj habsent) hx
  · rfl

/-- A definition that was taken away holds nothing. -/
theorem definition?_erase (hm : (e.queue q).memory < e.memories.size) :
    definition? (e.changeMemory (e.queue q).memory fun y =>
      { y with definitions := y.definitions.erase (Text.lower name) }) q name = none := by
  have memory := memory_changeMemory_self e hm fun y =>
    { y with definitions := y.definitions.erase (Text.lower name) }
  have found : (definitions (e.changeMemory (e.queue q).memory fun y =>
      { y with definitions := y.definitions.erase (Text.lower name) }) q).get? (Text.lower name) = none := by
    refine (congrArg (fun y : Memory => y.definitions.get? (Text.lower name)) memory).trans ?_
    exact Keyed.get?_erase_self _ _
  unfold definition?
  rw [found]

end Engine

namespace Structured

/-- The index of a round is defined on its queue. -/
theorem definition?_opened (hq : q < e.queues.size) (hm : (e.queue q).memory < e.memories.size) :
    (opened q r v e).definition? q r.binding.name = some (.num v) := by
  have queue : ((opened q r v e).queue q).memory = ((bound q r v e).queue q).memory := by
    rw [queue_opened r v hq]
    rfl
  have same : (opened q r v e).definition? q r.binding.name = (bound q r v e).definition? q r.binding.name := by
    unfold Engine.definition? Engine.definitions
    rw [queue]
    rfl
  rw [same]
  exact Engine.definition?_put (e := counted r v e) hm (by simp)

/-- The definition of the index holds again what it held before the loop. -/
theorem definition?_closeLoop {e' : Engine} (hm : (e.queue q).memory < e.memories.size)
    (hb : r.binding.before ≠ some .absent) (h : closeLoop q r v e = (.ok (), e')) :
    e'.definition? q r.binding.name = r.binding.before := by
  have restored : r.binding.restore q (counted r v e) = (.ok (), e') := h
  unfold Binding.restore at restored
  revert restored hb
  cases r.binding.before with
  | none =>
    intro _ restored
    cases restored
    exact Engine.definition?_erase (e := counted r v e) hm
  | some x =>
    intro hb restored
    cases restored
    exact Engine.definition?_put (e := counted r v e) hm fun hx => hb (congrArg some hx)

theorem counts_at {n k : Nat} {f : Int} (ht : Doubles.Holds r.target (f + n - 1)) (hf : f.natAbs < 2 ^ 53)
    (hs : (f + n).natAbs < 2 ^ 53) (hk : k < n) : Counts r (n - (k + 1)) (f + k) := by
  have last : f + k + ((n - (k + 1) : Nat) : Int) = f + n - 1 := by omega
  refine ⟨?_, by omega, ?_⟩
  · rw [last]
    exact ht
  · rw [last]
    omega

end Structured

/-! ## Rounds and ends -/

namespace Turn

/-- The turn puts a block at the head of the queue, with a mark of the loop behind it, and defines the
index. -/
structure OpensRound (t : Turn) (name : String) (block : List Compiled) (index : Int) : Prop where
  index : ∃ x, Doubles.Holds x index ∧ t.after.definition? t.queue name = some (.num x)
  size : t.after.entries.size = t.before.entries.size + (block.length + 1)
  pending : (t.after.queue t.queue).pending = List.range' t.before.entries.size block.length ++
    (t.before.entries.size + block.length) :: (t.before.queue t.queue).pending
  codes : (List.range' t.before.entries.size block.length).map (fun n => (t.after.entry n).code) = block
  mark : t.mark? = some (t.before.entries.size + block.length)

/-- The turn ends the loop: it puts nothing on the queue, and gives the definition of the index back what
it held before. -/
structure EndsLoop (t : Turn) (name : String) (before : Option Value) : Prop where
  restored : t.after.definition? t.queue name = before
  size : t.after.entries.size = t.before.entries.size
  pending : (t.after.queue t.queue).pending = (t.before.queue t.queue).pending

variable {t : Turn} {i : Int}

theorem EndsLoop.mark?_eq {before : Option Value} (h : t.EndsLoop name before) : t.mark? = none := by
  unfold mark?
  rw [h.size, if_neg (Nat.lt_irrefl _)]

theorem Opens.length (h : t.Opens r v) :
    r.body.length = (t.before.entry r.owner).code.firstBlock.length := by
  rw [← h.repeatable.codes, h.body, List.length_map]

theorem Opens.opensRound (h : t.Opens r v) (hq : t.queue < t.before.queues.size)
    (hm : (t.before.queue t.queue).memory < t.before.memories.size) (hv : Doubles.Holds v i) :
    t.OpensRound r.binding.name (t.before.entry r.owner).code.firstBlock i := by
  have size := h.size
  have mark := h.mark?_eq
  have length := h.length
  obtain ⟨repeatable, body, events, same⟩ := h
  let x : Engine := { t.before with events }
  have shown : x.Repeatable r.owner := repeatable.kept (Nat.le_refl _) rfl rfl fun _ _ => rfl
  rw [length] at size mark
  refine ⟨⟨v, hv, ?_⟩, size, ?_, ?_, mark⟩
  · rw [same]
    exact Structured.definition?_opened (e := x) hq hm
  · rw [same, ← length]
    exact Structured.pending_opened (e := x) r v hq
  · have laid := Structured.laid_injected (q := t.queue) (bound t.queue r v x) r.owner true
      (r.body.map (bound t.queue r v x).entry) [{ code := x.markOf r.owner }]
    rw [Structured.size_bound, List.length_map, length] at laid
    rw [same]
    exact laid.codes.trans (Structured.codes_round t.queue r v x shown body)

theorem Closes.endsLoop (h : t.Closes r v) (hm : (t.before.queue t.queue).memory < t.before.memories.size)
    (hb : r.binding.before ≠ some .absent) : t.EndsLoop r.binding.name r.binding.before := by
  refine ⟨Structured.definition?_closeLoop hm hb h, h.size, ?_⟩
  obtain ⟨memories, same⟩ := h.after_eq
  rw [same]
  rfl

end Turn

namespace Engine

/-- A loop counts rounds: its turns so far have opened one round after the other, or ended the loop after
all of them. -/
structure Counting (r : Rounds) (n : Nat) (f : Int) (ts : List Turn) (e : Engine) : Prop where
  entry : r.owner < e.entries.size
  body : (e.entry r.owner).firstBlock = r.body
  length : ts.length ≤ n + 1
  loop : ∃ v, (e.entry r.owner).loop = some ⟨v, r.target, r.binding.name, r.binding.before⟩ ∧
    ∀ i, i + 1 = ts.length → i < n → Doubles.Holds v (f + i)
  turns {i : Nat} {t : Turn} : ts[i]? = some t → (i < n →
    t.OpensRound r.binding.name (e.entry r.owner).code.firstBlock (f + i)) ∧
    (n ≤ i → t.EndsLoop r.binding.name r.binding.before)

namespace Counting

variable {n : Nat} {f : Int} {ts : List Turn} {t t' : Turn} {e' : Engine} {s : LoopState}

theorem still (h : e.Counting r n f ts) (hs : e.Still r.owner e') : e'.Counting r n f ts where
  entry := Nat.lt_of_lt_of_le h.entry hs.size
  body := by
    unfold Entry.firstBlock
    rw [hs.blocks]
    exact h.body
  length := h.length
  loop := by
    rw [hs.loop]
    exact h.loop
  turns := by
    rw [hs.code h.entry]
    exact h.turns

/-- A mark is put on the queue only by the turns that open rounds. -/
theorem length_lt {k : EntryRef} (h : e.Counting r n f (ts ++ [t])) (hk : t.mark? = some k) :
    ts.length < n := by
  by_contra hge
  have last := h.turns (i := ts.length) (t := t) (by simp)
  cases (last.2 (Nat.le_of_not_lt hge)).mark?_eq.symm.trans hk

end Counting

/-- A turn of a loop that has counted so far leads to one that counts on. -/
theorem counting_append {n : Nat} {f : Int} {ts : List Turn} {t : Turn} (ha : t.Acts r v)
    (hq : t.queue < t.before.queues.size) (ho : r.owner < t.before.entries.size)
    (hbody : (t.before.entry r.owner).firstBlock = r.body) (hl : ts.length ≤ n)
    (hts : ∀ {i t'}, ts[i]? = some t' →
      (i < n → t'.OpensRound r.binding.name (t.before.entry r.owner).code.firstBlock (f + i)) ∧
        (n ≤ i → t'.EndsLoop r.binding.name r.binding.before))
    (hv : ts.length < n → Doubles.Holds v (f + ts.length))
    (ht : (ts.length < n →
        t.OpensRound r.binding.name (t.before.entry r.owner).code.firstBlock (f + ts.length)) ∧
      (n ≤ ts.length → t.EndsLoop r.binding.name r.binding.before)) : t.after.Counting r n f (ts ++ [t]) := by
  have moved := ha.moves hq
  refine {
    entry := Nat.lt_of_lt_of_le ho moved.entries
    body := by
      unfold Entry.firstBlock
      rw [moved.blocks ho]
      exact hbody
    length := by simpa using hl
    loop := ⟨v, ha.loop ho, fun i hi hlt => ?_⟩
    turns := fun {i t'} hit => ?_ }
  · obtain rfl : i = ts.length := by simpa using hi
    exact hv hlt
  · rw [moved.code ho]
    rw [List.getElem?_append] at hit
    split at hit
    · exact hts hit
    · obtain ⟨rfl, rfl⟩ : i = ts.length ∧ t = t' := by
        have hlt := (List.getElem?_eq_some_iff.1 hit).1
        rw [List.length_singleton] at hlt
        obtain rfl : i = ts.length := by omega
        rw [Nat.sub_self] at hit
        exact ⟨rfl, Option.some.inj hit⟩
      exact ht

section Start

variable {first : Option Argument} {e' : Engine} {n : Nat} {f : Int} (h : e.AtStart q m first)
  (hs : Commands.Loop.start m q e = (.ok (), e')) (hl : (e'.entry m).loop.isSome = true)
  (hn : Doubles.Holds (e.countOf m "quantity") n) (hf : Doubles.Holds (e.countOf m "from") f)
  (hn53 : n < 2 ^ 53)

include h hs hl hn hn53

/-- A loop that has begun was asked for a round at least. -/
theorem AtStart.pos : 0 < n := by
  obtain ⟨hpos, -, -⟩ := h.opens hs hl
  rw [hn.le_iff Doubles.Holds.zero (by omega) (by decide)] at hpos
  omega

include hf

/-- The first turn of a loop opens the first round. -/
theorem AtStart.counting : e'.Counting (e.roundsAsked m q) n f [⟨q, e, e'⟩] := by
  have pos := h.pos hs hl hn hn53
  obtain ⟨-, -, opens⟩ := h.opens hs hl
  have index : f + (([] : List Turn).length : Nat) = f := Int.add_zero f
  have none {i : Nat} {t : Turn} (hi : ([] : List Turn)[i]? = some t) :
      (i < n → t.OpensRound (e.roundsAsked m q).binding.name (e.entry m).code.firstBlock (f + i)) ∧
        (n ≤ i → t.EndsLoop (e.roundsAsked m q).binding.name (e.roundsAsked m q).binding.before) := absurd hi (by simp)
  refine counting_append (t := ⟨q, e, e'⟩) (.inl opens) h.queue h.entry rfl (Nat.zero_le n) none (fun _ => ?_)
    ⟨fun _ => ?_, fun hle => absurd pos (Nat.not_lt.2 hle)⟩
  · rw [index]
    exact hf
  · rw [index]
    exact opens.opensRound h.queue h.memory hf

end Start

/-- A mark of a loop opens the next round, or ends the loop after the last one. -/
theorem Counting.turn {n : Nat} {f : Int} {ts : List Turn} {t : Turn} {k : EntryRef} {e' : Engine}
    (h : e.Counting r n f (ts ++ [t])) (hr : e.Rounded r.owner (ts ++ [t])) (hq : q < e.queues.size)
    (hm : (e.queue q).memory < e.memories.size) (hk : t.mark? = some k)
    (hi : Commands.Loop.iterate k q e = (.ok (), e')) (ht : Doubles.Holds r.target (f + n - 1))
    (hf : f.natAbs < 2 ^ 53) (hs : (f + n).natAbs < 2 ^ 53) (hb : r.binding.before ≠ some .absent) :
    e'.Counting r n f (ts ++ [t, ⟨q, e, e'⟩]) := by
  have hlt := h.length_lt hk
  obtain ⟨s, y, loop, iterated, acts⟩ :=
    hr.iterate (List.mem_append_right ts (List.mem_singleton_self t)) hk q
  cases hi.symm.trans iterated
  obtain ⟨v, loop', holds⟩ := h.loop
  obtain rfl := Option.some.inj (loop.symm.trans loop')
  have same : e.roundsLeft r.owner ⟨v, r.target, r.binding.name, r.binding.before⟩ = r := by
    unfold roundsLeft
    rw [h.body]
  have counts := Structured.counts_at ht hf hs hlt
  have length : (ts ++ [t]).length = ts.length + 1 := by simp
  have index : f + (ts.length : Int) + 1 = f + ((ts ++ [t]).length : Nat) := by
    rw [length]
    push_cast
    ring
  have next : v + 1.0 = Float.ofInt (f + ((ts ++ [t]).length : Nat)) := by
    rw [← index]
    exact counts.next (holds ts.length length.symm hlt)
  have goes : v + 1.0 ≤ r.target ↔ (ts ++ [t]).length < n := by
    rw [next, ← index, counts.next_le, length]
    omega
  have small (hl : (ts ++ [t]).length < n) : Doubles.Holds (v + 1.0) (f + ((ts ++ [t]).length : Nat)) := by
    rw [next]
    exact .ofInt (by omega)
  have split : ts ++ [t, ⟨q, e, e'⟩] = ts ++ [t] ++ [⟨q, e, e'⟩] := by simp
  rw [same] at acts
  rw [split]
  refine counting_append (t := ⟨q, e, e'⟩) (acts.imp And.right And.right) hq h.entry h.body (length ▸ hlt)
    h.turns small ?_
  rcases acts with ⟨hle, opens⟩ | ⟨hgt, closes⟩
  · have hl := goes.1 hle
    exact ⟨fun _ => opens.opensRound hq hm (small hl), fun hge => absurd hl (Nat.not_lt.2 hge)⟩
  · exact ⟨fun hl => absurd (goes.2 hl) hgt, fun _ => closes.endsLoop hm hb⟩

/-- A loop that is asked for `n` rounds from `f` on, both small, has its rounds one after the other. -/
theorem Turned.counts {first : Option Argument} {ts : List Turn} (h : e.Turned m first ts) :
    ∃ t₀ ∈ ts.head?, t₀.before.AtStart t₀.queue m first ∧ (e.entry m).code = (t₀.before.entry m).code ∧
      ∀ (n : Nat) (f : Int), Doubles.Holds (t₀.before.countOf m "quantity") n →
        Doubles.Holds (t₀.before.countOf m "from") f → n < 2 ^ 53 → f.natAbs < 2 ^ 53 →
          (f + n).natAbs < 2 ^ 53 → 0 < n ∧ e.Counting (t₀.before.roundsAsked m t₀.queue) n f ts := by
  induction h with
  | @start q x y hx hs hl =>
    obtain ⟨-, -, opens⟩ := hx.opens hs hl
    have code : (y.entry m).code = (x.entry m).code := (Turn.Acts.moves (.inl opens) hx.queue).code hx.entry
    refine ⟨_, rfl, hx, code, fun n f hn hf hn53 hf53 hsum => ?_⟩
    exact ⟨hx.pos hs hl hn hn53, hx.counting hs hl hn hf hn53⟩
  | @turn q k t ts x y turned hq hm hk hi ih =>
    obtain ⟨t₀, ht₀, started, code, counts⟩ := ih
    have rounded := turned.rounded
    obtain ⟨s, y', -, iterated, acts⟩ := rounded.iterate (List.mem_append_right ts (List.mem_singleton_self t)) hk q
    cases hi.symm.trans iterated
    have moved : x.Moves q [m] y := Turn.Acts.moves (t := ⟨q, x, y⟩) (acts.imp And.right And.right) hq
    refine ⟨t₀, ?_, started, (moved.code rounded.entry).trans code, fun n f hn hf hn53 hf53 hsum => ?_⟩
    · rw [List.head?_append] at ht₀ ⊢
      cases ts <;> exact ht₀
    · obtain ⟨pos, counting⟩ := counts n f hn hf hn53 hf53 hsum
      have target : Doubles.Holds (t₀.before.roundsAsked m t₀.queue).target (f + n - 1) :=
        (hf.add hn hf53 (by omega) hsum).pred hsum (by omega)
      exact ⟨pos, counting.turn rounded hq hm hk hi target hf53 hsum definition?_ne_absent⟩
  | still turned hs ih =>
    obtain ⟨t₀, ht₀, started, code, counts⟩ := ih
    refine ⟨t₀, ht₀, started, (hs.code turned.rounded.entry).trans code, fun n f hn hf hn53 hf53 hsum => ?_⟩
    obtain ⟨pos, counting⟩ := counts n f hn hf hn53 hf53 hsum
    exact ⟨pos, counting.still hs⟩

end Engine

end QueueScript
