import QueueScript.Proofs.Nesting.Turn
import QueueScript.Proofs.Structured.Serving

/-!
# Rounds of a loop

A block is laid at the head of a queue as new entries (`Laid`), and a round of a loop as a block with a
mark behind it (`Round`).  The mark either puts the next round in its place or ends the loop; here is
what its turn leads to.  The count of rounds is a whole number here and a double in the engine, and as
long as all indices are small the two agree on when a loop ends.
-/

namespace QueueScript

namespace Structured

variable {P : Prop} {fuel : Nat} {seconds : Option Float} {q : QueueRef} {n mark : EntryRef}
  {X following ns : List EntryRef} {e e' : Engine} {α : Type}

/-! ## Blocks on a queue -/

/-- Entries on a queue have the commands of a block, and none of them is older than `b`. -/
structure Laid (q : QueueRef) (b : Nat) (codes : List Compiled) (ns : List EntryRef) (e : Engine) :
    Prop where
  codes : ns.map (fun n => (e.entry n).code) = codes
  size : ∀ n ∈ ns, n < e.entries.size
  residing : ∀ n ∈ ns, (e.entry n).residing = some q
  new : ∀ n ∈ ns, b ≤ n

namespace Laid

variable {b : Nat} {codes : List Compiled}

/-- Entries are laid as long as their commands, blocks and places are kept. -/
theorem keep (h : Laid q b codes ns e) (size : e.entries.size ≤ e'.entries.size)
    (code : ∀ {m}, m < e.entries.size → (e'.entry m).code = (e.entry m).code)
    (residing : ∀ {m}, m < e.entries.size → (e'.entry m).residing = (e.entry m).residing) :
    Laid q b codes ns e' where
  codes := by
    rw [← h.codes]
    exact List.map_congr_left fun n hn => code (h.size n hn)
  size n hn := Nat.lt_of_lt_of_le (h.size n hn) size
  residing n hn := (residing (h.size n hn)).trans (h.residing n hn)
  new := h.new

/-- Entries stay laid where programs remain. -/
theorem remains (h : Laid q b codes ns e) (hr : e.Remains q e') : Laid q b codes ns e' :=
  h.keep hr.size hr.code hr.residing

/-- Entries stay laid when the queue moves on and they are not touched. -/
theorem moves (h : Laid q b codes ns e) (hm : e.Moves q X e') : Laid q b codes ns e' :=
  h.keep hm.entries hm.code hm.residing

/-- Entries that are not older than one number are not older than a smaller one. -/
theorem older (h : Laid q b codes ns e) {a : Nat} (ha : a ≤ b) : Laid q a codes ns e :=
  { h with new := fun n hn => Nat.le_trans ha (h.new n hn) }

/-- The rest of a block is laid. -/
theorem tail {c : Compiled} (h : Laid q b (c :: codes) (n :: ns) e) : Laid q b codes ns e where
  codes := (List.cons.inj h.codes).2
  size m hm := h.size m (List.mem_cons_of_mem _ hm)
  residing m hm := h.residing m (List.mem_cons_of_mem _ hm)
  new m hm := h.new m (List.mem_cons_of_mem _ hm)

/-- An older entry is none of those that are laid. -/
theorem not_mem (h : Laid q b codes ns e) {m : EntryRef} (hm : m < b) : m ∉ ns :=
  fun hmem => Nat.lt_irrefl _ (Nat.lt_of_lt_of_le hm (h.new m hmem))

end Laid

/-- Clones of the entries of a block are at the head of the queue. -/
theorem laid_injected (e : Engine) (owner : EntryRef) (hurried : Bool) (xs more : List Entry) :
    Laid q e.entries.size (xs.map Entry.code) (List.range' e.entries.size xs.length)
      (e.injected owner q hurried (xs ++ more)) := by
  have here {i : Nat} (hi : i < xs.length) :
      (e.injected owner q hurried (xs ++ more)).entry (e.entries.size + i) =
        { e.placed q (e.child owner xs[i]) with forcedInstant := hurried } :=
    e.entry_injected q owner hurried (by simp [List.getElem?_append_left, hi])
  refine ⟨List.ext_getElem (by simp) fun i h _ => ?_, fun n hn => ?_, fun n hn => ?_, fun n hn => ?_⟩
  · rw [List.length_map, List.length_range'] at h
    simp [here h, Engine.placed, Engine.child]
  all_goals obtain ⟨hlow, hhigh⟩ := List.mem_range'_1.1 hn
  all_goals obtain ⟨i, rfl⟩ := Nat.exists_eq_add_of_le hlow
  · rw [e.size_injected, List.length_append]
    exact Nat.lt_of_lt_of_le hhigh (Nat.add_le_add_left (Nat.le_add_right _ _) _)
  · rw [here (Nat.lt_of_add_lt_add_left hhigh)]
    rfl
  · exact hlow

/-- The entry behind a block at the head of the queue. -/
theorem entry_behind (e : Engine) (owner : EntryRef) (hurried : Bool) (xs : List Entry) (x : Entry) :
    (e.injected owner q hurried (xs ++ [x])).entry (e.entries.size + xs.length) =
      { e.placed q (e.child owner x) with forcedInstant := hurried } :=
  e.entry_injected q owner hurried (by simp)

/-! ## A round on the queue -/

/-- The loop has a number of further rounds, and its index is a double. -/
structure Counts (r : Rounds) (more : Nat) (index : Int) : Prop where
  target : Doubles.Holds r.target (index + more)
  small : index.natAbs < 2 ^ 53
  last : (index + more + 1).natAbs < 2 ^ 53

namespace Counts

variable {r : Rounds} {more : Nat} {index : Int} {v : Float}

/-- The next round has one less to go and the next index. -/
theorem succ (h : Counts r (more + 1) index) : Counts r more (index + 1) := by
  obtain ⟨target, small, last⟩ := h
  push_cast at target last
  refine ⟨?_, by omega, ?_⟩
  · rwa [Int.add_assoc, Int.add_comm 1]
  · rwa [Int.add_assoc index, Int.add_comm 1]

/-- The next index. -/
theorem next (h : Counts r more index) (hv : Doubles.Holds v index) :
    v + 1.0 = Float.ofInt (index + 1) := by
  have last := h.last
  have small := h.small
  exact hv.succ small (by omega)

/-- The next index is beyond the last one just if no round is left. -/
theorem next_le (h : Counts r more index) : Float.ofInt (index + 1) ≤ r.target ↔ 0 < more := by
  obtain ⟨target, small, last⟩ := h
  rw [(Doubles.Holds.ofInt (by omega)).le_iff target (by omega) (by omega)]
  omega

end Counts

/-- A round of a loop is on the queue: its block, made after `b`, and the mark behind it. -/
structure Round (q : QueueRef) (b : Nat) (r : Rounds) (more : Nat) (index : Int) (ns : List EntryRef)
    (mark : EntryRef) (e : Engine) : Prop extends Counts r more index where
  owner : r.owner < b
  laid : Laid q b (e.entry r.owner).code.firstBlock ns e
  new : b ≤ mark
  size : mark < e.entries.size
  code : (e.entry mark).code = e.markOf r.owner
  residing : (e.entry mark).residing = some q
  owned : (e.entry mark).owner = some r.owner
  body : (e.entry r.owner).firstBlock = r.body
  loop : ∃ v, Doubles.Holds v index ∧
    (e.entry r.owner).loop = some ⟨v, r.target, r.binding.name, r.binding.before⟩

namespace Round

variable {b : Nat} {r : Rounds} {more : Nat} {index : Int}

/-- The entry of a loop is there. -/
theorem owner_lt (h : Round q b r more index ns mark e) : r.owner < e.entries.size :=
  Nat.lt_of_lt_of_le h.owner (Nat.le_trans h.new (Nat.le_of_lt h.size))

/-- A round is on the queue as long as what it is made of is kept. -/
theorem keep (h : Round q b r more index ns mark e) (size : e.entries.size ≤ e'.entries.size)
    (code : ∀ {m}, m < e.entries.size → (e'.entry m).code = (e.entry m).code)
    (blocks : ∀ {m}, m < e.entries.size → (e'.entry m).blocks = (e.entry m).blocks)
    (residing : ∀ {m}, m < e.entries.size → (e'.entry m).residing = (e.entry m).residing)
    (owner : ∀ {m}, m < e.entries.size → (e'.entry m).owner = (e.entry m).owner)
    (loop : (e'.entry r.owner).loop = (e.entry r.owner).loop) : Round q b r more index ns mark e' where
  toCounts := h.toCounts
  owner := h.owner
  laid := by
    rw [code h.owner_lt]
    exact h.laid.keep size code residing
  new := h.new
  size := Nat.lt_of_lt_of_le h.size size
  code := by
    rw [code h.size, h.code]
    unfold Engine.markOf
    rw [code h.owner_lt]
  residing := (residing h.size).trans h.residing
  owned := (owner h.size).trans h.owned
  body := by
    rw [← h.body]
    unfold Entry.firstBlock
    rw [blocks h.owner_lt]
  loop := by
    rw [loop]
    exact h.loop

/-- A round made after one entry is a round made after an older one. -/
theorem older (h : Round q b r more index ns mark e) {a : Nat} (hr : r.owner < a) (ha : a ≤ b) :
    Round q a r more index ns mark e :=
  { h with owner := hr, laid := h.laid.older ha, new := Nat.le_trans ha h.new }

/-- A round stays on the queue where programs remain. -/
theorem remains (h : Round q b r more index ns mark e) (hr : e.Remains q e') :
    Round q b r more index ns mark e' :=
  h.keep hr.size hr.code hr.blocks hr.residing hr.owner (hr.loop h.owner_lt)

/-- A round stays on the queue when this moves on and the loop is not touched. -/
theorem moves (h : Round q b r more index ns mark e) (hm : e.Moves q X e') (hX : r.owner ∉ X) :
    Round q b r more index ns mark e' :=
  h.keep hm.entries hm.code hm.blocks hm.residing hm.owner (by rw [hm.entry h.owner_lt hX])

end Round

/-! ## Putting a round on the queue -/

section Opened

variable (q : QueueRef) (r : Rounds) (value : Float) (e : Engine)

/-- The engine when a loop has noted where it stands. -/
def counted : Engine :=
  e.changeEntry r.owner ({ · with loop := some ⟨value, r.target, r.binding.name, r.binding.before⟩ })

/-- The engine when a definition holds the index. -/
def bound : Engine :=
  (counted r value e).changeMemory (e.queue q).memory fun m =>
    { m with definitions := m.definitions.put (Text.lower r.binding.name) (.num value) }

/-- The entries of a round: those of the block, and the mark. -/
def round : List Entry :=
  r.body.map (bound q r value e).entry ++ [{ code := e.markOf r.owner }]

/-- The engine when a round is on the queue. -/
def opened : Engine :=
  (bound q r value e).injected r.owner q true (round q r value e)

/-- Neither the note of a loop nor its index makes an entry. -/
theorem size_bound : (bound q r value e).entries.size = e.entries.size :=
  e.size_changeEntry r.owner _

/-- A round is a block and its mark. -/
theorem length_round : (round q r value e).length = r.body.length + 1 := by
  unfold round
  rw [List.length_append, List.length_map]
  rfl

/-- The blocks in a round are of base entries. -/
theorem inner_round : ∀ x ∈ round q r value e, ∀ m ∈ x.inner, (bound q r value e).IsBase m := by
  intro x hx m hm
  rcases List.mem_append.1 hx with hx | hx
  · obtain ⟨k, -, rfl⟩ := List.mem_map.1 hx
    exact .inr ⟨k, hm⟩
  · rw [List.mem_singleton.1 hx] at hm
    exact absurd hm List.not_mem_nil

/-- The note of a loop keeps what programs are made of. -/
theorem steadies_counted : Entry.Steadies
    ({ · with loop := some ⟨value, r.target, r.binding.name, r.binding.before⟩ }) :=
  ⟨fun _ => rfl, fun _ => rfl⟩

/-- Only the loop is touched when it notes where it stands. -/
theorem moves_counted : e.Moves q [r.owner] (counted r value e) :=
  .changeEntry (List.mem_singleton_self _) (steadies_counted r value) (fun _ => rfl) (fun _ => rfl) e

/-- The entries of the block may be cloned. -/
theorem clonable_bound {e : Engine} (hr : e.Repeatable r.owner)
    (hbody : (e.entry r.owner).firstBlock = r.body) : (bound q r value e).Clonable r.body := by
  intro m hm
  rw [← hbody] at hm
  have differs : r.owner ≠ m := by
    rintro rfl
    exact hr.apart hm
  have same : (bound q r value e).entry m = e.entry m := e.entry_changeEntry_of_ne differs _
  rw [same, size_bound]
  exact hr.clonable m hm

/-- The commands of the block are those of its entries. -/
theorem codes_round (hr : e.Repeatable r.owner) (hbody : (e.entry r.owner).firstBlock = r.body) :
    (r.body.map (bound q r value e).entry).map Entry.code = (e.entry r.owner).code.firstBlock := by
  rw [← hr.codes, hbody, List.map_map]
  exact List.map_congr_left fun m _ => e.entry_changeEntry_keep (steadies_counted r value).code r.owner m

/-- Only the loop is touched when a definition holds the index. -/
theorem moves_bound : e.Moves q [r.owner] (bound q r value e) :=
  (moves_counted q r value e).trans (.of_tables rfl rfl rfl rfl rfl (Nat.le_refl _)) fun _ h _ => h

variable {q e}

/-- The mark of a loop is the same after its note. -/
theorem markOf_bound (ho : r.owner < e.entries.size) : (bound q r value e).markOf r.owner = e.markOf r.owner := by
  unfold Engine.markOf
  rw [(moves_bound q r value e).code ho]

/-- Only the loop is touched when a round is put on the queue. -/
theorem moves_opened (hq : q < e.queues.size) : e.Moves q [r.owner] (opened q r value e) :=
  (moves_bound q r value e).trans
    (.injected (e := bound q r value e) hq r.owner true (inner_round q r value e)) fun _ h _ => h

/-- The queue with a round on it. -/
theorem queue_opened (hq : q < e.queues.size) : (opened q r value e).queue q =
    { e.queue q with pending := List.range' e.entries.size r.body.length ++
      (e.entries.size + r.body.length) :: (e.queue q).pending } := by
  have range : List.range' (bound q r value e).entries.size (round q r value e).length =
      List.range' e.entries.size r.body.length ++ [e.entries.size + r.body.length] := by
    rw [size_bound, length_round, List.range'_concat, Nat.one_mul]
  refine ((bound q r value e).queue_put q _ _ hq).trans ?_
  rw [range, List.append_assoc]
  rfl

/-- The entry that was begun last stays so. -/
theorem last_opened (hq : q < e.queues.size) :
    ((opened q r value e).queue q).last = (e.queue q).last := by
  rw [queue_opened r value hq]

/-- The block and the mark stand in front of what was pending. -/
theorem pending_opened (hq : q < e.queues.size) : ((opened q r value e).queue q).pending =
    List.range' e.entries.size r.body.length ++ (e.entries.size + r.body.length) ::
      (e.queue q).pending := by
  rw [queue_opened r value hq]

/-- The round that was put on the queue. -/
theorem round_opened {more : Nat} {index : Int} (hq : q < e.queues.size) (ho : r.owner < e.entries.size)
    (hcounts : Counts r more index) (hv : Doubles.Holds value index)
    (hr : e.Repeatable r.owner) (hbody : (e.entry r.owner).firstBlock = r.body) :
    Round q e.entries.size r more index (List.range' e.entries.size r.body.length)
      (e.entries.size + r.body.length) (opened q r value e) := by
  have size := size_bound q r value e
  have moved := moves_opened r value hq
  have mark := entry_behind (q := q) (bound q r value e) r.owner true
    (r.body.map (bound q r value e).entry) { code := e.markOf r.owner }
  have laid := laid_injected (q := q) (bound q r value e) r.owner true
    (r.body.map (bound q r value e).entry) [{ code := e.markOf r.owner }]
  rw [size, List.length_map] at mark laid
  rw [codes_round q r value e hr hbody, ← moved.code ho] at laid
  refine {
    toCounts := hcounts, owner := ho, laid, new := Nat.le_add_right _ _, size := ?_, code := ?_,
    residing := ?_, owned := ?_, body := ?_, loop := ⟨value, hv, ?_⟩ }
  · show _ < ((bound q r value e).injected r.owner q true _).entries.size
    rw [Engine.size_injected, size, length_round]
    exact Nat.lt_succ_self _
  · refine (congrArg Entry.code mark).trans ?_
    show e.markOf r.owner = (opened q r value e).markOf r.owner
    unfold Engine.markOf
    rw [moved.code ho]
  · exact congrArg Entry.residing mark
  · exact congrArg Entry.owner mark
  · rw [← hbody]
    unfold Entry.firstBlock
    rw [moved.blocks ho]
  · have kept := (bound q r value e).entry_put_of_lt q ((round q r value e).map fun x =>
      { (bound q r value e).placed q ((bound q r value e).child r.owner x) with forcedInstant := true })
      (List.range' (bound q r value e).entries.size (round q r value e).length ++ ·)
      (size ▸ ho)
    refine (congrArg Entry.loop kept).trans ?_
    exact congrArg Entry.loop (e.entry_changeEntry_self ho _)

variable (hc : e.catalogue.find? "repeat" = some Builtin.loop.handler) (ho : r.owner < e.entries.size)
  (hb : (bound q r value e).Clonable r.body)

include hc ho hb

/-- The interpreter puts a round on the queue. -/
theorem openRound_eq : openRound q r value e =
    (.ok (List.range' e.entries.size r.body.length, e.entries.size + r.body.length),
      opened q r value e) := by
  let x := bound q r value e
  have hox : r.owner < x.entries.size := (size_bound q r value e).symm ▸ ho
  let body := r.body.map x.entry
  have marked := @Engine.createMark_grown x r.owner hc hox (body.map (x.child r.owner))
  have round := @Engine.inject_round x r.owner q body
  rw [List.length_map, List.length_map, size_bound] at marked
  rw [List.length_map, List.range'_concat, Nat.one_mul, size_bound] at round
  let put (ns : List EntryRef) (mark : EntryRef) : Action (List EntryRef × EntryRef) := do
    Action.each (Entries.forceInstant · true) (ns ++ [mark])
    Queues.inject q (ns ++ [mark])
    pure (ns, mark)
  have rest : openRound q r value e = (do
      let ns ← Entries.spawn r.owner r.body
      let mark ← Commands.Loop.createMark r.owner
      put ns mark : Action (List EntryRef × EntryRef)) x := rfl
  have spawned := x.spawn_eq r.owner hb
  have children : r.body.map (fun m => x.child r.owner (x.entry m)) = body.map (x.child r.owner) := by
    rw [List.map_map]
    rfl
  rw [size_bound, children] at spawned
  rw [rest, Action.bind_ok spawned, Action.bind_ok marked]
  have putting : put (List.range' e.entries.size r.body.length) (e.entries.size + r.body.length) =
      (do
        Action.each (Entries.forceInstant · true)
          (List.range' e.entries.size r.body.length ++ [e.entries.size + r.body.length])
        Queues.inject q (List.range' e.entries.size r.body.length ++ [e.entries.size + r.body.length]) :
        Action Unit) >>= fun _ => pure
          (List.range' e.entries.size r.body.length, e.entries.size + r.body.length) := by
    simp only [put, bind_assoc]
  rw [putting, Action.bind_ok round]
  unfold opened Structured.round
  rw [← markOf_bound r value ho]
  rfl

/-- The engine puts the same round on the queue. -/
theorem injectIteration_bound :
    Commands.Loop.injectIteration r.owner q r.body (bound q r value e) = (.ok (), opened q r value e) := by
  have hox : r.owner < (bound q r value e).entries.size := (size_bound q r value e).symm ▸ ho
  have injected := Commands.Loop.injectIteration_eq (e := bound q r value e) hc hox q hb
  rw [markOf_bound r value ho] at injected
  exact injected

end Opened

end Structured

end QueueScript
