import QueueScript.Proofs.Looping.Whole
import QueueScript.Proofs.Structured.Commands

/-!
# The turns of a loop

The command of a loop gives it a first turn, and each mark of the loop a further one.  A turn puts a round
of the loop on a queue, with a new mark behind it, or ends the loop.  Here the turns of a loop are listed
that an engine has seen (`Engine.Turned`): from one to the next nothing happens to the loop
(`Engine.Still`), so the list says how often the block was put on a queue, and with what index.
-/

namespace QueueScript

open Structured (Rounds opened counted bound round closeLoop)

/-! ## What a loop is asked for -/

namespace Engine

variable (e : Engine) (m : EntryRef) (q : QueueRef)

/-- The number that a stored object counts as. -/
def countOf (key : String) : Float :=
  match (e.entry m).object? key with
  | some v => (e.reveal v).count
  | none => 0.0 / 0.0

/-- The text of a stored object. -/
def elementOf? (key : String) : Option String :=
  ((e.entry m).object? key).map fun v => (e.reveal v).text

/-- The name of the definition that holds the index. -/
def indexName : String :=
  (e.elementOf? m "as").getD "value"

/-- The rounds that a loop is asked for. -/
def roundsAsked : Rounds :=
  ⟨m, ⟨e.indexName m, e.definition? q (e.indexName m)⟩,
    e.countOf m "from" + e.countOf m "quantity" - 1.0, (e.entry m).firstBlock⟩

/-- The rounds of a loop that has begun. -/
def roundsLeft (s : LoopState) : Rounds :=
  ⟨m, ⟨s.name, s.before⟩, s.target, (e.entry m).firstBlock⟩

variable {e m}

/-- A number that is stored is the count. -/
theorem countOf_num {key : String} {v : Float} (h : (e.entry m).object? key = some (.num v)) :
    e.countOf m key = v := by
  unfold countOf
  rw [h]
  rfl

end Engine

namespace Entries

/-- A count is read off the entry, and nothing is changed. -/
theorem count_eq (m : EntryRef) (key : String) (e : Engine) :
    count m key e = (.ok (e.countOf m key), e) := by
  unfold Engine.countOf
  show ((match (e.entry m).object? key with
    | some v => do pure (← Action.reveal v).count
    | none => pure (0.0 / 0.0) : Action Float)) e = _
  cases (e.entry m).object? key <;> rfl

/-- An element is read off the entry, and nothing is changed. -/
theorem element?_eq (m : EntryRef) (key : String) (e : Engine) :
    element? m key e = (.ok (e.elementOf? m key), e) := by
  unfold Engine.elementOf?
  show ((match (e.entry m).object? key with
    | some v => some <$> Action.textOf v
    | none => pure none : Action (Option String))) e = _
  cases (e.entry m).object? key <;> rfl

end Entries

namespace Commands.Loop

variable {e : Engine} {m k : EntryRef} {s : LoopState}

/-- The command of a loop has no rounds to run, or nothing to repeat, or puts the first round on the
queue. -/
theorem start_eq (hc : e.catalogue.find? "repeat" = some Builtin.loop.handler) (hm : m < e.entries.size)
    (hr : e.Repeatable m) (q : QueueRef) : ∃ events, start m q e =
      if e.countOf m "quantity" ≤ 0.0 then (.ok (), { e with events })
      else if (e.entry m).code.firstBlock.isEmpty then
        (.error (.runtime .emptyLoop), { e with events })
      else (.ok (), opened q (e.roundsAsked m q) (e.countOf m "from") { e with events }) := by
  obtain ⟨events, shown⟩ := e.emit_eq (.report (e.entry m).code.handler.name
    [("quantity", Number.text (e.countOf m "quantity")), ("from", Number.text (e.countOf m "from")),
      ("as", e.indexName m)] (e.scope m)) (e.scope m)
  have reported : report m [("quantity", Number.text (e.countOf m "quantity")),
      ("from", Number.text (e.countOf m "from")), ("as", e.indexName m)] e = (.ok (), { e with events }) :=
    congrArg (Except.ok (), ·) shown
  refine ⟨events, ?_⟩
  unfold start
  rw [Action.bind_ok (Entries.count_eq m "quantity" e), Action.bind_ok (Entries.count_eq m "from" e),
    Action.bind_ok (Entries.element?_eq m "as" e)]
  refine (Action.bind_ok reported).trans ?_
  by_cases hle : e.countOf m "quantity" ≤ 0.0
  · rw [if_pos hle, if_pos hle]
    rfl
  rw [if_neg hle, if_neg hle]
  have body : body m { e with events } = (.ok (e.entry m).firstBlock, { e with events }) := rfl
  refine (Action.bind_ok body).trans ?_
  rw [← hr.isEmpty]
  cases (e.entry m).firstBlock.isEmpty with
  | true => rfl
  | false =>
    have shown : Engine.Repeatable { e with events } m := hr.kept (Nat.le_refl _) rfl rfl fun _ _ => rfl
    have clonable := Structured.clonable_bound q (e.roundsAsked m q) (e.countOf m "from") shown rfl
    exact Structured.injectIteration_bound (q := q) (e.roundsAsked m q) _ hc hm clonable

/-- A mark puts the next round on the queue, or ends its loop. -/
theorem iterate_eq (hc : e.catalogue.find? "repeat" = some Builtin.loop.handler) (hm : m < e.entries.size)
    (hr : e.Repeatable m) (h : loopOf e k = some (m, s)) (q : QueueRef) :
    iterate k q e = if s.index + 1.0 ≤ s.target then
        (.ok (), opened q (e.roundsLeft m s) (s.index + 1.0) e)
      else closeLoop q (e.roundsLeft m s) (s.index + 1.0) e := by
  let r := e.roundsLeft m s
  have turn : iterate k q e = (if s.index + 1.0 ≤ s.target then do
      Queues.define q s.name (.num (s.index + 1.0))
      injectIteration m q (← body m)
    else restore q { s with index := s.index + 1.0 } : Action Unit) (counted r (s.index + 1.0) e) :=
    iterate_of_some h
  rw [turn]
  by_cases hle : s.index + 1.0 ≤ s.target
  · rw [if_pos hle, if_pos hle]
    have body : body m (bound q r (s.index + 1.0) e) = (.ok r.body, bound q r (s.index + 1.0) e) := by
      show (Except.ok ((bound q r (s.index + 1.0) e).entry m).firstBlock, _) = _
      unfold Entry.firstBlock
      rw [(Structured.moves_bound q r _ e).blocks hm]
      rfl
    have clonable := Structured.clonable_bound q r (s.index + 1.0) hr rfl
    exact (Action.bind_ok body).trans (Structured.injectIteration_bound r _ hc hm clonable)
  · rw [if_neg hle, if_neg hle]
    rfl

end Commands.Loop

/-! ## Putting a round on a queue, and ending a loop -/

namespace Structured

variable {q : QueueRef} {r : Rounds} {v : Float} {e : Engine} {n : EntryRef}

/-- A round makes a clone of the block and its mark. -/
theorem size_opened : (opened q r v e).entries.size = e.entries.size + (r.body.length + 1) := by
  show ((bound q r v e).injected r.owner q true (round q r v e)).entries.size = _
  rw [Engine.size_injected, size_bound, length_round]

/-- What the entries are that a round adds. -/
theorem entry_opened {i : Nat} {x : Entry} (h : (round q r v e)[i]? = some x) :
    (opened q r v e).entry (e.entries.size + i) =
      { (bound q r v e).placed q ((bound q r v e).child r.owner x) with forcedInstant := true } := by
  have entry := (bound q r v e).entry_injected q r.owner true h
  rwa [size_bound] at entry

/-- All entries that a round adds belong to its loop.  They have not begun one. -/
theorem owner_opened (hb : (bound q r v e).Clonable r.body) (hlow : e.entries.size ≤ n)
    (hhigh : n < (opened q r v e).entries.size) :
    ((opened q r v e).entry n).owner = some r.owner ∧ ((opened q r v e).entry n).loop = none := by
  rw [size_opened, ← length_round q r v e] at hhigh
  obtain ⟨i, rfl⟩ := Nat.exists_eq_add_of_le hlow
  have hi := Nat.lt_of_add_lt_add_left hhigh
  rw [entry_opened (List.getElem?_eq_getElem hi)]
  refine ⟨rfl, ?_⟩
  show (round q r v e)[i].loop = none
  rcases List.mem_append.1 (List.getElem_mem hi) with hx | hx
  · obtain ⟨m, hm, hx⟩ := List.mem_map.1 hx
    rw [← hx]
    exact (hb m hm).2.loop
  · rw [List.mem_singleton.1 hx]

/-- The last entry that a round adds is the mark. -/
theorem mark_opened :
    ((opened q r v e).entry (e.entries.size + r.body.length)).code = e.markOf r.owner := by
  have last : (round q r v e)[r.body.length]? = some { code := e.markOf r.owner } := by
    unfold round
    simp
  rw [entry_opened last]
  rfl

/-- A loop that has opened a round has noted where it stands. -/
theorem loop_opened (ho : r.owner < e.entries.size) : ((opened q r v e).entry r.owner).loop =
    some ⟨v, r.target, r.binding.name, r.binding.before⟩ := by
  have kept := (bound q r v e).entry_put_of_lt q ((round q r v e).map fun x =>
      { (bound q r v e).placed q ((bound q r v e).child r.owner x) with forcedInstant := true })
    (List.range' (bound q r v e).entries.size (round q r v e).length ++ ·)
    ((size_bound q r v e).symm ▸ ho)
  exact (congrArg Entry.loop kept).trans (congrArg Entry.loop (e.entry_changeEntry_self ho _))

/-- Ending a loop adds nothing. -/
theorem closeLoop_cases (q : QueueRef) (r : Rounds) (v : Float) (e : Engine) :
    ∃ memories, closeLoop q r v e = (.ok (), { counted r v e with memories }) :=
  restore_eq q r.binding (counted r v e)

end Structured

/-! ## Turns -/

/-- A turn that a loop was given on a queue: the engine before and after it. -/
structure Turn where
  /-- The queue. -/
  queue : QueueRef
  /-- The engine before the turn. -/
  before : Engine
  /-- The engine after the turn. -/
  after : Engine

namespace Turn

/-- The mark that a turn has put on the queue, which is the last of the entries that it has made. -/
def mark? (t : Turn) : Option EntryRef :=
  if t.before.entries.size < t.after.entries.size then some (t.after.entries.size - 1) else none

/-- The entry was made in the turn. -/
def Makes (t : Turn) (n : EntryRef) : Prop :=
  t.before.entries.size ≤ n ∧ n < t.after.entries.size

/-- The turn puts a round on the queue, which is a clone of the block of the loop. -/
structure Opens (t : Turn) (r : Rounds) (v : Float) : Prop where
  repeatable : t.before.Repeatable r.owner
  body : (t.before.entry r.owner).firstBlock = r.body
  after : ∃ events, t.after = opened t.queue r v { t.before with events }

/-- The turn ends the loop. -/
def Closes (t : Turn) (r : Rounds) (v : Float) : Prop :=
  closeLoop t.queue r v t.before = (.ok (), t.after)

/-- The turn puts a round on the queue or ends the loop. -/
def Acts (t : Turn) (r : Rounds) (v : Float) : Prop :=
  t.Opens r v ∨ t.Closes r v

variable {t : Turn} {r : Rounds} {v : Float} {n k : EntryRef}

/-- Only definitions and the note of the loop are changed when it closes. -/
theorem Closes.after_eq (h : t.Closes r v) : ∃ memories, t.after = { counted r v t.before with memories } := by
  obtain ⟨memories, closed⟩ := Structured.closeLoop_cases t.queue r v t.before
  exact ⟨memories, (Prod.mk.inj (h.symm.trans closed)).2⟩

/-- A turn that opens a round makes as many entries as the block has, and a mark. -/
theorem Opens.size (h : t.Opens r v) :
    t.after.entries.size = t.before.entries.size + (r.body.length + 1) := by
  obtain ⟨events, h⟩ := h.after
  rw [h]
  exact Structured.size_opened

/-- A turn that closes a loop makes no entry. -/
theorem Closes.size (h : t.Closes r v) : t.after.entries.size = t.before.entries.size := by
  obtain ⟨memories, h⟩ := h.after_eq
  rw [h]
  exact t.before.size_changeEntry r.owner _

/-- The mark of a round is made last. -/
theorem Opens.mark?_eq (h : t.Opens r v) : t.mark? = some (t.before.entries.size + r.body.length) := by
  unfold mark?
  rw [h.size, if_pos (by omega)]
  rfl

/-- A turn that closes a loop makes no mark. -/
theorem Closes.mark?_eq (h : t.Closes r v) : t.mark? = none := by
  unfold mark?
  rw [h.size, if_neg (Nat.lt_irrefl _)]

/-- The mark of a turn is made in it. -/
theorem Makes.of_mark? (h : t.mark? = some k) : t.Makes k := by
  unfold mark? at h
  obtain ⟨hlt, hk⟩ := Option.ite_none_right_eq_some.1 h
  cases hk
  exact ⟨Nat.le_sub_one_of_lt hlt, Nat.sub_one_lt_of_lt hlt⟩

namespace Acts

variable (h : t.Acts r v)

include h

/-- A turn touches only the loop. -/
theorem moves (hq : t.queue < t.before.queues.size) : t.before.Moves t.queue [r.owner] t.after := by
  rcases h with ⟨-, -, events, h⟩ | h
  · rw [h]
    have shown : t.before.Moves t.queue [r.owner] { t.before with events } :=
      .of_tables rfl rfl rfl rfl rfl (Nat.le_refl _)
    exact shown.trans (Structured.moves_opened (e := { t.before with events }) r v hq) fun _ h _ => h
  · obtain ⟨y, closed, moved, -⟩ := Structured.closeLoop_eq t.queue r v t.before
    cases h.symm.trans closed
    exact moved

/-- A turn leaves the commands as they are. -/
theorem catalogue : t.after.catalogue = t.before.catalogue := by
  rcases h with ⟨-, -, events, h⟩ | h
  · rw [h]
    rfl
  · obtain ⟨memories, h⟩ := h.after_eq
    rw [h]
    rfl

/-- After a turn the loop has noted where it stands. -/
theorem loop (ho : r.owner < t.before.entries.size) :
    (t.after.entry r.owner).loop = some ⟨v, r.target, r.binding.name, r.binding.before⟩ := by
  rcases h with ⟨-, -, events, h⟩ | h
  · rw [h]
    exact Structured.loop_opened ho
  · obtain ⟨memories, h⟩ := h.after_eq
    rw [h]
    exact congrArg Entry.loop (t.before.entry_changeEntry_self ho _)

/-- A loop that is given a turn may be given another. -/
theorem repeatable (hr : t.before.Repeatable r.owner) (ho : r.owner < t.before.entries.size)
    (hq : t.queue < t.before.queues.size) : t.after.Repeatable r.owner := by
  have moved := h.moves hq
  refine hr.kept moved.entries (moved.code ho) (moved.blocks ho) fun k hk => ?_
  exact moved.entry (hr.clonable k hk).1 fun hmem => hr.apart (List.mem_singleton.1 hmem ▸ hk)

/-- The entries that a turn makes belong to the loop. -/
theorem made (hn : t.Makes n) : (t.after.entry n).owner = some r.owner ∧ (t.after.entry n).loop = none := by
  rcases h with h | h
  · obtain ⟨repeatable, body, events, same⟩ := h
    obtain ⟨hlow, hhigh⟩ := hn
    rw [same] at hhigh ⊢
    have shown : Engine.Repeatable { t.before with events } r.owner :=
      repeatable.kept (Nat.le_refl _) rfl rfl fun _ _ => rfl
    exact Structured.owner_opened (Structured.clonable_bound t.queue r v shown body) hlow hhigh
  · rw [Makes, h.size] at hn
    exact absurd hn.2 (Nat.not_lt.2 hn.1)

/-- The mark of a turn is the mark of its loop. -/
theorem mark (hk : t.mark? = some k) : (t.after.entry k).code = t.before.markOf r.owner := by
  rcases h with h | h
  · obtain rfl := Option.some.inj (h.mark?_eq.symm.trans hk)
    obtain ⟨events, same⟩ := h.after
    rw [same]
    exact Structured.mark_opened (e := { t.before with events })
  · cases h.mark?_eq.symm.trans hk

end Acts

end Turn

namespace Engine

/-- Nothing happens to a loop: it and its block are left as they are, and none of its entries is made. -/
structure Still (m : EntryRef) (e e' : Engine) : Prop where
  size : e.entries.size ≤ e'.entries.size
  code {n : EntryRef} : n < e.entries.size → (e'.entry n).code = (e.entry n).code
  owner {n : EntryRef} : n < e.entries.size → (e'.entry n).owner = (e.entry n).owner
  loop : (e'.entry m).loop = (e.entry m).loop
  blocks : (e'.entry m).blocks = (e.entry m).blocks
  block : ∀ n ∈ (e.entry m).firstBlock, e'.entry n = e.entry n
  made {n : EntryRef} : e.entries.size ≤ n → n < e'.entries.size → (e'.entry n).owner ≠ some m
  catalogue : e'.catalogue = e.catalogue

/-- What the command of a loop was given is what is stored on its entry: a whole number for the quantity,
and a whole number for the first index, or one. -/
structure Asked (e : Engine) (m : EntryRef) (first : Option Argument) : Prop where
  quantity {a : Argument} : (e.entry m).arguments = [a] →
    a.IsShown ∧ ∃ v, a.asWhole = .ok v ∧ (e.entry m).object? "quantity" = some (.num v)
  from_ : ∃ v, (∀ a, first = some a → a.IsShown ∧ a.asWhole = .ok v) ∧ (first = none → v = 1.0) ∧
    (e.entry m).object? "from" = some (.num v)

/-- The command of a loop is executed on a queue, and the loop has not begun. -/
structure AtStart (q : QueueRef) (m : EntryRef) (first : Option Argument) (e : Engine) : Prop where
  queue : q < e.queues.size
  memory : (e.queue q).memory < e.memories.size
  entry : m < e.entries.size
  isLoop : e.isLoop m = true
  catalogue : e.catalogue.find? "repeat" = some Builtin.loop.handler
  idle : (e.entry m).loop = none
  repeatable : e.Repeatable m
  childless {n : EntryRef} : n < e.entries.size → (e.entry n).owner ≠ some m
  asked : e.Asked m first

/-- The turns that a loop has had: that of its command, and those of its marks.  From one to the next
nothing happens to the loop, and so since the last one. -/
inductive Turned (m : EntryRef) (first : Option Argument) : List Turn → Engine → Prop where
  | start {q : QueueRef} {x y : Engine} : x.AtStart q m first → Commands.Loop.start m q x = (.ok (), y) →
      (y.entry m).loop.isSome = true → Turned m first [⟨q, x, y⟩] y
  | turn {q : QueueRef} {k : EntryRef} {t : Turn} {ts : List Turn} {x y : Engine} :
      Turned m first (ts ++ [t]) x → q < x.queues.size → (x.queue q).memory < x.memories.size →
      t.mark? = some k → Commands.Loop.iterate k q x = (.ok (), y) →
      Turned m first (ts ++ [t, ⟨q, x, y⟩]) y
  | still {ts : List Turn} {x y : Engine} : Turned m first ts x → x.Still m y → Turned m first ts y

/-- What is known of a loop after its turns: the entries that belong to it were made in them. -/
structure Rounded (m : EntryRef) (ts : List Turn) (e : Engine) : Prop where
  entry : m < e.entries.size
  isLoop : e.isLoop m = true
  catalogue : e.catalogue.find? "repeat" = some Builtin.loop.handler
  begun : (e.entry m).loop.isSome = true
  repeatable : e.Repeatable m
  made {n : EntryRef} : n < e.entries.size → ((e.entry n).owner = some m ↔ ∃ t ∈ ts, t.Makes n)
  there {t : Turn} : t ∈ ts → t.after.entries.size ≤ e.entries.size
  code {t : Turn} {k : EntryRef} : t ∈ ts → t.mark? = some k →
    ∃ script line, (e.entry k).code = .mark script line

namespace Rounded

variable {m k : EntryRef} {q : QueueRef} {ts : List Turn} {t : Turn} {e e' : Engine}

/-- A loop has had its turns as long as nothing about it changes. -/
theorem still (h : e.Rounded m ts) (hs : e.Still m e') : e'.Rounded m ts where
  entry := Nat.lt_of_lt_of_le h.entry hs.size
  isLoop := by
    unfold Engine.isLoop
    rw [hs.code h.entry]
    exact h.isLoop
  catalogue := hs.catalogue ▸ h.catalogue
  begun := hs.loop ▸ h.begun
  repeatable := h.repeatable.kept hs.size (hs.code h.entry) hs.blocks hs.block
  made {n} hn := by
    by_cases hlt : n < e.entries.size
    · rw [hs.owner hlt]
      exact h.made hlt
    · have hge := Nat.le_of_not_lt hlt
      refine ⟨fun ho => absurd ho (hs.made hge hn), fun ⟨t, ht, hm⟩ => ?_⟩
      exact absurd (Nat.lt_of_lt_of_le hm.2 (h.there ht)) hlt
  there ht := Nat.le_trans (h.there ht) hs.size
  code {t k} ht hk := by
    rw [hs.code (Nat.lt_of_lt_of_le (Turn.Makes.of_mark? hk).2 (h.there ht))]
    exact h.code ht hk

/-- A further turn. -/
theorem turn {r : Rounds} {v : Float} (h : t.before.Rounded m ts) (ha : t.Acts r v) (hr : r.owner = m)
    (hq : t.queue < t.before.queues.size) : t.after.Rounded m (ts ++ [t]) := by
  subst hr
  have moved := ha.moves hq
  exact {
    entry := Nat.lt_of_lt_of_le h.entry moved.entries
    isLoop := by
      unfold Engine.isLoop
      rw [moved.code h.entry]
      exact h.isLoop
    catalogue := ha.catalogue ▸ h.catalogue
    begun := by
      rw [ha.loop h.entry]
      rfl
    repeatable := ha.repeatable h.repeatable h.entry hq
    made := fun {n} hn => by
      simp only [List.mem_append, List.mem_singleton, or_and_right, exists_or, exists_eq_left]
      by_cases hlt : n < t.before.entries.size
      · rw [moved.owner hlt, h.made hlt]
        exact (or_iff_left fun hm => Nat.not_lt.2 hm.1 hlt).symm
      · have makes : t.Makes n := ⟨Nat.le_of_not_lt hlt, hn⟩
        exact ⟨fun _ => .inr makes, fun _ => (ha.made makes).1⟩
    there := fun {t'} ht => by
      rcases List.mem_append.1 ht with ht | ht
      · exact Nat.le_trans (h.there ht) moved.entries
      · rw [List.mem_singleton.1 ht]
    code := fun {t' k} ht hk => by
      rcases List.mem_append.1 ht with ht | ht
      · rw [moved.code (Nat.lt_of_lt_of_le (Turn.Makes.of_mark? hk).2 (h.there ht))]
        exact h.code ht hk
      · rw [List.mem_singleton.1 ht] at hk
        exact ⟨_, _, ha.mark hk⟩ }

/-- The marks of turns are marks. -/
theorem mark (h : e.Rounded m ts) (ht : t ∈ ts) (hk : t.mark? = some k) : (e.entry k).isLoopMark = true := by
  obtain ⟨script, line, code⟩ := h.code ht hk
  unfold Entry.isLoopMark
  rw [code]
  rfl

/-- The mark of a turn finds its loop. -/
theorem loopOf (h : e.Rounded m ts) (ht : t ∈ ts) (hk : t.mark? = some k) :
    ∃ s, (e.entry m).loop = some s ∧ Commands.Loop.loopOf e k = some (m, s) := by
  obtain ⟨s, hs⟩ := Option.isSome_iff_exists.1 h.begun
  have makes := Turn.Makes.of_mark? hk
  have owner : (e.entry k).owner = some m :=
    (h.made (Nat.lt_of_lt_of_le makes.2 (h.there ht))).2 ⟨t, ht, makes⟩
  refine ⟨s, hs, ?_⟩
  unfold Commands.Loop.loopOf
  rw [owner, Option.bind_some, hs]
  rfl

/-- What the mark of a turn does. -/
theorem iterate (h : e.Rounded m ts) (ht : t ∈ ts) (hk : t.mark? = some k) (q : QueueRef) :
    ∃ s y, (e.entry m).loop = some s ∧ Commands.Loop.iterate k q e = (.ok (), y) ∧
      (s.index + 1.0 ≤ s.target ∧ Turn.Opens ⟨q, e, y⟩ (e.roundsLeft m s) (s.index + 1.0) ∨
        ¬ s.index + 1.0 ≤ s.target ∧ Turn.Closes ⟨q, e, y⟩ (e.roundsLeft m s) (s.index + 1.0)) := by
  obtain ⟨s, hs, found⟩ := h.loopOf ht hk
  have iterated := Commands.Loop.iterate_eq h.catalogue h.entry h.repeatable found q
  by_cases hle : s.index + 1.0 ≤ s.target
  · rw [if_pos hle] at iterated
    exact ⟨s, _, hs, iterated, .inl ⟨hle, h.repeatable, rfl, e.events, rfl⟩⟩
  · obtain ⟨memories, closed⟩ := Structured.closeLoop_cases q (e.roundsLeft m s) (s.index + 1.0) e
    rw [if_neg hle] at iterated
    exact ⟨s, _, hs, iterated.trans closed, .inr ⟨hle, closed⟩⟩

end Rounded

namespace AtStart

variable {m : EntryRef} {q : QueueRef} {first : Option Argument} {e e' : Engine}

/-- The command of a loop begins it. -/
theorem opens (h : e.AtStart q m first) (hs : Commands.Loop.start m q e = (.ok (), e'))
    (hl : (e'.entry m).loop.isSome = true) :
    ¬ e.countOf m "quantity" ≤ 0.0 ∧ (e.entry m).code.firstBlock ≠ [] ∧
      Turn.Opens ⟨q, e, e'⟩ (e.roundsAsked m q) (e.countOf m "from") := by
  obtain ⟨events, started⟩ := Commands.Loop.start_eq h.catalogue h.entry h.repeatable q
  rw [hs] at started
  split at started
  · cases started
    cases (congrArg Option.isSome h.idle).symm.trans hl
  · rename_i hpos
    split at started
    · cases started
    · rename_i hbody
      cases started
      exact ⟨hpos, by simpa using hbody, h.repeatable, rfl, events, rfl⟩

/-- A loop that has been started has had its first turn. -/
theorem rounded (h : e.AtStart q m first) (hs : Commands.Loop.start m q e = (.ok (), e'))
    (hl : (e'.entry m).loop.isSome = true) : e'.Rounded m [⟨q, e, e'⟩] := by
  obtain ⟨-, -, opens⟩ := h.opens hs hl
  have acts : Turn.Acts ⟨q, e, e'⟩ (e.roundsAsked m q) (e.countOf m "from") := .inl opens
  have moved := acts.moves h.queue
  exact {
    entry := Nat.lt_of_lt_of_le h.entry moved.entries
    isLoop := by
      unfold Engine.isLoop
      rw [moved.code h.entry]
      exact h.isLoop
    catalogue := acts.catalogue ▸ h.catalogue
    begun := hl
    repeatable := acts.repeatable h.repeatable h.entry h.queue
    made := fun {n} hn => by
      simp only [List.mem_singleton, exists_eq_left]
      by_cases hlt : n < e.entries.size
      · rw [moved.owner hlt]
        exact ⟨fun ho => absurd ho (h.childless hlt), fun hm => absurd hlt (Nat.not_lt.2 hm.1)⟩
      · have makes : Turn.Makes ⟨q, e, e'⟩ n := ⟨Nat.le_of_not_lt hlt, hn⟩
        exact ⟨fun _ => makes, fun _ => (acts.made makes).1⟩
    there := fun ht => by rw [List.mem_singleton.1 ht]
    code := fun ht hk => by
      rw [List.mem_singleton.1 ht] at hk
      exact ⟨_, _, acts.mark hk⟩ }

end AtStart

/-- What is known of a loop after all of its turns. -/
theorem Turned.rounded {m : EntryRef} {first : Option Argument} {ts : List Turn} {e : Engine}
    (h : e.Turned m first ts) : e.Rounded m ts := by
  induction h with
  | start hx hs hl => exact hx.rounded hs hl
  | @turn q k t ts x y _ hq _ hk hi ih =>
    obtain ⟨s, y', -, iterated, acts⟩ := ih.iterate (List.mem_append_right _ (List.mem_singleton_self t)) hk q
    cases hi.symm.trans iterated
    have further : y.Rounded m ((ts ++ [t]) ++ [⟨q, x, y⟩]) := by
      refine Rounded.turn (t := ⟨q, x, y⟩) ih (r := x.roundsLeft m s) (v := s.index + 1.0) ?_ rfl hq
      exact acts.imp And.right And.right
    rwa [List.append_assoc] at further
  | still _ hs ih => exact ih.still hs

end Engine

end QueueScript
