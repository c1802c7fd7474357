import QueueScript.Proofs.Nesting.Laws
import QueueScript.Proofs.Upkeep.Basic

/-!
# The entry on its turn

A queue takes its first pending entry off and runs it.  Until the command of that entry puts a block on
the queue, only notes are taken, so the entry is still the one that the pending entries were nested
behind (`Engine.Heads`).  A condition puts entries there that belong to the same loop as itself; a loop
puts a round there, which it closes with its mark; and a mark puts the next round of its loop in its own
place.
-/

namespace QueueScript

namespace Engine

variable {X : List EntryRef} {e e' : Engine} {q : QueueRef} {n m : EntryRef} {r : Option EntryRef}

theorem Apart.roots (h : e.Apart X e') : e.Roots e' where
  size := h.size
  code hn := h.code hn
  owner hn := h.owner hn
  loop hn hl := by rwa [h.loop hn]

/-- An entry was taken off its queue and runs, and the pending entries are nested behind it. -/
structure Heads (q : QueueRef) (n : EntryRef) (r : Option EntryRef) (e : Engine) : Prop where
  queue : q < e.queues.size
  live : e.Live n
  current : (e.queue q).replacedBy = none
  residing : (e.entry n).residing = some q
  nested : e.Nested r (n :: (e.queue q).pending)

namespace Heads

theorem entry (h : e.Heads q n r) : n < e.entries.size :=
  h.live.1

theorem apart (h : e.Heads q n r) (ht : e.Tidy) (ha : e.Apart X e') : e'.Heads q n r where
  queue := Nat.lt_of_lt_of_le h.queue ha.queues
  live := ha.live h.live
  current := by
    rw [ha.queue h.queue]
    exact h.current
  residing := (ha.residing h.entry).trans h.residing
  nested := by
    rw [ha.queue h.queue]
    exact ha.roots.nested ht h.nested

theorem residingQueue (h : e.Heads q n r) : e.residingQueue n = some q := by
  unfold Engine.residingQueue
  rw [h.residing]
  exact congrArg some (e.follow_self h.current)

/-- The entry of a loop notes where the loop stands. -/
theorem setLoop {s : Option LoopState} (h : e.Heads q n r) (ht : e.Tidy)
    (hr : e.Roots (e.changeEntry m ({ · with loop := s }))) :
    (e.changeEntry m ({ · with loop := s })).Heads q n r where
  queue := h.queue
  live :=
    have steady : Entry.Steadies ({ · with loop := s }) := ⟨fun _ => rfl, fun _ => rfl⟩
    (e.grows_changeEntry m steady).live h.live
  current := h.current
  residing := (e.entry_changeEntry_keep (f := ({ · with loop := s })) (g := Entry.residing)
    (fun _ => rfl) m n).trans h.residing
  nested := hr.nested ht h.nested

end Heads

/-! ## Blocks on a queue -/

section Injected

variable (e : Engine) (q : QueueRef) (m : EntryRef) (hurried : Bool) {xs : List Entry}

theorem entry_injected {i : Nat} {x : Entry} (h : xs[i]? = some x) :
    (e.injected m q hurried xs).entry (e.entries.size + i) =
      { e.placed q (e.child m x) with forcedInstant := hurried } := by
  have entry := e.entry_put q (xs.map fun x => { e.placed q (e.child m x) with forcedInstant := hurried })
    (List.range' e.entries.size xs.length ++ ·) (i := i) (by rw [List.getElem?_map, h]; rfl)
  unfold injected
  exact entry

theorem size_injected : (e.injected m q hurried xs).entries.size = e.entries.size + xs.length := by
  simp [injected]

theorem queue_injected (xs : List Entry) (hq : q < e.queues.size) : (e.injected m q hurried xs).queue q =
    { e.queue q with pending := List.range' e.entries.size xs.length ++ (e.queue q).pending } :=
  e.queue_put q _ _ hq

theorem roots_injected : e.Roots (e.injected m q hurried xs) :=
  e.roots_put q _ _

end Injected

end Engine

namespace Discipline

namespace Nest

variable {α β : Type} {K : Catalogue} {calls : Calls} {e : Engine} {q : QueueRef} {n m : EntryRef}
  {r : Option EntryRef}

/-- A block is put at the head of a queue so that all pending entries are nested. -/
theorem step_injected {xs : List Entry} {hurried : Bool} (he : (nest K).inv e)
    (hq : q < e.queues.size) (hh : healthy.Step e (e.injected m q hurried xs))
    (hnew : ∀ i x, xs[i]? = some x →
      Engine.Origin K (e.injected m q hurried xs) (e.entries.size + i))
    (hn : ∃ r, (e.injected m q hurried xs).Nested r
      (List.range' e.entries.size xs.length ++ (e.queue q).pending)) :
    (nest K).Step e (e.injected m q hurried xs) := by
  have among {k : EntryRef} (hge : e.entries.size ≤ k) (hlt : k < e.entries.size + xs.length) :
      ∃ i x, k = e.entries.size + i ∧ xs[i]? = some x := by
    obtain ⟨i, rfl⟩ := Nat.exists_eq_add_of_le hge
    exact ⟨i, _, rfl, List.getElem?_eq_getElem (Nat.lt_of_add_lt_add_left hlt)⟩
  refine step_more (f := (List.range' e.entries.size xs.length ++ ·)) he hq hh (e.roots_injected q m hurried)
    rfl rfl rfl (congrArg Queue.pending (e.queue_put q _ _ hq))
    (fun p hp => congrArg Queue.pending (e.queue_put_of_ne q _ _ (Ne.symm hp)))
    (fun k hk => congrArg Entry.residing (e.entry_put_of_lt q _ _ hk)) (fun k hk => ?_)
    (fun {k} hk live => ?_) hn
  · refine (List.mem_append.1 hk).symm.imp id fun hk => ?_
    obtain ⟨hge, hlt⟩ := List.mem_range'_1.1 hk
    obtain ⟨i, x, rfl, hx⟩ := among hge hlt
    rw [e.entry_injected q m hurried hx]
    rfl
  · obtain ⟨i, x, rfl, hx⟩ := among hk (Nat.lt_of_lt_of_eq live.1 (e.size_injected q m hurried))
    exact hnew i x hx

/-- The loop of an entry notes where it stands. -/
theorem step_setLoop (he : (nest K).inv e) (hm : e.Live m) (s : LoopState) :
    (nest K).Step e (e.changeEntry m ({ · with loop := some s })) := by
  have keep {γ : Type} (g : Entry → γ) (hg : ∀ x : Entry, g { x with loop := some s } = g x)
      (k : EntryRef) : g ((e.changeEntry m ({ · with loop := some s })).entry k) = g (e.entry k) :=
    e.entry_changeEntry_keep hg m k
  have kept : healthy.Step e (e.changeEntry m ({ · with loop := some s })) :=
    Healthy.blocks.loop s he.1 hm
  have roots : e.Roots (e.changeEntry m ({ · with loop := some s })) := by
    refine ⟨Nat.le_of_eq (e.size_changeEntry m _).symm, fun _ => keep Entry.code (fun _ => rfl) _,
      fun _ => keep Entry.owner (fun _ => rfl) _, fun {k} _ hl => ?_⟩
    rw [e.entry_changeEntry]
    split
    · rfl
    · exact hl
  refine ⟨⟨kept.1, he.2.moved he.1.tidy kept.2.1 roots rfl rfl rfl (fun h h' => ?_) (fun p => ?_)
    fun {p k} hk => ?_⟩, kept.2, roots⟩
  · exact absurd (e.size_changeEntry m _ ▸ h'.1) (Nat.not_lt.2 h)
  · obtain ⟨r, hr⟩ := he.2.pending p
    exact ⟨r, roots.nested he.1.tidy hr⟩
  · rw [keep Entry.residing fun _ => rfl]
    exact he.2.residing hk

variable (hK : K.Native) (he : (nest K).inv e)

include hK he

omit hK in
/-- What a command does before it comes to its blocks: it takes notes, and the entry stays on its
turn. -/
theorem leaves_noted {a : Action α} {f : α → Action β} {P : α → Prop} {R : β → Engine → Prop}
    (hi : calls.Isolated) (hp : (nest K).ProcedureSafe calls) (h : e.Heads q n r)
    (ha : ∀ {D : Discipline} {e₀ : Engine}, D.Bookkeeping → D.ProcedureSafe calls → D.own e₀ n →
      D.mine e₀ q → D.Gives e₀ a fun x _ => P x)
    (hf : ∀ x e₁, P x → (nest K).inv e₁ → e₁.Heads q n r → e.Apart [n] e₁ →
      (nest K).Leaves e₁ R (f x e₁)) :
    (nest K).Leaves e R ((a >>= f) e) := by
  have alone : (apart n True).Gives e a fun x _ => P x := ha (Apart.bookkeeping n True)
    (Apart.procedureSafe hi (.inr trivial)) ⟨rfl, h.live⟩ trivial
  have kept : (nest K).Gives e a fun x _ => P x := ha bookkeeping hp h.live h.queue
  refine leaves_bindApart he.1 alone (kept.run e he ((nest K).refl e))
    fun x e₁ he₁ _ hx apart _ => ?_
  exact hf x e₁ hx he₁ (h.apart he.1.tidy apart) apart

omit hK in
/-- The entries in the blocks of an entry may be cloned. -/
theorem stock_inner (hn : e.Live n) {k : EntryRef} (hk : k ∈ (e.entry n).inner) : healthy.Stock e k :=
  ⟨he.1.tidy.based.lt_of_inner hk, .inr ⟨n, hk⟩,
    (he.1.code hn.1).enclosed ((he.1.tidy.based.furnished n).inner hk)⟩

/-- The entries of a block belong to the loop that its owner belongs to, if that is no loop. -/
theorem leaves_block (h : e.Heads q n r) (hl : e.isLoop n = false) {b : Branch EntryRef}
    (hb : b ∈ (e.entry n).blocks) :
    (nest K).Leaves e (fun _ _ => True)
      ((do Queues.inject q (← Entries.spawn n b.body) : Action Unit) e) := by
  have stock : ∀ k ∈ b.body, healthy.Stock e k := fun k hk =>
    stock_inner he h.live (Entry.mem_inner hb hk)
  have safe : healthy.Safe e (do Queues.inject q (← Entries.spawn n b.body)) :=
    safe_injectBlock Healthy.blocks h.live h.queue stock
  have run := safe.run e he.1 (healthy.refl e)
  let xs := b.body.map e.entry
  have eq : (do Queues.inject q (← Entries.spawn n b.body) : Action Unit) e =
      (.ok (), e.injected n q false xs) :=
    e.inject_spawn n q (he.1.tidy.based.clonable fun k hk => (stock k hk).base)
  rw [eq] at run ⊢
  have roots : e.Roots (e.injected n q false xs) := e.roots_injected q n false
  have code := roots.code h.entry
  have encloses : ∀ x ∈ xs, (e.entry n).code.Encloses x.code := fun x hx => by
    obtain ⟨k, hk, rfl⟩ := List.mem_map.1 hx
    exact (he.1.tidy.based.furnished n).inner (Entry.mem_inner hb hk)
  -- A mark has a loop for its command, so the entry is none.
  have unmarked : (e.entry n).code.Unmarked := by
    refine (he.2.unmarked hK he.1.tidy h.live).resolve_right fun hm => ?_
    obtain ⟨k, hk, -⟩ := hm
    unfold Engine.isLoop at hl
    rw [hk] at hl
    cases hl
  obtain ⟨above, nested⟩ : e.NearestLoop n r ∧ e.Nested r (e.queue q).pending := by
    cases h.nested with
    | entry _ _ above nested => exact ⟨above, nested⟩
    | mark _ hmark _ _ _ _ _ => cases unmarked.isMark.symm.trans hmark
  refine ⟨step_injected he h.queue run.1 (fun i x hx => ?_) ⟨r, ?_⟩, trivial⟩
  · have here := e.entry_injected q n false hx
    refine .block (congrArg Entry.owner here) (Nat.lt_of_lt_of_le h.entry (Nat.le_add_right _ _)) ?_
    rw [here, code]
    exact encloses x (List.mem_of_getElem? hx)
  · refine (roots.nested he.1.tidy nested).append fun k hk => ?_
    obtain ⟨hlow, hhigh⟩ := List.mem_range'_1.1 hk
    obtain ⟨i, rfl⟩ := Nat.exists_eq_add_of_le hlow
    have hi : i < xs.length := Nat.lt_of_add_lt_add_left hhigh
    have here := e.entry_injected q n false (List.getElem?_eq_getElem hi)
    refine ⟨?_, ?_, .block (congrArg Entry.owner here) ((roots.isLoop h.entry).trans hl)
      (roots.nearestLoop he.1.tidy h.entry above)⟩
    · rw [e.size_injected]
      exact hhigh
    · show Compiled.isMark _ = false
      rw [here]
      exact (unmarked.enclosed (encloses _ (List.getElem_mem hi))).isMark

/-- A round of a loop is put before the entries that belong to the loop above it. -/
theorem leaves_round (hq : q < e.queues.size) (hm : e.Live m) (hl : e.isLoop m = true)
    (hbegun : (e.entry m).loop.isSome = true) (habove : e.NearestLoop m r)
    (hnested : e.Nested r (e.queue q).pending) :
    (nest K).Leaves e (fun _ _ => True)
      (Commands.Loop.injectIteration m q (e.entry m).firstBlock e) := by
  have stock : ∀ k ∈ (e.entry m).firstBlock, healthy.Stock e k := fun k hk =>
    stock_inner he hm (Entry.mem_inner_of_firstBlock hk)
  have safe : healthy.Safe e (Commands.Loop.injectIteration m q (e.entry m).firstBlock) :=
    safe_injectIteration Healthy.blocks hm hq stock
  have run := safe.run e he.1 (healthy.refl e)
  have loops : e.catalogue.find? "repeat" = some Builtin.loop.handler := by
    rw [he.2.catalogue]
    exact hK.loops
  let body := (e.entry m).firstBlock.map e.entry
  let mark : Entry := { code := e.markOf m }
  have eq : Commands.Loop.injectIteration m q (e.entry m).firstBlock e =
      (.ok (), e.injected m q true (body ++ [mark])) :=
    Commands.Loop.injectIteration_eq loops hm.1 q
      (he.1.tidy.based.clonable fun k hk => (stock k hk).base)
  rw [eq] at run ⊢
  let e' := e.injected m q true (body ++ [mark])
  have roots : e.Roots e' := e.roots_injected q m true
  have code := roots.code hm.1
  have encloses : ∀ x ∈ body, (e.entry m).code.Encloses x.code := fun x hx => by
    obtain ⟨k, hk, rfl⟩ := List.mem_map.1 hx
    exact (he.1.tidy.based.furnished m).inner (Entry.mem_inner_of_firstBlock hk)
  have unmarked : ∀ x ∈ body, x.code.Unmarked := fun x hx => by
    obtain ⟨k, hk, rfl⟩ := List.mem_map.1 hx
    exact he.2.unmarked_inner hK he.1.tidy hm (Entry.mem_inner_of_firstBlock hk)
  have hmark : (body ++ [mark])[body.length]? = some mark := by simp
  have markHere := e.entry_injected q m true hmark
  have hline {i : Nat} (hi : i < body.length) : (body ++ [mark])[i]? = some body[i] := by
    rw [List.getElem?_append_left hi, List.getElem?_eq_getElem hi]
  have size : e'.entries.size = e.entries.size + (body.length + 1) := by
    show (e.injected m q true (body ++ [mark])).entries.size = _
    rw [e.size_injected, List.length_append]
    rfl
  refine ⟨step_injected he hq run.1 (fun i x hx => ?_) ⟨some m, ?_⟩, trivial⟩
  · have hlt : m < e.entries.size + i := Nat.lt_of_lt_of_le hm.1 (Nat.le_add_right _ _)
    have here := e.entry_injected q m true hx
    by_cases hi : i < body.length
    · have hx' : body[i] = x := Option.some.inj ((hline hi).symm.trans hx)
      refine .block (congrArg Entry.owner here) hlt ?_
      rw [here, code, ← hx']
      exact encloses body[i] (List.getElem_mem hi)
    · have hx' : x = mark := by
        rw [List.getElem?_append_right (Nat.le_of_not_lt hi)] at hx
        exact List.mem_singleton.1 (List.mem_of_getElem? hx)
      refine .mark (congrArg Entry.owner here) hlt ?_ ((roots.isLoop hm.1).trans hl)
        (roots.loop hm.1 hbegun)
      rw [here, hx']
      exact (roots.markOf hm.1).symm
  · have closes : e'.Nested (some m) ((e.entries.size + body.length) :: (e.queue q).pending) := by
      refine .mark ?_ ?_ (congrArg Entry.owner markHere) ((roots.isLoop hm.1).trans hl)
        (roots.loop hm.1 hbegun) (roots.nearestLoop he.1.tidy hm.1 habove)
        (roots.nested he.1.tidy hnested)
      · rw [size]
        exact Nat.add_lt_add_left (Nat.lt_succ_self _) _
      · show Compiled.isMark _ = true
        rw [markHere]
        rfl
    have split : List.range' e.entries.size (body ++ [mark]).length =
        List.range' e.entries.size body.length ++ [e.entries.size + body.length] := by
      rw [List.length_append, List.length_singleton, List.range'_concat, Nat.one_mul]
    rw [split, List.append_assoc]
    refine closes.append fun k hk => ?_
    obtain ⟨hlow, hhigh⟩ := List.mem_range'_1.1 hk
    obtain ⟨i, rfl⟩ := Nat.exists_eq_add_of_le hlow
    have hi : i < body.length := Nat.lt_of_add_lt_add_left hhigh
    have here := e.entry_injected q m true (hline hi)
    refine ⟨?_, ?_, .loop (congrArg Entry.owner here) ((roots.isLoop hm.1).trans hl)⟩
    · rw [size]
      exact Nat.add_lt_add_left (Nat.lt_succ_of_lt hi) _
    show Compiled.isMark _ = false
    rw [here]
    exact (unmarked _ (List.getElem_mem hi)).isMark

/-! ## Conditions and loops -/

section Commands

variable (hi : calls.Isolated) (hp : (nest K).ProcedureSafe calls) (h : e.Heads q n r)

include hi hp h

theorem leaves_condition (hl : e.isLoop n = false) :
    (nest K).Leaves e (fun _ _ => True) (Commands.Condition.execute calls n e) := by
  let bs := (e.entry n).blocks
  rw [Commands.Condition.execute_of_residing h.residingQueue]
  refine leaves_noted he hi hp h (fun hb hp _ _ => gives_choose hb hp 0 bs)
    fun chosen e₁ hchosen he₁ h₁ alone => ?_
  cases chosen with
  | none => exact (safe_reportParsed bookkeeping.toNoting n _).run e₁ he₁ ((nest K).refl e₁)
  | some chosen =>
    obtain ⟨index, b⟩ := chosen
    refine leaves_noted (P := fun _ => True) he₁ hi hp h₁ (fun hb _ _ _ => safe_reportParsed hb n _)
      fun _ e₂ _ he₂ h₂ alone₂ => ?_
    have same : (e₂.entry n).blocks = bs := (alone.trans alone₂).blocks h.entry
    exact leaves_block hK he₂ h₂ (((alone.trans alone₂).roots.isLoop h.entry).trans hl)
      (same ▸ hchosen index b rfl)

omit h hi hp in
/-- An entry with a block is no mark, so the pending entries belong to the loop that it belongs to. -/
theorem above_of_block (h : e.Heads q n r) (hb : (e.entry n).firstBlock ≠ []) :
    e.NearestLoop n r ∧ e.Nested r (e.queue q).pending := by
  cases h.nested with
  | entry _ _ above nested => exact ⟨above, nested⟩
  | mark _ hmark _ _ _ _ _ =>
    rcases he.2.unmarked hK he.1.tidy h.live with hu | ⟨k, hk, -⟩
    · cases hu.isMark.symm.trans hmark
    · have commands := (he.1.tidy.based.furnished n).firstBlock
      rw [hk] at commands
      exact absurd (List.map_eq_nil_iff.1 commands) hb

/-- A loop starts, unless it has no rounds or nothing to repeat. -/
theorem leaves_startLoop (hl : e.isLoop n = true) :
    (nest K).Leaves e (fun _ _ => True) (Commands.Loop.start n q e) := by
  refine leaves_noted (P := fun _ => True) he hi hp h (fun _ _ _ _ => safe_count n _)
    fun amount e₁ _ he₁ h₁ alone₁ => ?_
  refine leaves_noted (P := fun _ => True) he₁ hi hp h₁ (fun _ _ _ _ => safe_count n _)
    fun first e₂ _ he₂ h₂ alone₂ => ?_
  refine leaves_noted (P := fun _ => True) he₂ hi hp h₂ (fun _ _ _ _ => safe_element? n _)
    fun name e₃ _ he₃ h₃ alone₃ => ?_
  refine leaves_noted (P := fun _ => True) he₃ hi hp h₃ (fun hb _ _ _ => safe_reportParsed hb n _)
    fun _ e₄ _ he₄ h₄ alone₄ => ?_
  have roots₄ := (((alone₁.trans alone₂).trans alone₃).trans alone₄).roots
  let body := (e₄.entry n).firstBlock
  let index := name.getD "value"
  let before := e₄.definition? q index
  let loop : LoopState := { index := first, target := first + amount - 1.0, name := index, before }
  let e₅ := e₄.changeEntry n ({ · with loop := some loop })
  show (nest K).Leaves e₄ _ ((if amount ≤ 0.0 then pure () else _ : Action Unit) e₄)
  split
  · exact ⟨Step.refl he₄, trivial⟩
  show (nest K).Leaves e₄ _ ((if body.isEmpty then
    Action.breakOff .emptyLoop >>= fun _ => _ else _ : Action Unit) e₄)
  split
  · exact leaves_error nofun (Step.refl he₄)
  rename_i hbody
  have set := step_setLoop he₄ h₄.live loop
  have h₅ : e₅.Heads q n r := h₄.setLoop he₄.1.tidy set.2.2
  refine Leaves.from set.2 ?_
  show (nest K).Leaves e₅ _ ((do
    Queues.define q index (.num first)
    Commands.Loop.injectIteration n q body : Action Unit) e₅)
  refine leaves_noted (P := fun _ => True) set.1 hi hp h₅ (fun hb _ _ hq => safe_define hb hq _ _)
    fun _ e₆ _ he₆ h₆ alone₆ => ?_
  have roots := set.2.2.trans alone₆.roots
  have same : (e₆.entry n).firstBlock = body := by
    unfold Entry.firstBlock
    rw [alone₆.blocks h₅.entry]
    exact congrArg (·.head?.elim [] (·.body)) (e₄.entry_changeEntry_keep
      (f := ({ · with loop := some loop })) (g := Entry.blocks) (fun _ => rfl) n n)
  obtain ⟨above, nested⟩ := above_of_block hK he₆ h₆ (by rw [same]; simpa using hbody)
  have begun : (e₆.entry n).loop.isSome = true := by
    rw [alone₆.loop h₅.entry, Engine.entry_changeEntry_self _ h₄.entry]
    rfl
  rw [← same]
  exact leaves_round hK he₆ h₆.queue h₆.live ((roots₄.trans roots).isLoop h.entry |>.trans hl) begun above
    nested

/-- A mark starts the next round of its loop in its own place, or ends the loop. -/
theorem leaves_iterate (hmark : (e.entry n).isLoopMark = true) :
    (nest K).Leaves e (fun _ _ => True) (Commands.Loop.iterate n q e) := by
  cases h.nested with
  | entry _ hplain _ _ => cases hmark.symm.trans hplain
  | @mark _ m r' _ _ _ howner hloop hbegun _ _ =>
    obtain ⟨s, hs⟩ := Option.isSome_iff_exists.1 hbegun
    have hm : e.Live m := he.1.tidy.owner howner
    have found : Commands.Loop.loopOf e n = some (m, s) := by
      unfold Commands.Loop.loopOf
      rw [howner, Option.bind_some, hs]
      rfl
    let s' : LoopState := { s with index := s.index + 1.0 }
    let e₁ := e.changeEntry m ({ · with loop := some s' })
    have set := step_setLoop he hm s'
    have h₁ : e₁.Heads q n (some m) := h.setLoop he.1.tidy set.2.2
    rw [Commands.Loop.iterate_of_some found]
    refine Leaves.from set.2 ?_
    split
    · refine leaves_noted (P := fun _ => True) set.1 hi hp h₁ (fun hb _ _ hq => safe_define hb hq _ _)
        fun _ e₂ _ he₂ h₂ alone => ?_
      have roots := set.2.2.trans alone.roots
      show (nest K).Leaves e₂ _
        (Commands.Loop.injectIteration m q (e₂.entry m).firstBlock e₂)
      cases h₂.nested with
      | mark _ _ howner₂ hloop₂ hbegun₂ habove hnested =>
        exact leaves_round hK he₂ h₂.queue (he₂.1.tidy.owner howner₂) hloop₂ hbegun₂ habove hnested
      | entry _ hplain _ _ => cases ((roots.isLoopMark h.entry).trans hmark).symm.trans hplain
    · exact (safe_restore bookkeeping h₁.queue s').run e₁ set.1 ((nest K).refl e₁)

omit hK hi hp he h in
/-- A command that does not read the mark is not told to go on with a loop. -/
theorem flag_mark (hu : (e.entry n).code.readsMark = false) :
    Entries.flag calls n Builtin.loopMark e = (.ok false, e) := by
  obtain ⟨hpos, hlit⟩ := Bool.or_eq_false_iff.1 hu
  have lower : Text.lower Builtin.loopMark = Builtin.loopMark := by decide +kernel
  have unfound : (e.entry n).code.argument? Builtin.loopMark = none := by
    unfold Compiled.argument?
    rw [lower, Option.isNone_iff_eq_none.1 (Option.isSome_eq_false_iff.1 hpos)]
    rfl
  refine (Entries.flag_of_unkeyed calls unfound).trans ?_
  rw [lower, hlit]

theorem leaves_loop (hl : e.isLoop n = true) :
    (nest K).Leaves e (fun _ _ => True) (Commands.Loop.execute calls n e) := by
  have ends (stop : Bool) {x : Engine} (hx : (nest K).inv x) (hq : q < x.queues.size) :
      (nest K).Leaves x (fun _ _ => True) (Commands.Loop.endEarly n q stop x) :=
    leaves_endEarly bookkeeping hx hq
      (fun count => (emptying.drop count hq).run x hx ((nest K).refl x)) n stop
  have unfolded : Commands.Loop.execute calls n e = (do
      if ← Entries.flag calls n "stop" then Commands.Loop.endEarly n q true
      else if ← Entries.flag calls n "next" then Commands.Loop.endEarly n q false
      else if ← Entries.flag calls n Builtin.loopMark then Commands.Loop.iterate n q
      else Commands.Loop.start n q : Action Unit) e :=
    Action.bind_ok (Entries.requireQueue_eq h.residingQueue)
  rw [unfolded]
  refine leaves_noted (P := fun _ => True) he hi hp h (fun hb hp _ _ => safe_flag hb hp _)
    fun stop e₁ _ he₁ h₁ alone₁ => ?_
  cases stop with
  | true => exact ends true he₁ h₁.queue
  | false =>
    refine leaves_noted (P := fun _ => True) he₁ hi hp h₁ (fun hb hp _ _ => safe_flag hb hp _)
      fun next e₂ _ he₂ h₂ alone₂ => ?_
    cases next with
    | true => exact ends false he₂ h₂.queue
    | false =>
      have loop₂ := ((alone₁.trans alone₂).roots.isLoop h.entry).trans hl
      cases hmark : (e₂.entry n).isLoopMark with
      | false =>
        have reads : (e₂.entry n).code.readsMark = false := by
          rcases he₂.2.unmarked hK he₂.1.tidy h₂.live with hu | ⟨k, hk, -⟩
          · exact hu.readsMark loop₂
          · unfold Entry.isLoopMark at hmark
            rw [hk] at hmark
            cases hmark
        show (nest K).Leaves e₂ _ ((Entries.flag calls n Builtin.loopMark >>= fun goes =>
          if goes then Commands.Loop.iterate n q else Commands.Loop.start n q) e₂)
        rw [Action.bind_ok (flag_mark reads)]
        exact leaves_startLoop hK he₂ hi hp h₂ loop₂
      | true =>
        refine leaves_noted (P := fun _ => True) he₂ hi hp h₂ (fun hb hp _ _ => safe_flag hb hp _)
          fun goes e₃ _ he₃ h₃ alone₃ => ?_
        cases goes with
        | true => exact leaves_iterate hK he₃ hi hp h₃ ((alone₃.roots.isLoopMark h₂.entry).trans hmark)
        | false => exact leaves_startLoop hK he₃ hi hp h₃ ((alone₃.roots.isLoop h₂.entry).trans loop₂)

theorem leaves_command (hs : (nest K).StartSafe calls) :
    (nest K).Leaves e (fun _ _ => True) (Commands.execute calls n e) := by
  have hr := outreach hK
  have run {a : Action Unit} {Q : Unit → Engine → Prop} (ha : (nest K).Gives e a Q) :
      (nest K).Leaves e (fun _ _ => True) (a e) :=
    (ha.run e he ((nest K).refl e)).mono fun _ _ _ _ => trivial
  refine leaves_commandsExecute hr.toReaching hp he h.live
    (fun _ => run (safe_determineExecute hr.toFilling emptying h.live))
    (fun _ => run (safe_stopExecute hr.toFilling emptying h.live)) (fun hb => ?_) (fun hb => ?_)
    (fun _ => run (safe_waitExecute hr hp hs h.live))
    (fun _ => run (gives_runExecute hr hp hs h.live)) fun command hb => ?_
  · refine leaves_condition hK he hi hp h ?_
    unfold Engine.isLoop
    rw [hb]
    rfl
  · refine leaves_loop hK he hi hp h ?_
    unfold Engine.isLoop
    rw [hb]
    rfl
  · have none : (e.entry n).code.handler.behaviour.isHost = false := by
      rcases he.2.unmarked hK he.1.tidy h.live with hu | ⟨k, hk, -⟩
      · exact hu.isHost
      · rw [hk]
        rfl
    rw [hb] at none
    cases none

end Commands

/-! ## Entries -/

omit hK in
/-- A step is put into the history that begins no entry, or one behind which what is pending is nested. -/
theorem step_noted {step : QueueScript.Step} (hb : ∀ q n before previous,
    step = .began q n before previous → ∃ r, e.Nested r (n :: before.pending)) :
    (nest K).Step e { e with journal := step :: e.journal } := by
  have roots : e.Roots { e with journal := step :: e.journal } :=
    ⟨Nat.le_refl _, fun _ => rfl, fun _ => rfl, fun _ h => h⟩
  have kept := Healthy.note he.1 step
  refine ⟨⟨kept.1, he.2.catalogue, fun hm => roots.origin hm.1 (he.2.origin ⟨hm.1, fun hb => hm.2 (kept.2.1.kept hb)⟩),
    fun p => ?_, he.2.residing, he.2.source, he.2.base, fun hj => ?_⟩, kept.2, roots⟩
  · obtain ⟨r, hr⟩ := he.2.pending p
    exact ⟨r, roots.nested he.1.tidy hr⟩
  · rcases List.mem_cons.1 hj with rfl | hj
    · obtain ⟨r, hr⟩ := hb _ _ _ _ rfl
      exact ⟨r, roots.nested he.1.tidy hr⟩
    · obtain ⟨r, hr⟩ := he.2.began hj
      exact ⟨r, roots.nested he.1.tidy hr⟩

omit hK in
/-- A queue begins its first pending entry, and the others are nested behind it. -/
theorem begun {rest : List EntryRef} (hq : q < e.queues.size) (hp : (e.queue q).pending = n :: rest)
    (ha : Drive.isActive e q = true) :
    (nest K).Step e (e.begun q n rest) ∧ ∃ r, (e.begun q n rest).Heads q n r := by
  obtain ⟨taken, residing, r, nested⟩ := take he hq hp
  let x := e.changeQueue q ({ · with pending := rest })
  have hqx : q < x.queues.size := by rwa [Engine.size_changeQueue]
  have here : x.queue q = { e.queue q with pending := rest } := e.queue_changeQueue_self hq _
  let step := QueueScript.Step.began q n (x.queue q) ((x.queue q).last.map x.entry)
  have began : (nest K).Step x { x with journal := step :: x.journal } := by
    refine step_noted taken.1 fun p m before previous h => ?_
    obtain ⟨-, rfl, rfl, -⟩ := QueueScript.Step.began.inj h
    exact ⟨r, nested⟩
  have hn : e.Live n := he.1.tidy.pending q n (by rw [hp]; exact List.mem_cons_self)
  let y : Engine := { x with journal := step :: x.journal }
  have last : (nest K).Step y (e.begun q n rest) := by
    have live : y.Live n := began.2.1.1.live (taken.2.1.1.live hn)
    exact step_level began.1 (Healthy.last began.1.1 q live) (.changeQueue y q fun _ => .inl rfl)
  refine ⟨taken.trans (began.trans last), r, ?_⟩
  have queue := e.queue_begun hq n rest
  refine ⟨?_, last.2.1.1.live (began.2.1.1.live (taken.2.1.1.live hn)), ?_, residing, ?_⟩
  · have size : (e.begun q n rest).queues.size = e.queues.size :=
      (y.size_changeQueue q _).trans (e.size_changeQueue q _)
    rwa [size]
  · rw [queue]
    exact Option.isNone_iff_eq_none.1 (Bool.and_eq_true_iff.1 ha).2
  · rw [queue]
    have same := (began.trans last).2.2.nested taken.1.1.tidy nested
    rwa [here] at same

/-- An entry that was begun is run, and the queue comes back from it. -/
theorem leaves_begun (hi : calls.Isolated) (hp : (nest K).ProcedureSafe calls)
    (hs : (nest K).StartSafe calls) (h : e.Heads q n r) :
    (nest K).Leaves e (fun _ _ => True) ((Executor.execute calls n >>= fun ran => do
      Drive.note (.returned q n ran)
      pure ran) e) := by
  have executed : (nest K).Leaves e (fun _ _ => True) (Executor.execute calls n e) := by
    refine leaves_executeApart bookkeeping hp hi he h.live he.1 h.live fun x _ _ hx alone _ => ?_
    exact leaves_command hK hx.1 hi hp (h.apart he.1.tidy alone) hs
  refine leaves_bind executed fun ran x hx _ _ => ?_
  have noted : (nest K).Step x { x with journal := .returned q n ran :: x.journal } :=
    step_noted hx fun _ _ _ _ h => by cases h
  exact ⟨noted, trivial⟩

omit he in
/-- The entries that queues begin keep pending entries nested, if deeper levels of nesting do. -/
theorem runsEntries (hi : calls.Isolated) (hp : (nest K).ProcedureSafe calls)
    (hs : (nest K).StartSafe calls) : (nest K).RunsEntries calls := by
  intro e q n rest he hq hpend hactive _ _
  obtain ⟨began, r, heads⟩ := begun he hq hpend hactive
  let y := e.begun q n rest
  have unfolded : Drive.runEntry calls q n (e.changeQueue q ({ · with pending := rest })) =
      (Executor.execute calls n >>= fun ran => do
        Drive.note (.returned q n ran)
        pure ran) y := rfl
  rw [unfolded]
  exact Leaves.from began.2 (leaves_begun hK began.1 hi hp hs heads)

omit he in
theorem calls_runsEntries (fuel : Nat) : (nest K).RunsEntries (Drive.calls fuel) := by
  have safe := callsSafe (turns hK) (fun fuel hp hs => runsEntries hK (Drive.isolated_calls fuel) hp hs) fuel
  exact runsEntries hK (Drive.isolated_calls fuel) safe.1 safe.2

end Nest

end Discipline

end QueueScript
