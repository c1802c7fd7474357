import QueueScript.Proofs.Bases

/-!
# Blocks at the head of a queue

What an engine looks like when the entries of a block were cloned and put at the head of a queue.  They
come after all entries that there were, one after the other, and nothing else changes but the pending
entries of that queue (`Engine.injected`).  The rounds of a loop are such blocks, with a mark as their
last command.
-/

namespace QueueScript

namespace Engine

variable (e : Engine)

/-! ## Entries of a block -/

/-- An entry when it was put on a queue. -/
def placed (q : QueueRef) (x : Entry) : Entry :=
  { x with residing := some q, context := some (e.follow q) }

/-- A clone of an entry of a block: owned by an entry, and where that entry runs. -/
def child (owner : EntryRef) (x : Entry) : Entry :=
  { x with owner := some owner, residing := e.residingQueue owner,
           context := (e.residingQueue owner).map e.follow }

theorem follow_grown (xs : List Entry) (q : QueueRef) : (e.grown xs).follow q = e.follow q :=
  follow_congr (show (e.grown xs).queues = e.queues from rfl) q

theorem place_grown (q : Option QueueRef) (xs : List Entry) {i : Nat} (hi : i < xs.length) :
    Entries.place (e.entries.size + i) q (e.grown xs) =
      (.ok (), e.grown (xs.modify i ({ · with residing := q, context := q.map e.follow }))) := by
  have put : Entries.place (e.entries.size + i) q (e.grown xs) =
      Entries.refresh (e.entries.size + i) (e.grown (xs.modify i ({ · with residing := q }))) := by
    rw [← grown_changeEntry]
    rfl
  have here : (xs.modify i ({ · with residing := q }))[i]? =
      some { xs[i] with residing := q } := by
    simp [hi]
  have residing : (e.grown (xs.modify i ({ · with residing := q }))).residingQueue
      (e.entries.size + i) = q.map e.follow := by
    unfold residingQueue
    rw [entry_grown e here]
    exact congrArg (q.map ·) (funext fun p => follow_grown e _ p)
  rw [put]
  show (Except.ok (), (e.grown _).changeEntry _ ({ · with context := (e.grown _).residingQueue _ })) = _
  rw [residing, grown_changeEntry, List.modify_modify_eq]
  rfl

theorem spawn_eq (owner : EntryRef) {ms : List EntryRef} (hm : e.Clonable ms) :
    Entries.spawn owner ms e = (.ok (List.range' e.entries.size ms.length),
      e.grown (ms.map fun m => e.child owner (e.entry m))) := by
  let make (m : EntryRef) : Action EntryRef := do
    let n ← Entries.clone m
    Action.changeEntry n ({ · with owner := some owner })
    Entries.place n (e.residingQueue owner)
    pure n
  have made (done : List Entry) {m : EntryRef} (hm : m < e.entries.size ∧ (e.entry m).IsBlank) :
      make m (e.grown done) =
        (.ok (e.entries.size + done.length), e.grown (done ++ [e.child owner (e.entry m)])) := by
    have same : (e.grown done).entry m = e.entry m := e.entry_grown_of_lt hm.1
    have cloned := Entries.clone_eq (e := e.grown done) (same.symm ▸ hm.2)
    rw [same, size_grown, ← grown_singleton, grown_grown] at cloned
    have owned : Action.changeEntry (e.entries.size + done.length) ({ · with owner := some owner })
        (e.grown (done ++ [e.entry m])) =
          (.ok (), e.grown (done ++ [{ e.entry m with owner := some owner }])) := by
      show (Except.ok (), (e.grown _).changeEntry _ _) = _
      rw [grown_changeEntry, modify_at]
    have put := e.place_grown (e.residingQueue owner)
      (done ++ [{ e.entry m with owner := some owner }]) (i := done.length) (by simp)
    rw [modify_at] at put
    refine (Action.bind_ok cloned).trans ((Action.bind_ok owned).trans ?_)
    exact Action.bind_ok put
  have go (done : List Entry) : Action.collect make ms (e.grown done) =
      (.ok (List.range' (e.entries.size + done.length) ms.length),
        e.grown (done ++ ms.map fun m => e.child owner (e.entry m))) := by
    induction ms generalizing done with
    | nil => simp [Action.collect, Action.done]
    | cons m rest ih =>
      have next := ih (fun m h => hm m (List.mem_cons_of_mem _ h))
        (done ++ [e.child owner (e.entry m)])
      rw [List.length_append, List.length_singleton, ← Nat.add_assoc] at next
      refine (Action.bind_ok (made done (hm m List.mem_cons_self))).trans
        ((Action.bind_ok next).trans ?_)
      rw [List.length_cons, List.range'_succ, List.map_cons, List.append_assoc]
      rfl
  show Action.collect make ms e = _
  simpa using go []

/-! ## Further entries on a queue -/

/-- The engine with further entries, and the pending entries of a queue changed. -/
def put (q : QueueRef) (xs : List Entry) (f : List EntryRef → List EntryRef) : Engine :=
  (e.grown xs).changeQueue q fun x => { x with pending := f x.pending }

section Put

variable (q : QueueRef) (xs : List Entry) (f : List EntryRef → List EntryRef)

@[simp] theorem size_put : (e.put q xs f).entries.size = e.entries.size + xs.length :=
  e.size_grown xs

theorem entry_put_of_lt {m : EntryRef} (h : m < e.entries.size) :
    (e.put q xs f).entry m = e.entry m :=
  e.entry_grown_of_lt h

theorem entry_put {i : Nat} {x : Entry} (h : xs[i]? = some x) :
    (e.put q xs f).entry (e.entries.size + i) = x :=
  e.entry_grown h

theorem queue_put (hq : q < e.queues.size) :
    (e.put q xs f).queue q = { e.queue q with pending := f (e.queue q).pending } :=
  Engine.queue_changeQueue_self (e.grown xs) hq _

/-- What does not depend on pending entries stays the same. -/
theorem queue_put_keep {α : Type} {g : Queue → α}
    (h : ∀ (x : Queue) (ns : List EntryRef), g { x with pending := ns } = g x) (p : QueueRef) :
    g ((e.put q xs f).queue p) = g (e.queue p) :=
  (e.grown xs).queue_changeQueue_keep (fun x => h x _) q p

theorem queue_put_of_ne {p : QueueRef} (h : q ≠ p) : (e.put q xs f).queue p = e.queue p :=
  Engine.queue_changeQueue_of_ne (e.grown xs) h _

end Put

/-- The engine with clones of entries at the head of a queue, owned by an entry. -/
def injected (owner : EntryRef) (q : QueueRef) (hurried : Bool) (xs : List Entry) : Engine :=
  e.put q (xs.map fun x => { e.placed q (e.child owner x) with forcedInstant := hurried })
    (List.range' e.entries.size xs.length ++ ·)

/-- What is done to each of the further entries, one after the other, is done to all of them. -/
theorem each_grown {a : EntryRef → Action Unit} {f : Entry → Entry}
    (h : ∀ xs i, i < xs.length → a (e.entries.size + i) (e.grown xs) = (.ok (), e.grown (xs.modify i f)))
    (xs : List Entry) :
    Action.each a (List.range' e.entries.size xs.length) (e.grown xs) = (.ok (), e.grown (xs.map f)) := by
  -- The entries before a place are done, those from it on are still to be done.
  have go (done todo : List Entry) :
      Action.each a (List.range' (e.entries.size + done.length) todo.length)
        (e.grown (done ++ todo)) = (.ok (), e.grown (done ++ todo.map f)) := by
    induction todo generalizing done with
    | nil => rfl
    | cons x rest ih =>
      have first := h (done ++ x :: rest) done.length (by simp)
      have changed : (done ++ x :: rest).modify done.length f = (done ++ [f x]) ++ rest := by
        rw [List.append_assoc]
        exact modify_at done x rest f
      rw [changed] at first
      have next := ih (done ++ [f x])
      rw [List.length_cons, List.range'_succ]
      refine (Action.bind_ok first).trans ?_
      rw [List.length_append, List.length_singleton, ← Nat.add_assoc] at next
      rw [next]
      simp
  simpa using go [] xs

/-- Further entries are put on a queue. -/
theorem placeAll_grown (q : QueueRef) (xs : List Entry) :
    Action.each (Entries.place · (some q)) (List.range' e.entries.size xs.length) (e.grown xs) =
      (.ok (), e.grown (xs.map (e.placed q))) :=
  e.each_grown (a := (Entries.place · (some q))) (f := e.placed q)
    (fun ys _ hi => e.place_grown (some q) ys hi) xs

/-- Further entries are put at the head of a queue. -/
theorem inject_grown (q : QueueRef) (xs : List Entry) :
    Queues.inject q (List.range' e.entries.size xs.length) (e.grown xs) =
      (.ok (), e.put q (xs.map (e.placed q)) (List.range' e.entries.size xs.length ++ ·)) :=
  Action.bind_ok (e.placeAll_grown q xs)

/-- Further entries are put at the end of a queue. -/
theorem append_grown (q : QueueRef) (xs : List Entry) :
    Queues.append q (List.range' e.entries.size xs.length) (e.grown xs) =
      (.ok (), e.put q (xs.map (e.placed q)) (· ++ List.range' e.entries.size xs.length)) :=
  Action.bind_ok (e.placeAll_grown q xs)

/-- The entries of a block are cloned and put at the head of a queue. -/
theorem inject_spawn (owner : EntryRef) (q : QueueRef) {ms : List EntryRef} (hm : e.Clonable ms) :
    (do Queues.inject q (← Entries.spawn owner ms)) e =
      (.ok (), e.injected owner q false (ms.map e.entry)) := by
  have put := e.inject_grown q (ms.map fun m => e.child owner (e.entry m))
  rw [List.length_map, List.map_map] at put
  refine (Action.bind_ok (e.spawn_eq owner hm)).trans (put.trans ?_)
  have hurried : ms.map (e.placed q ∘ fun m => e.child owner (e.entry m)) =
      ms.map ((fun x => { e.placed q (e.child owner x) with forcedInstant := false }) ∘ e.entry) := by
    refine List.map_congr_left fun m h => ?_
    exact congrArg (fun b => { e.placed q (e.child owner (e.entry m)) with forcedInstant := b })
      (hm m h).2.forcedInstant
  unfold injected
  rw [List.map_map, List.length_map, hurried]

end Engine

/-! ## Marks -/

/-- The command that marks the end of a round. -/
def Compiled.mark (script : Option ScriptRef) (line : Int) : Compiled :=
  { keyword := "repeat", handler := Builtin.loop.handler, intended := none,
    words := [Builtin.loopMark], counted := [Builtin.loopMark], metaArgs := [],
    args := [.ofWord false Builtin.loopMark], parsed := [], literals := [Builtin.loopMark],
    positions := [], branches := some [], hasBlocks := false, instant := false, waits := false,
    hasTags := false, wrongCount := false, line, script }

section Marks

variable {catalogue : Catalogue} (h : catalogue.find? "repeat" = some Builtin.loop.handler)
  (script : Option ScriptRef) (line : Int)

include h

theorem assemble_mark :
    assemble catalogue script "repeat" [Builtin.loopMark] [Builtin.loopMark] [] line =
      ⟨{ Compiled.mark script line with branches := none }, [], [Builtin.loopMark]⟩ := by
  have word : (Keyword.ofCommand "repeat").word = "repeat" := by decide +kernel
  have waits : (Keyword.ofCommand "repeat").waits = false := by decide +kernel
  have instant : (Keyword.ofCommand "repeat").instant = false := by decide +kernel
  have plain : Builtin.loop.handler.isMeta Builtin.loopMark = false := by decide +kernel
  have parsed : Builtin.loop.handler.parsesArgument (.ofWord false Builtin.loopMark) = false := by
    decide +kernel
  have literal : (CompiledArgument.ofWord false Builtin.loopMark).isDynamic = false := by
    decide +kernel
  have key : (CompiledArgument.ofWord false Builtin.loopMark).literalKey? = none := by
    decide +kernel
  have raw : (CompiledArgument.ofWord false Builtin.loopMark).raw = Builtin.loopMark := by
    decide +kernel
  have lower : Text.lower Builtin.loopMark = Builtin.loopMark := by decide +kernel
  have any : Builtin.loop.handler.anyKeySymbol = false := rfl
  have count : Builtin.loop.handler.refusesCount 1 false = false := rfl
  have stub : Builtin.loop.handler.isStub = false := rfl
  have held : Builtin.loop.handler.isAlwaysHeld = false := rfl
  simp [assemble, word, waits, instant, h, plain, parsed, literal, raw, lower, any, stub, held,
    positionsFrom, key, keywordFaults, Line.flattenBlocks, Compiled.mark, count]

/-- A mark is compiled without a fault. -/
theorem buildFlat_mark :
    buildFlat catalogue script "repeat" [Builtin.loopMark] line = (Compiled.mark script line, []) := by
  have folded : Source.fold ([Builtin.loopMark].flatMap Source.ungluedWord) line =
      ⟨[Builtin.loopMark], [], false⟩ := rfl
  unfold buildFlat
  rw [folded]
  dsimp only
  rw [assemble_mark h]
  rfl

end Marks

/-- Whatever the mark of a round is compiled to, it has no entries in blocks. -/
theorem buildFlat_mark_plain (catalogue : Catalogue) (script : Option ScriptRef) (line : Int) :
    (buildFlat catalogue script "repeat" [Builtin.loopMark] line).1.branches.getD [] = [] := by
  have folded : Source.fold ([Builtin.loopMark].flatMap Source.ungluedWord) line =
      ⟨[Builtin.loopMark], [], false⟩ := rfl
  unfold buildFlat
  rw [folded]
  dsimp only
  split
  · rfl
  · rfl

namespace Engine

variable {e : Engine} {owner : EntryRef} (q : QueueRef) (body : List Entry)

/-- The command of the mark of a loop. -/
def markOf (e : Engine) (owner : EntryRef) : Compiled :=
  .mark (e.entry owner).code.script (e.entry owner).code.line

variable (hc : e.catalogue.find? "repeat" = some Builtin.loop.handler) (ho : owner < e.entries.size)

include hc ho

/-- The mark of a round is made after the entries of its block. -/
theorem createMark_grown (xs : List Entry) :
    Commands.Loop.createMark owner (e.grown xs) = (.ok (e.entries.size + xs.length),
      e.grown (xs ++ [{ code := e.markOf owner, owner := some owner }])) := by
  let x := e.grown xs
  let make (r : Compiled × List BuildNote) : Action EntryRef := do
    Action.noteAll r.2
    let mark ← Entries.create r.1
    Action.changeEntry mark ({ · with owner := some owner })
    pure mark
  have entry : x.entry owner = e.entry owner := e.entry_grown_of_lt ho
  have flat : buildFlat x.catalogue (x.entry owner).code.script "repeat" [Builtin.loopMark]
      (x.entry owner).code.line = _ := buildFlat_mark hc _ _
  show make (buildFlat x.catalogue (x.entry owner).code.script "repeat" [Builtin.loopMark]
    (x.entry owner).code.line) x = _
  rw [flat, entry]
  show (Except.ok x.entries.size, (x.withEntry { code := e.markOf owner }).changeEntry x.entries.size _) = _
  rw [size_grown, ← grown_singleton, grown_grown, grown_changeEntry, modify_at]

omit hc ho in
/-- Further entries are made to run at once and put at the head of a queue. -/
theorem inject_hurried (made : List Entry) :
    (do
      Action.each (Entries.forceInstant · true) (List.range' e.entries.size made.length)
      Queues.inject q (List.range' e.entries.size made.length) : Action Unit) (e.grown made) =
      (.ok (), e.put q (made.map fun x => e.placed q { x with forcedInstant := true })
        (List.range' e.entries.size made.length ++ ·)) := by
  have hurried := e.each_grown (a := (Entries.forceInstant · true))
    (f := ({ · with forcedInstant := true }))
    (fun ys i _ => congrArg (Except.ok (), ·) (e.grown_changeEntry ys i _)) made
  have put := e.inject_grown q (made.map ({ · with forcedInstant := true }))
  rw [List.length_map, List.map_map] at put
  exact (Action.bind_ok hurried).trans put

omit hc ho in
/-- A round is put at the head of a queue: the entries of the block and the mark, made to run at
once. -/
theorem inject_round :
    (do
      Action.each (Entries.forceInstant · true) (List.range' e.entries.size (body.length + 1))
      Queues.inject q (List.range' e.entries.size (body.length + 1)) : Action Unit)
      (e.grown (body.map (e.child owner) ++ [{ code := e.markOf owner, owner := some owner }])) =
      (.ok (), e.injected owner q true (body ++ [{ code := e.markOf owner }])) := by
  let made := body.map (e.child owner) ++ [{ code := e.markOf owner, owner := some owner }]
  have length : made.length = body.length + 1 := by simp [made]
  have put := e.inject_hurried q made
  rw [length] at put
  refine put.trans ?_
  simp [made, injected, placed, child, Function.comp_def]

omit hc ho in
/-- Whatever the mark of a round is compiled to, it is an entry after those of its block. -/
theorem createMark_entry (xs : List Entry) :
    ∃ events code, Commands.Loop.createMark owner (e.grown xs) = (.ok (e.entries.size + xs.length),
      Engine.grown { e with events } (xs ++ [{ code, owner := some owner }])) := by
  let x := e.grown xs
  let flat := buildFlat x.catalogue (x.entry owner).code.script "repeat" [Builtin.loopMark]
    (x.entry owner).code.line
  obtain ⟨events, shown⟩ := x.emitAll_eq BuildNote.event BuildNote.scope flat.2
  have noted : Action.noteAll flat.2 x = (.ok (), { x with events }) := congrArg (Except.ok (), ·) shown
  let y : Engine := { e with events }
  let make (r : Compiled × List BuildNote) : Action EntryRef := do
    Action.noteAll r.2
    let mark ← Entries.create r.1
    Action.changeEntry mark ({ · with owner := some owner })
    pure mark
  refine ⟨events, flat.1, ?_⟩
  show make flat x = _
  have plain : Entries.create flat.1 (y.grown xs) =
      (.ok (y.grown xs).entries.size, (y.grown xs).withEntry { code := flat.1 }) :=
    Entries.create_eq_of_plain (buildFlat_mark_plain _ _ _) _
  refine (Action.bind_ok noted).trans ((Action.bind_ok plain).trans ?_)
  show (Except.ok (y.grown xs).entries.size, ((y.grown xs).withEntry { code := flat.1 }).changeEntry
    (y.grown xs).entries.size _) = _
  rw [size_grown, ← grown_singleton, grown_grown, grown_changeEntry, modify_at]

end Engine

/-- A round of a loop is put at the head of its queue. -/
theorem Commands.Loop.injectIteration_eq {e : Engine} {owner : EntryRef}
    (hc : e.catalogue.find? "repeat" = some Builtin.loop.handler) (ho : owner < e.entries.size)
    (q : QueueRef) {body : List EntryRef} (hb : e.Clonable body) :
    injectIteration owner q body e =
      (.ok (), e.injected owner q true (body.map e.entry ++ [{ code := e.markOf owner }])) := by
  have marked := Engine.createMark_grown hc ho (body.map fun m => e.child owner (e.entry m))
  rw [List.length_map] at marked
  refine (Action.bind_ok (e.spawn_eq owner hb)).trans ((Action.bind_ok marked).trans ?_)
  have round := @Engine.inject_round e owner q (body.map e.entry)
  rw [List.range'_concat, List.map_map] at round
  simpa [Function.comp_def] using round

/-- A round of a loop is further entries at the head of the queue, whatever its mark is compiled to. -/
theorem Commands.Loop.injectIteration_put (e : Engine) (owner : EntryRef) (q : QueueRef)
    {body : List EntryRef} (hb : e.Clonable body) :
    ∃ events xs, injectIteration owner q body e =
        (.ok (), Engine.put { e with events } q xs (List.range' e.entries.size xs.length ++ ·)) ∧
      ∀ x ∈ xs, x.residing = some q := by
  obtain ⟨events, code, marked⟩ := @Engine.createMark_entry e owner
    (body.map fun m => e.child owner (e.entry m))
  rw [List.length_map] at marked
  let y : Engine := { e with events }
  let made := body.map (fun m => e.child owner (e.entry m)) ++ [{ code, owner := some owner }]
  have round := y.inject_hurried q made
  have range : List.range' e.entries.size body.length ++ [e.entries.size + body.length] =
      List.range' e.entries.size made.length := by
    simp [made, List.range'_concat]
  refine ⟨events, made.map fun x => y.placed q { x with forcedInstant := true }, ?_, fun x hx => ?_⟩
  · refine (Action.bind_ok (e.spawn_eq owner hb)).trans ((Action.bind_ok marked).trans ?_)
    rw [List.length_map, ← range]
    rw [← range] at round
    exact round
  · obtain ⟨z, -, rfl⟩ := List.mem_map.1 hx
    rfl

end QueueScript
