import QueueScript.Proofs.Upkeep.Runs

/-!
# What is left of a procedure

A procedure keeps to itself in everything: besides queues and entries, all memories, lists of
determinations, files, work under way and settings are as they were when it is over, and every queue
that was made meanwhile has ended (`Engine.Untouched`).  The discipline of the queue of a procedure is
taken with a further invariant, which says so while the procedure runs (`Engine.Sealed`).

Queues refer to memories and lists by number, so what a queue holds is unchanged if these numbers are
in range.  They always are (`Engine.Furnished`).
-/

namespace QueueScript

/-! ## Invariants that queues and notes are nothing to -/

/-- The change of a queue does not touch where it keeps what its entries share, nor its script, and
nobody new is told when it ends. -/
structure Queue.Tame (f : Queue → Queue) : Prop where
  memory (z : Queue) : (f z).memory = z.memory
  determinations (z : Queue) : (f z).determinations = z.determinations
  script (z : Queue) : (f z).script = z.script
  listeners (z : Queue) : ∀ l ∈ (f z).listeners, l ∈ z.listeners

/-- All entries are among these, with the commands that they have. -/
structure Engine.Retains (e : Engine) (entries : Array Entry) : Prop where
  size : e.entries.size ≤ entries.size
  code {n : EntryRef} : n < e.entries.size → (entries.getD n default).code = (e.entry n).code

namespace Engine.Retains

/-- An engine retains its entries. -/
theorem refl (e : Engine) : e.Retains e.entries :=
  ⟨Nat.le_refl _, fun _ => rfl⟩

/-- A change that keeps the line of an entry retains it. -/
theorem changeEntry (e : Engine) (n : EntryRef) {f : Entry → Entry} (hf : ∀ x, (f x).code = x.code) :
    e.Retains (e.changeEntry n f).entries :=
  ⟨Nat.le_of_eq (e.size_changeEntry n f).symm, fun {m} _ => e.entry_changeEntry_keep hf n m⟩

/-- New entries leave the old ones as they are. -/
theorem grown (e : Engine) (xs : List Entry) : e.Retains (e.grown xs).entries :=
  ⟨(e.size_grown xs).symm ▸ Nat.le_add_right _ _, fun h => congrArg _ (e.entry_grown_of_lt h)⟩

end Engine.Retains

namespace Discipline

/-- What the further invariant must put up with while entries run on the queues `M`. -/
structure Aloof (M : QueueRef → Prop) (S : Engine → Prop) : Prop where
  tables {e : Engine} {entries : Array Entry} (events : List Event) (registry : Keyed QueueRef)
    (registries : List (Keyed QueueRef)) : S e → e.Retains entries →
      S { e with entries, events, registry, registries }
  queue {e : Engine} {q : QueueRef} {f : Queue → Queue} :
    M q → Queue.Tame f → S e → S (e.changeQueue q f)
  memory {e : Engine} {q : QueueRef} (f : Memory → Memory) :
    M q → S e → S (e.changeMemory (e.queue q).memory f)
  base {e : Engine} {n : Nat} {xs ys : List Entry} : (e.script n).base = none →
    e.Prepares (e.compiled n) xs ys → S e →
      S ((e.grown (xs ++ ys)).keepBase n (List.range' (e.grown xs).entries.size ys.length))
  determine {e : Engine} {q : QueueRef} (v : Value) : M q → S e → S (Queues.determine q v e).2
  tell {e x : Engine} {q : QueueRef} {l : Listener} :
    M q → S e → l ∈ (e.queue q).listeners → S x → S (Queues.tell q l x).2

variable {D : Discipline} {M : QueueRef → Prop} {S : Engine → Prop} {e : Engine} {q : QueueRef}

namespace Aloof

variable (hS : Aloof M S)

include hS

/-- A report keeps what is set apart. -/
theorem emit (event : Event) (s : Scope) (h : S e) : S (e.emit event s) := by
  obtain ⟨events, heq⟩ := e.emit_eq event s
  rw [heq]
  exact hS.tables events e.registry e.registries h (.refl e)

/-- A change of an entry that keeps its line keeps what is set apart. -/
theorem changeEntry (n : EntryRef) {f : Entry → Entry} (hf : ∀ x, (f x).code = x.code) (h : S e) :
    S (e.changeEntry n f) :=
  hS.tables e.events e.registry e.registries h (.changeEntry e n hf)

/-- All listeners of a queue are told. -/
theorem tellAll (hq : M q) (h : S e) {ls : List Listener} (hls : ∀ l ∈ ls, l ∈ (e.queue q).listeners)
    {x : Engine} (hx : S x) : S (Action.each (Queues.tell q) ls x).2 := by
  induction ls generalizing x with
  | nil => exact hx
  | cons l rest ih =>
    have first := hS.tell hq h (hls l List.mem_cons_self) hx
    show S (Action.andThen (Queues.tell q l) (fun _ => Action.each (Queues.tell q) rest) x).2
    unfold Action.andThen
    generalize Queues.tell q l x = r at first
    obtain ⟨r, y⟩ := r
    cases r with
    | ok _ => exact ih (fun k hk => hls k (List.mem_cons_of_mem _ hk)) first
    | error f => exact first

/-- A queue ends. -/
theorem ends {f : Queue → Queue} (hf : Queue.Tame f) (hq : M q) (h : S e) :
    S ((do
      unless (← Action.queue q).state.isEnd do
        Action.changeQueue q f
        Queues.complete q : Action Unit) e).2 := by
  show S ((if (e.queue q).state.isEnd then pure () else
    Action.changeQueue q f >>= fun _ => Queues.complete q : Action Unit) e).2
  split
  · exact h
  show S (Queues.complete q (e.changeQueue q f)).2
  obtain ⟨events, complete⟩ := Queues.complete_eq q (e.changeQueue q f)
  rw [complete]
  have changed : S (e.changeQueue q f) := hS.queue hq hf h
  have taken : S { Queues.unregistered q (e.changeQueue q f) with events } := by
    obtain ⟨registry, registries, books⟩ := Queues.unregistered_books q (e.changeQueue q f)
    rw [books]
    exact hS.tables (e := e.changeQueue q f) events registry registries changed (.refl _)
  have told : Queue.Tame ({ · with listeners := [] }) :=
    ⟨fun _ => rfl, fun _ => rfl, fun _ => rfl, fun _ _ hl => absurd hl List.not_mem_nil⟩
  exact hS.tellAll hq taken (fun _ hl => hl) (hS.queue hq told taken)

/-- A queue of its own is launched and the rest set apart. -/
theorem launch (hq : M q) (h : S e) : S (Queues.launch q e).2 := by
  obtain ⟨events, heq⟩ := e.launch_eq q
  rw [heq]
  have changed : S (e.changeQueue q ({ · with state := .running })) :=
    hS.queue hq ⟨fun _ => rfl, fun _ => rfl, fun _ => rfl, fun _ _ hl => hl⟩ h
  exact hS.tables (e := e.changeQueue q ({ · with state := .running })) events _ _ changed (.refl _)

/-- What every command does keeps what is set apart. -/
theorem bookkeeping (hM : ∀ {e q}, D.mine e q → M q) (hb : D.Bookkeeping) : (D.also S).Bookkeeping where
  emit event s he := (hb.emit event s he.1).also (hS.emit event s he.2)
  jot he hn hf := (hb.jot he.1 hn hf).also (hS.changeEntry _ hf.steadies.code he.2)
  finish he hn := (hb.finish he.1 hn).imp (fun h => h.also (hS.changeEntry _ (fun _ => rfl) he.2)) id
  memory f he hq := (hb.memory f he.1 hq).also (hS.memory f (hM hq) he.2)
  residing he hn h := hb.residing he.1 hn h
  eased_mono hl hn h := hb.eased_mono hl hn h

/-- The commands that run blocks keep what is set apart. -/
theorem blocks (hM : ∀ {e q}, D.mine e q → M q) (hb : D.Blocks) : (D.also S).Blocks where
  toBookkeeping := hS.bookkeeping hM hb.toBookkeeping
  based he := hb.based he.1
  stock_mono hl h := { hb.stock_mono hl ⟨h.lt, h.base, h.fits⟩ with }
  grow {e xs _} he hx hc := (hb.grow he.1 hx hc).imp
    (fun h => h.also (hS.tables e.events e.registry e.registries he.2 (.grown e xs))) id
  place he hn hr hq := (hb.place he.1 hn hr hq).imp
    (fun h => h.also (hS.changeEntry _ (fun _ => rfl) he.2)) id
  belong he hn ho := (hb.belong he.1 hn ho).also (hS.changeEntry _ (fun _ => rfl) he.2)
  loop s he hn := (hb.loop s he.1 hn).also (hS.changeEntry _ (fun _ => rfl) he.2)
  hurry i he hn := (hb.hurry i he.1 hn).also (hS.changeEntry _ (fun _ => rfl) he.2)
  owner he hn h := hb.owner he.1 hn h
  pending f he hq h := (hb.pending f he.1 hq h).also (hS.queue (hM hq)
    ⟨fun _ => rfl, fun _ => rfl, fun _ => rfl, fun _ _ hl => hl⟩ he.2)
  determine v hq := (hb.determine v hq).also fun _ _ _ h _ => hS.determine v (hM hq) h
  stop hq := (hb.stop hq).also fun _ _ _ h _ =>
    hS.ends ⟨fun _ => rfl, fun _ => rfl, fun _ => rfl, fun _ _ hl => hl⟩ (hM hq) h
  fits_code he hn := hb.fits_code he.1 hn
  fits_branch hc h := hb.fits_branch hc h
  fits_mark script number he := hb.fits_mark script number he.1

/-- Queues of their own run and keep what is set apart. -/
theorem running (hM : ∀ {e q}, D.mine e q → M q) (hb : D.Blocks) (hr : D.Running) :
    (D.also S).Running where
  toFilling := (hS.blocks hM hb).filling
  stop hq := (hS.blocks hM hb).stop hq
  keep he hnone ready hc := (hr.keep he.1 hnone ready hc).also (hS.base hnone ready he.2)
  launch he hq idle := (hr.launch he.1 hq idle).also fun _ => hS.launch (hM hq) he.2
  finishQueue hq := (hr.finishQueue hq).also fun _ _ _ h _ =>
    hS.ends ⟨fun _ => rfl, fun _ => rfl, fun _ => rfl, fun _ _ hl => hl⟩ (hM hq) h
  delay d he hq := (hr.delay d he.1 hq).also (hS.queue (hM hq)
    ⟨fun _ => rfl, fun _ => rfl, fun _ => rfl, fun _ _ hl => hl⟩ he.2)
  waiting he hq hn := hr.waiting he.1 hq hn
  pace hl hq := hr.pace hl hq
  fits_source script _ he hs := hr.fits_source script he.1 hs
  reads_script n he := hr.reads_script n he.1
  fits_base he h := hr.fits_base he.1 h

end Aloof

end Discipline

/-! ## What a procedure leaves behind -/

namespace Engine

/-- What is not looked at when a procedure runs: everything but the tables that it may add to, the
registry, diagnostics, the counters of ids and the history. -/
def fixtures (e : Engine) : Engine :=
  { e with scripts := #[], queues := #[], entries := #[], memories := #[], lists := #[], registry := [],
           registries := [], counters := [], events := [], journal := [] }

/-- The list of determinations with a number. -/
def list (e : Engine) (i : ListRef) : List Value :=
  e.lists.getD i []

/-- All there was in the first engine is in the second one as it was, and every queue that was made
meanwhile has ended. -/
structure Untouched (b x : Engine) : Prop where
  queues : b.queues.size ≤ x.queues.size
  queue {q : QueueRef} : q < b.queues.size → x.queue q = b.queue q
  ended {q : QueueRef} : b.queues.size ≤ q → q < x.queues.size → (x.queue q).state.isEnd = true
  entries : b.entries.size ≤ x.entries.size
  entry {n : EntryRef} : n < b.entries.size → x.entry n = b.entry n
  memories : b.memories.size ≤ x.memories.size
  memory {m : MemoryRef} : m < b.memories.size → x.memory m = b.memory m
  lists : b.lists.size ≤ x.lists.size
  list {i : ListRef} : i < b.lists.size → x.list i = b.list i
  script (s : Nat) : x.script s = { b.script s with base := (x.script s).base }
  registry : x.registry = b.registry
  fixtures : x.fixtures = b.fixtures

/-- Nothing has touched an engine that is the same. -/
theorem Untouched.refl (b : Engine) : b.Untouched b where
  queues := Nat.le_refl _
  queue _ := rfl
  ended hq hx := absurd hx (Nat.not_lt_of_le hq)
  entries := Nat.le_refl _
  entry _ := rfl
  memories := Nat.le_refl _
  memory _ := rfl
  lists := Nat.le_refl _
  list _ := rfl
  script _ := rfl
  registry := rfl
  fixtures := rfl

/-- All queues that were made meanwhile run procedures. -/
def AddsProcedures (b x : Engine) : Prop :=
  ∀ q, b.queues.size ≤ q → q < x.queues.size → (x.queue q).isProcedural = true

/-- The engine while a procedure runs on the queue `p`, called on the engine `b`: besides queues and
entries, all there was is as it was. -/
structure Sealed (b : Engine) (p : QueueRef) (s : Option ScriptRef) (x : Engine) : Prop where
  memories : b.memories.size ≤ x.memories.size
  memory {m : MemoryRef} : m < b.memories.size → x.memory m = b.memory m
  lists : b.lists.size ≤ x.lists.size
  list {i : ListRef} : i < b.lists.size → x.list i = b.list i
  ownMemory : b.memories.size ≤ (x.queue p).memory
  ownList {i : ListRef} : (x.queue p).determinations = some i → b.lists.size ≤ i
  ownScript : (x.queue p).script = s
  unheard : (x.queue p).listeners = []
  ended {q : QueueRef} : b.queues.size ≤ q → q < x.queues.size → q ≠ p → (x.queue q).state.isEnd = true
  procedural {q : QueueRef} :
    b.queues.size ≤ q → q < x.queues.size → q ≠ p → (x.queue q).isProcedural = true
  script (n : Nat) : x.script n = { b.script n with base := (x.script n).base }
  fixtures : x.fixtures = b.fixtures

/-- Other memories stay as they are. -/
theorem memory_changeMemory_of_ne (e : Engine) {m k : MemoryRef} (h : m ≠ k) (f : Memory → Memory) :
    (e.changeMemory m f).memory k = e.memory k := by
  simp [changeMemory, memory, Array.getD_eq_getD_getElem?, Array.getElem?_modify, h]

/-- The memory that was changed. -/
theorem memory_changeMemory_self (e : Engine) {m : MemoryRef} (h : m < e.memories.size)
    (f : Memory → Memory) : (e.changeMemory m f).memory m = f (e.memory m) := by
  unfold changeMemory memory
  rw [Array.getD_eq_getD_getElem?, Array.getElem?_modify, if_pos rfl, Array.getD_eq_getD_getElem?,
    Array.getElem?_eq_getElem h]
  rfl

namespace Sealed

variable {b x y : Engine} {p : QueueRef} {s : Option ScriptRef}

/-- The queue of the procedure is changed, and a list of determinations that it gets is a new one. -/
theorem changeQueue (h : b.Sealed p s x) {f : Queue → Queue} (hm : ∀ z, (f z).memory = z.memory)
    (hs : ∀ z, (f z).script = z.script) (hl : ∀ z, ∀ l ∈ (f z).listeners, l ∈ z.listeners)
    (hd : ∀ z i, (f z).determinations = some i → z.determinations = some i ∨ b.lists.size ≤ i) :
    b.Sealed p s (x.changeQueue p f) where
  memories := h.memories
  memory := h.memory
  lists := h.lists
  list := h.list
  ownMemory := by
    rw [x.queue_changeQueue_keep hm]
    exact h.ownMemory
  ownList hi := by
    rw [queue_changeQueue] at hi
    split at hi
    · exact (hd _ _ hi).elim (fun hi => h.ownList hi) id
    · exact h.ownList hi
  ownScript := (x.queue_changeQueue_keep hs p p).trans h.ownScript
  unheard := by
    rw [queue_changeQueue]
    split
    · exact List.eq_nil_iff_forall_not_mem.2 fun l hmem =>
        absurd (h.unheard ▸ hl _ l hmem) List.not_mem_nil
    · exact h.unheard
  ended hq hx hp := by
    rw [x.queue_changeQueue_of_ne (Ne.symm hp)]
    exact h.ended hq (by simpa using hx) hp
  procedural hq hx hp := by
    rw [x.queue_changeQueue_of_ne (Ne.symm hp)]
    exact h.procedural hq (by simpa using hx) hp
  script := h.script
  fixtures := h.fixtures

/-- The queue of the procedure determines a value. -/
theorem determine (h : b.Sealed p s x) (v : Value) : b.Sealed p s (Queues.determine p v x).2 := by
  rcases Queues.determine_cases p v x with ⟨n, hn, done⟩ | ⟨-, done⟩ <;> rw [done]
  · refine { h with lists := ?_, list := fun {i} hi => ?_ }
    · show b.lists.size ≤ (x.lists.modify n _).size
      rw [Array.size_modify]
      exact h.lists
    · refine Eq.trans ?_ (h.list hi)
      have ne : n ≠ i := Nat.ne_of_gt (Nat.lt_of_lt_of_le hi (h.ownList hn))
      simp [Engine.list, Array.getD_eq_getD_getElem?, Array.getElem?_modify, ne]
  · have grown : b.Sealed p s { x with lists := x.lists.push [v] } := by
      refine { h with lists := ?_, list := fun {i} hi => ?_ }
      · show b.lists.size ≤ (x.lists.push [v]).size
        rw [Array.size_push]
        exact Nat.le_succ_of_le h.lists
      · refine Eq.trans ?_ (h.list hi)
        have ne : i ≠ x.lists.size := Nat.ne_of_lt (Nat.lt_of_lt_of_le hi h.lists)
        simp [Engine.list, Array.getD_eq_getD_getElem?, Array.getElem?_push, ne]
    refine grown.changeQueue (fun _ => rfl) (fun _ => rfl) (fun _ _ hl => hl) fun _ i hi => .inr ?_
    cases hi
    exact h.lists

/-- Another procedure was called and is over. -/
theorem call (h : b.Sealed p s x) (hp : p < x.queues.size) (hy : x.Untouched y)
    (ha : x.AddsProcedures y) : b.Sealed p s y where
  memories := Nat.le_trans h.memories hy.memories
  memory hm := (hy.memory (Nat.lt_of_lt_of_le hm h.memories)).trans (h.memory hm)
  lists := Nat.le_trans h.lists hy.lists
  list hi := (hy.list (Nat.lt_of_lt_of_le hi h.lists)).trans (h.list hi)
  ownMemory := by
    rw [hy.queue hp]
    exact h.ownMemory
  ownList hi := by
    rw [hy.queue hp] at hi
    exact h.ownList hi
  ownScript := by
    rw [hy.queue hp]
    exact h.ownScript
  unheard := by
    rw [hy.queue hp]
    exact h.unheard
  ended {q} hq hx hne := by
    by_cases hold : q < x.queues.size
    · rw [hy.queue hold]
      exact h.ended hq hold hne
    · exact hy.ended (Nat.le_of_not_lt hold) hx
  procedural {q} hq hx hne := by
    by_cases hold : q < x.queues.size
    · rw [hy.queue hold]
      exact h.procedural hq hold hne
    · exact ha q (Nat.le_of_not_lt hold) hx
  script n := by rw [hy.script, h.script]
  fixtures := hy.fixtures.trans h.fixtures

/-- What is done on other queues keeps a queue sealed. -/
theorem aloof (b : Engine) (p : QueueRef) (s : Option ScriptRef) :
    Discipline.Aloof (· = p) (b.Sealed p s) where
  tables _ _ _ h _ := { h with }
  queue hq hf h := by
    cases hq
    exact h.changeQueue hf.memory hf.script hf.listeners fun z _ hi =>
      .inl ((hf.determinations z).symm.trans hi)
  memory {e q} f hq h := by
    cases hq
    refine { h with memories := ?_, memory := fun {m} hm => ?_ }
    · show b.memories.size ≤ (e.memories.modify _ f).size
      rw [Array.size_modify]
      exact h.memories
    · rw [e.memory_changeMemory_of_ne (Nat.ne_of_gt (Nat.lt_of_lt_of_le hm h.ownMemory))]
      exact h.memory hm
  base {e n xs ys} _ _ h := by
    refine { h with script := fun i => ?_ }
    obtain ⟨base, heq⟩ := (e.grown (xs ++ ys)).script_keepBase n i
      (List.range' (e.grown xs).entries.size ys.length)
    rw [heq]
    exact congrArg ({ · with base }) (h.script i)
  determine v hq h := by
    cases hq
    exact h.determine v
  tell hq h hl := by
    cases hq
    rw [h.unheard] at hl
    exact absurd hl List.not_mem_nil

end Sealed

end Engine

/-! ## A procedure from its call to its end -/

/-- Procedures leave everything as it was, and only they run while one of them does. -/
def Calls.Sealing (calls : Calls) : Prop :=
  ∀ (e : Engine) (name : String) (args : List Value), e.Healthy →
    (calls.procedure name args e).1 ≠ .error .exhausted →
      e.Untouched (calls.procedure name args e).2 ∧ e.AddsProcedures (calls.procedure name args e).2

namespace Drive

open Discipline Discipline.Inside

variable {b x : Engine} {p : QueueRef} {s : Option ScriptRef} {calls : Calls}

/-- The discipline of a procedure, with the seal that it keeps. -/
abbrev sealing (b : Engine) (p : QueueRef) (s : Option ScriptRef) : Discipline :=
  (inside b p).also (b.Sealed p s)

/-- Queues run sealed. -/
theorem running_sealing : (sealing b p s).Running :=
  (Engine.Sealed.aloof b p s).running (fun hq => hq) blocks running

/-- Entries run sealed, where the procedures that they call are isolated. -/
theorem runsEntries_sealing (hc : calls.Isolated) (hs : calls.Sealing) :
    (sealing b p s).RunsEntries calls := by
  have aloof := Engine.Sealed.aloof b p s
  have called : (sealing b p s).ProcedureSafe calls := fun e₀ name args =>
    (procedureSafe hc e₀ name args).also fun e he _ h hr =>
      have ⟨untouched, procedures⟩ := hs e name args he.1 hr
      h.call he.2.here untouched procedures
  refine runsLocal (aloof.blocks (fun hq => hq) blocks) called (fun he => localPlaced he.1)
    (fun hl hn => hl.1.2.code hn.inner.live.1) (fun _ _ => .inl trivial) running_sealing.toServing
    (fun he hs => (Inside.note he.1 hs).also { he.2 with }) fun he hq hn => ?_
  cases hq
  exact (last he.1 hn).also (aloof.queue rfl
    ⟨fun _ => rfl, fun _ => rfl, fun _ => rfl, fun _ _ hl => hl⟩ he.2)

/-- When the queue has ended, everything is as it was. -/
theorem untouched (hx : (sealing b p s).inv x) (hend : (x.queue p).state.isEnd = true) :
    b.Untouched x where
  queues := Nat.le_trans hx.1.2.old (Nat.le_of_lt hx.1.2.here)
  queue := hx.1.2.queue
  ended {q} hq hsize := by
    by_cases hp : q = p
    · rw [hp]
      exact hend
    · exact hx.2.ended hq hsize hp
  entries := hx.1.2.size
  entry := hx.1.2.entry
  memories := hx.2.memories
  memory := hx.2.memory
  lists := hx.2.lists
  list := hx.2.list
  script := hx.2.script
  registry := (hx.1.2.apart hend).registry
  fixtures := hx.2.fixtures

/-- Nothing but procedures has run. -/
theorem addsProcedures (hx : (sealing b p s).inv x) : b.AddsProcedures x := by
  intro q hq hsize
  by_cases hp : q = p
  · rw [hp]
    exact hx.1.2.procedural
  · exact hx.2.procedural hq hsize hp

/-- The queue of a procedure that still runs is stopped before its value is looked up. -/
theorem outcome_eq (hx : (sealing b p s).inv x) (name : String) :
    ∃ y, outcome p name x = valueOf p name y ∧ (sealing b p s).inv y ∧
      (y.queue p).state.isEnd = true := by
  have unfolded : outcome p name x = (if !(x.queue p).state.isEnd then
      Queues.stop p >>= fun _ => valueOf p name else valueOf p name : Action Value) x := rfl
  rw [unfolded]
  obtain ⟨y, hstop, -, hend, -⟩ := hx.1.2.ends (f := ({ · with state := .stopped, pending := [] }))
    (fun z => ⟨_, _, _, _, _, _, rfl⟩) (fun _ => rfl) (fun _ => rfl)
    fun _ _ hn => absurd hn List.not_mem_nil
  have stopped : Queues.stop p x = (.ok (), y) := hstop
  have leaves := ((running_sealing (b := b) (s := s)).stop rfl).run x hx ((sealing b p s).refl x)
  rw [stopped] at leaves
  split
  · exact ⟨y, by rw [Action.bind_ok stopped], leaves.1.1, hend⟩
  · rename_i hended
    exact ⟨x, rfl, hx, by simpa using hended⟩

/-- The queue of a procedure has a memory of its own. -/
theorem sealed_create (b : Engine) (name : String) (s : Option ScriptRef) :
    b.Sealed b.queues.size s (Queues.create .instant name { isProcedural := true, script := s } b).2 := by
  obtain ⟨id, counters, hid, -⟩ := Queues.generateId_free name b
  let x : Queue := { id, name, pace := .instant, isProcedural := true, script := s,
                     memory := b.memories.size }
  let y : Engine := { b with counters }
  have made : (Queues.create .instant name { isProcedural := true, script := s } b).2 = y.withQueue x :=
    congrArg Prod.snd (Action.bind_ok hid)
  have here : (y.withQueue x).queue b.queues.size = x := (y.queue_withQueue _ _).trans (if_pos rfl)
  rw [made]
  exact {
    memories := by simp [Engine.withQueue, y]
    memory := fun _ => y.memory_withQueue x _
    lists := Nat.le_refl _
    list := fun _ => rfl
    ownMemory := by rw [here]
    ownList := fun hi => by rw [here] at hi; cases hi
    ownScript := by rw [here]
    unheard := by rw [here]
    ended := fun {q} hq hsize hne => by
      have : q < b.queues.size + 1 := by simpa [y] using hsize
      exact absurd (Nat.le_antisymm (Nat.le_of_lt_succ this) hq) hne
    procedural := fun {q} hq hsize hne => by
      have : q < b.queues.size + 1 := by simpa [y] using hsize
      exact absurd (Nat.le_antisymm (Nat.le_of_lt_succ this) hq) hne
    script := fun _ => rfl
    fixtures := rfl }

/-- What a call of a procedure is, if it is not cut off: it fails at once, or the value is looked up on
a queue of its own that has ended. -/
theorem runProcedure_cases (hc : calls.Isolated) (hs : calls.Sealing) (fuel : Nat) {e : Engine}
    (he : e.Healthy) (name : String) (args : List Value)
    (hr : (runProcedure calls fuel name args e).1 ≠ .error .exhausted) :
    (∃ f, procedureNamed name e = (.error f, e) ∧ runProcedure calls fuel name args e = (.error f, e)) ∨
      ∃ n x, procedureNamed name e = (.ok n, e) ∧
        runProcedure calls fuel name args e = valueOf e.queues.size name x ∧
        (sealing e e.queues.size (some ⟨n, (e.script n).name⟩)).inv x ∧
        (x.queue e.queues.size).state.isEnd = true := by
  obtain ⟨f, -, hnamed⟩ | ⟨n, hnamed, -⟩ := procedureNamed_eq name e
  · exact .inl ⟨f, hnamed, Action.bind_error hnamed⟩
  let p := e.queues.size
  let s : Option ScriptRef := some ⟨n, (e.script n).name⟩
  obtain ⟨x, hcreate, hx⟩ := ready_create he (e.script n).name s
  rw [runProcedure_eq calls fuel args hnamed hcreate] at hr ⊢
  have hsealed : e.Sealed p s x := by
    have made := sealed_create e (e.script n).name s
    rwa [hcreate] at made
  have loaded : (sealing e p s).Safe x (Scripts.load p n args []) :=
    safe_load running_sealing.toTurning rfl n args []
  match hload : Scripts.load p n args [] x with
  | (.error f, y) =>
    have hf := (Scripts.sure_load p n args []).on x f (by rw [hload])
    rw [hf] at hload
    exact absurd (congrArg Prod.fst (Action.bind_error hload)) hr
  | (.ok _, y) =>
    rw [Action.bind_ok hload] at hr ⊢
    have hy : Ready e p y := hx.after (safe_load running.toTurning rfl n args []) hload
    match hrun : runToCompletion calls fuel p y with
    | (.error f, z) =>
      have hf := sureAt_runToCompletion hc hy fuel f (by rw [hrun])
      rw [hf] at hrun
      exact absurd (congrArg Prod.fst (Action.bind_error hrun)) hr
    | (.ok _, z) =>
      rw [Action.bind_ok hrun]
      have filled := loaded.run x ⟨hx.1, hsealed⟩ ((sealing e p s).refl x)
      rw [hload] at filled
      have ran : (sealing e p s).Safe y (runToCompletion calls fuel p) :=
        safe_runToCompletion running_sealing (runsEntries_sealing hc hs) rfl hy.1.2.here hy.2 fuel
      have turned := ran.run y filled.1.1 ((sealing e p s).refl y)
      rw [hrun] at turned
      obtain ⟨o, hout, ho, hend⟩ := outcome_eq turned.1.1 name
      exact .inr ⟨n, o, hnamed, hout, ho, hend⟩

/-- At every level of nesting, procedures leave everything as it was. -/
theorem sealing_calls (fuel : Nat) : (Drive.calls fuel).Sealing := by
  induction fuel with
  | zero => exact fun _ _ _ _ hr => absurd rfl hr
  | succ fuel ih =>
    intro e name args he hr
    obtain ⟨f, -, failed⟩ | ⟨n, x, -, ran, hx, hend⟩ :=
      runProcedure_cases (isolated_calls fuel) ih fuel he name args hr
    · have same : ((Drive.calls (fuel + 1)).procedure name args e).2 = e := congrArg Prod.snd failed
      rw [same]
      exact ⟨.refl e, fun q hq hsize => absurd hsize (Nat.not_lt_of_le hq)⟩
    · have same : ((Drive.calls (fuel + 1)).procedure name args e).2 = x :=
        (congrArg Prod.snd ran).trans (valueOf_eq _ name x)
      rw [same]
      exact ⟨untouched hx hend, addsProcedures hx⟩

end Drive

/-! ## Further invariants of all runs -/

namespace Discipline

/-- What the further invariant must put up with besides where queues are made, replaced and
started. -/
structure Hardy (S : Engine → Prop) : Prop extends Aloof (fun _ => True) S where
  aside {e e' : Engine} :
    S e → e'.queues = e.queues → e'.entries = e.entries → e'.memories = e.memories →
      e'.lists = e.lists → e'.scripts = e.scripts → e'.catalogue = e.catalogue → S e'
  make {e : Engine} {x : Queue} : S e → x.IsNew → x.memory = e.memories.size → S (e.withQueue x)
  listen {e : Engine} (q : QueueRef) (n : EntryRef) : S e → S (Queues.onComplete q (.finish n) e).2
  replace {e e' : Engine} {q : QueueRef} {d : Option Delay} :
    S e → q < e.queues.size → e.Replaces q d e' → S e'

namespace Hardy

variable {S : Engine → Prop} (hS : Hardy S)

include hS

/-- The commands that run blocks keep what endures. -/
theorem blocks : (healthy.also S).Blocks :=
  hS.toAloof.blocks (fun _ => trivial) Healthy.blocks

/-- The commands that reach beyond their queue keep what endures. -/
theorem outreach : (healthy.also S).Outreach where
  toRunning := hS.toAloof.running (fun _ => trivial) Healthy.blocks Healthy.running
  counters t he := (Healthy.turns.counters t he.1).also (hS.aside he.2 rfl rfl rfl rfl rfl rfl)
  make he hx hm := (Healthy.turns.make he.1 hx hm).imp (fun h => h.also (hS.make he.2 hx hm)) id
  work job he hn := (Healthy.outreach.work job he.1 hn).imp
    (fun h => h.also (hS.aside he.2 rfl rfl rfl rfl rfl rfl)) id
  perform {e} job he := by
    refine (Healthy.outreach.perform job he.1).also ?_
    obtain ⟨files, clock, webPlans, webCalls, h⟩ := Background.perform_eq e job
    rw [h]
    exact hS.aside he.2 rfl rfl rfl rfl rfl rfl
  listen hq hn := (Healthy.outreach.listen hq hn).also fun _ _ _ h _ => hS.listen _ _ h
  registered he h := Healthy.outreach.registered he.1 h
  unheld he hn h := Healthy.outreach.unheld he.1 hn h
  replace {e₀ q} d hq := (Healthy.outreach.replace d hq).also fun e _ hl h _ => by
    have hqe : q < e.queues.size := healthy.mine_mono hl hq
    obtain ⟨y, replace, replaces⟩ := e.replaceByTimed_replaces d hqe
    rw [replace]
    exact hS.replace h hqe replaces

/-- Entries keep what endures, where procedures and starts do. -/
theorem runsEntries (calls : Calls) (hp : (healthy.also S).ProcedureSafe calls)
    (hs : (healthy.also S).StartSafe calls) : (healthy.also S).RunsEntries calls := by
  have noted {x : Engine} (hx : (healthy.also S).inv x) (s : QueueScript.Step) :
      (healthy.also S).Step x { x with journal := s :: x.journal } :=
    (Healthy.note hx.1 s).also (hS.aside hx.2 rfl rfl rfl rfl rfl rfl)
  refine runsNoted hS.outreach hS.blocks hp hs (fun n he _ _ _ => noted he _) (fun q n he hn => ?_)
    fun q n ran he => noted he _
  exact (Healthy.last he.1 q hn).also
    (hS.queue trivial ⟨fun _ => rfl, fun _ => rfl, fun _ => rfl, fun _ _ hl => hl⟩ he.2)

/-- Procedures and starts keep what endures, with any amount of fuel. -/
theorem calls_safe (fuel : Nat) :
    (healthy.also S).ProcedureSafe (Drive.calls fuel) ∧ (healthy.also S).StartSafe (Drive.calls fuel) :=
  callsSafe hS.outreach.toTurns (fun fuel => hS.runsEntries (Drive.calls fuel)) fuel

/-- Entries keep what endures, with any amount of fuel. -/
theorem calls_runsEntries (fuel : Nat) : (healthy.also S).RunsEntries (Drive.calls fuel) :=
  hS.runsEntries _ (hS.calls_safe fuel).1 (hS.calls_safe fuel).2

end Hardy

/-- What the further invariant must put up with from a host, besides. -/
structure Enduring (S : Engine → Prop) : Prop extends Hardy S where
  register {e : Engine} {record : ScriptRecord} : S e → record.base = none → S { e with
    scripts := e.scripts.push record
    scriptNames := e.scriptNames.put (Text.lower record.name) e.scripts.size }
  hear {e : Engine} (q : QueueRef) (label : String) (error : Option String) :
    S e → S (Queues.onComplete q (.notify label error) e).2

namespace Enduring

variable {S : Engine → Prop} (hS : Enduring S)

include hS

/-- The host keeps what endures. -/
theorem hosting : (healthy.also S).Hosting where
  toOutreach := hS.outreach
  mine_iff := Iff.rfl
  register he hr hs := (Healthy.hosting.register he.1 hr hs).also (hS.register he.2 hr)
  world files webPlans clock bases attributes heartbeatTime beats he :=
    (Healthy.hosting.world files webPlans clock bases attributes heartbeatTime beats he.1).also
      (hS.aside he.2 rfl rfl rfl rfl rfl rfl)
  pause q he := by
    refine (Healthy.hosting.pause q he.1).also (hS.queue trivial ?_ he.2)
    exact ⟨fun _ => by split <;> rfl, fun _ => by split <;> rfl, fun _ => by split <;> rfl,
      fun _ _ hl => by split at hl <;> exact hl⟩
  resume q he := by
    refine (Healthy.hosting.resume q he.1).also (hS.queue trivial ?_ he.2)
    exact ⟨fun _ => by split <;> rfl, fun _ => by split <;> rfl, fun _ => by split <;> rfl,
      fun _ _ hl => by split at hl <;> exact hl⟩
  live he hp := Healthy.hosting.live he.1 hp
  hear q label error he :=
    ⟨fun hr => ⟨(Healthy.hosting.hear q label error he.1).inv hr, hS.hear q label error he.2⟩, trivial⟩
  inject he hq hs _ := kept_inject hS.outreach.toTurning hS.blocks he hq hs

/-- Requests keep what endures. -/
theorem taking : (healthy.also S).Taking where
  toBookkeeping := hS.blocks.toBookkeeping
  cut _ h := h
  settles he h := he.1.tidy.handoffs h
  clears he := (Healthy.step he.1 ((Tidy.taking (R := fun _ => True)).clears ⟨he.1.tidy, trivial⟩)
    (Engine.keeps_of_tables rfl rfl)).also (hS.aside he.2 rfl rfl rfl rfl rfl rfl)
  fires label count he := (Healthy.step he.1
    ((Tidy.taking (R := fun _ => True)).fires label count ⟨he.1.tidy, trivial⟩)
    (Engine.keeps_of_tables rfl rfl)).also (hS.aside he.2 rfl rfl rfl rfl rfl rfl)
  asks label count he := (Healthy.step he.1
    ((Tidy.taking (R := fun _ => True)).asks label count ⟨he.1.tidy, trivial⟩)
    (Engine.keeps_of_tables rfl rfl)).also (hS.aside he.2 rfl rfl rfl rfl rfl rfl)

/-- Beats keep what endures. -/
theorem beating : (healthy.also S).Beating where
  toHosting := hS.hosting
  schedule label error again he := (Healthy.beating.schedule label error again he.1).also
    (hS.aside he.2 rfl rfl rfl rfl rfl rfl)
  settle {e w i} he hw := by
    refine (Healthy.beating.settle he.1 hw).also ?_
    obtain ⟨files, clock, webPlans, webCalls, h⟩ :=
      Background.perform_eq { e with inFlight := e.inFlight.eraseIdx i } w.job
    unfold Background.settleOne
    dsimp only
    rw [h]
    exact hS.aside he.2 rfl rfl rfl rfl rfl rfl
  takeOver _ := safe_takeOverAll hS.taking

/-- The further invariant holds of every engine that operations lead to. -/
theorem inv_reachable {e₀ e : Engine} (h₀ : e₀.Healthy ∧ S e₀) (h : Reachable e₀ e) : e.Healthy ∧ S e :=
  Discipline.inv_reachable hS.beating hS.calls_runsEntries h₀ h

end Enduring

end Discipline

/-! ## Memories and lists in range -/

namespace Engine

/-- What the queues refer to is there. -/
structure Furnished (e : Engine) : Prop where
  memory {q : QueueRef} : q < e.queues.size → (e.queue q).memory < e.memories.size
  list {q : QueueRef} {i : ListRef} : (e.queue q).determinations = some i → i < e.lists.size

namespace Furnished

variable {e e' : Engine}

/-- Queues refer to what they referred to, and nothing was taken away. -/
theorem same (h : e.Furnished) (hq : e'.queues.size = e.queues.size)
    (hm : ∀ q, (e'.queue q).memory = (e.queue q).memory)
    (hd : ∀ q, (e'.queue q).determinations = (e.queue q).determinations)
    (hms : e.memories.size ≤ e'.memories.size) (hls : e.lists.size ≤ e'.lists.size) : e'.Furnished where
  memory {q} hlt := by
    rw [hm]
    exact Nat.lt_of_lt_of_le (h.memory (hq ▸ hlt)) hms
  list {q i} hi := Nat.lt_of_lt_of_le (h.list ((hd q).symm.trans hi)) hls

/-- Only queues, memories and lists count for the furnishing. -/
theorem of_tables (h : e.Furnished) (hq : e'.queues = e.queues) (hms : e'.memories = e.memories)
    (hls : e'.lists = e.lists) : e'.Furnished :=
  h.same (by rw [hq]) (fun q => by rw [queue_congr hq]) (fun q => by rw [queue_congr hq])
    (Nat.le_of_eq (by rw [hms])) (Nat.le_of_eq (by rw [hls]))

/-- A change that keeps the memory and the list of a queue keeps it furnished. -/
theorem changeQueue (h : e.Furnished) (q : QueueRef) {f : Queue → Queue}
    (hm : ∀ z, (f z).memory = z.memory) (hd : ∀ z, (f z).determinations = z.determinations) :
    (e.changeQueue q f).Furnished :=
  h.same (e.size_changeQueue q f) (e.queue_changeQueue_keep hm q) (e.queue_changeQueue_keep hd q)
    (Nat.le_refl _) (Nat.le_refl _)

/-- An outcome keeps queues furnished. -/
theorem determine (h : e.Furnished) (q : QueueRef) (v : Value) :
    (Queues.determine q v e).2.Furnished := by
  rcases Queues.determine_cases q v e with ⟨i, -, done⟩ | ⟨-, done⟩ <;> rw [done]
  · exact h.same rfl (fun _ => rfl) (fun _ => rfl) (Nat.le_refl _) (Nat.le_of_eq (by simp))
  · let x : Engine := { e with lists := e.lists.push [v] }
    refine ⟨fun {p} hp => ?_, fun {p i} hi => ?_⟩
    · have kept := x.queue_changeQueue_keep (f := ({ · with determinations := some e.lists.size }))
        (g := Queue.memory) (fun _ => rfl) q p
      rw [kept]
      exact h.memory (by simpa [x] using hp)
    · show i < (e.lists.push [v]).size
      rw [Array.size_push]
      rw [queue_changeQueue] at hi
      split at hi
      · cases hi
        exact Nat.lt_succ_self _
      · exact Nat.lt_succ_of_lt (h.list hi)

/-- A listener that is told keeps queues furnished. -/
theorem tell (h : e.Furnished) (q : QueueRef) (l : Listener) : (Queues.tell q l e).2.Furnished := by
  cases l with
  | finish n => exact h.of_tables rfl rfl rfl
  | notify label error =>
    cases error with
    | none => exact h.of_tables rfl rfl rfl
    | some message => exact h.of_tables rfl rfl rfl

/-- What is done on any queue keeps queues furnished. -/
theorem aloof : Discipline.Aloof (fun _ => True) Furnished where
  tables _ _ _ h _ := h.of_tables rfl rfl rfl
  queue _ hf h := h.changeQueue _ hf.memory hf.determinations
  memory f _ h := h.same rfl (fun _ => rfl) (fun _ => rfl) (Nat.le_of_eq (by simp [Engine.changeMemory]))
    (Nat.le_refl _)
  base _ _ h := h.of_tables rfl rfl rfl
  determine v _ h := h.determine _ v
  tell _ _ _ h := h.tell _ _

/-- A new queue has a memory of its own. -/
theorem withQueue (h : e.Furnished) {x : Queue} (hx : x.IsNew) (hm : x.memory = e.memories.size) :
    (e.withQueue x).Furnished := by
  have memories : (e.withQueue x).memories.size = e.memories.size + 1 := by simp [Engine.withQueue]
  refine ⟨fun {q} hq => ?_, fun {q i} hi => ?_⟩
  · rw [memories, queue_withQueue]
    split
    · rw [hm]
      exact Nat.lt_succ_self _
    · rename_i hne
      have : q < e.queues.size + 1 := by simpa using hq
      exact Nat.lt_succ_of_lt (h.memory (Nat.lt_of_le_of_ne (Nat.le_of_lt_succ this) hne))
  · rw [queue_withQueue] at hi
    split at hi
    · rw [hx.determinations] at hi
      cases hi
    · exact h.list hi

/-- A queue that is replaced gives its memory and its list to the new one. -/
theorem replaced (h : e.Furnished) {q : QueueRef} {d : Option Delay} (hq : q < e.queues.size)
    (hr : e.Replaces q d e') : e'.Furnished := by
  have same (p : QueueRef) (hp : p ≠ e.queues.size) : (e'.queue p).memory = (e.queue p).memory ∧
      (e'.queue p).determinations = (e.queue p).determinations := by
    by_cases hpq : p = q
    · rw [hpq, hr.old]
      exact ⟨rfl, rfl⟩
    · rw [hr.other hpq hp]
      exact ⟨rfl, rfl⟩
  refine ⟨fun {p} hp => ?_, fun {p i} hi => ?_⟩
  · by_cases hnew : p = e.queues.size
    · rw [hnew, hr.new]
      exact Nat.lt_of_lt_of_le (h.memory hq) hr.books.memories
    · rw [(same p hnew).1]
      rw [hr.queues] at hp
      have old : p < e.queues.size := Nat.lt_of_le_of_ne (Nat.le_of_lt_succ hp) hnew
      exact Nat.lt_of_lt_of_le (h.memory old) hr.books.memories
  · rw [hr.books.lists]
    by_cases hnew : p = e.queues.size
    · rw [hnew, hr.new] at hi
      exact h.list (q := q) hi
    · exact h.list ((same p hnew).2.symm.trans hi)

/-- A new listener keeps queues furnished. -/
theorem onComplete (h : e.Furnished) (q : QueueRef) (l : Listener) :
    (Queues.onComplete q l e).2.Furnished := by
  show ((if (e.queue q).state.isEnd then _ else _ : Action Unit) e).2.Furnished
  split
  · exact h.tell q l
  · exact h.changeQueue q (fun _ => rfl) fun _ => rfl

end Furnished

end Engine

namespace Discipline.Furnished

open Engine (Furnished)

/-- Healthy engines in which all references of queues are in range. -/
abbrev furnished : Discipline :=
  healthy.also Furnished

/-- No command leaves a queue without its memory. -/
theorem hardy : Hardy Furnished where
  toAloof := Engine.Furnished.aloof
  aside h hq _ hm hl _ _ := h.of_tables hq hm hl
  make h hx hm := h.withQueue hx hm
  listen q _ h := h.onComplete q _
  replace h hq hr := h.replaced hq hr

/-- Queues stay furnished in all that an engine does. -/
theorem enduring : Enduring Furnished where
  toHardy := hardy
  register h _ := h.of_tables rfl rfl rfl
  hear q _ _ h := h.onComplete q _

end Discipline.Furnished

/-- Reachable engines are healthy, and what their queues refer to is there. -/
theorem Reachable.furnished {config : Config} {e : Engine} (h : Reachable (Host.create config []) e) :
    e.Healthy ∧ e.Furnished := by
  have new := Host.create_isNew config []
  refine Discipline.Furnished.enduring.inv_reachable
    ⟨(Host.create_orderly config).healthy, fun {q} hq => ?_, fun {q i} hi => ?_⟩ h
  · rw [new.queues] at hq
    cases hq
  · rw [new.queue_eq] at hi
    cases hi

/-! ## Isolation -/

namespace Engine

end Engine

end QueueScript
