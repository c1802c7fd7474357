import QueueScript.Proofs.Spawning
import QueueScript.Proofs.Structured.Turns
import QueueScript.Proofs.Upkeep.Basic

/-!
# One entry of a program

A queue that runs a program moves on: its pending entries change, some entries get notes, and new
entries come (`Engine.Moves`).  Between two entries it is ready for the next one (`Structured.Ready`).
Here is what one entry leads to, whatever its command is: if the interpreter puts something else in
the place of the command that does the same to the engine, then running the entry by the interpreter
is a step of the queue, and a beat if the entry fails.
-/

namespace QueueScript

namespace Engine

/-- A queue has moved on, and only the entries `X` of those that there were are not the same. -/
structure Moves (q : QueueRef) (X : List EntryRef) (e e' : Engine) : Prop extends Grows e e' where
  queue : e'.queue q =
    { e.queue q with pending := (e'.queue q).pending, last := (e'.queue q).last }
  entry {m : EntryRef} : m < e.entries.size → m ∉ X → e'.entry m = e.entry m
  code {m : EntryRef} : m < e.entries.size → (e'.entry m).code = (e.entry m).code
  blocks {m : EntryRef} : m < e.entries.size → (e'.entry m).blocks = (e.entry m).blocks
  residing {m : EntryRef} : m < e.entries.size → (e'.entry m).residing = (e.entry m).residing
  owner {m : EntryRef} : m < e.entries.size → (e'.entry m).owner = (e.entry m).owner
  registry : e'.registry = e.registry
  handoffs : e'.handoffs = e.handoffs
  kind (s : Nat) : (e'.script s).kind = (e.script s).kind
  journal : e.journal.length ≤ e'.journal.length

/-- A block at the head of a queue brings in no base entry among those that there were. -/
theorem grows_injected (e : Engine) (owner : EntryRef) (q : QueueRef) (hurried : Bool) {xs : List Entry}
    (hx : ∀ x ∈ xs, ∀ m ∈ x.inner, e.IsBase m) : e.Grows (e.injected owner q hurried xs) := by
  refine (e.grows_grown fun z hz => ?_).trans (grows_changeQueue _ q fun _ => rfl)
  obtain ⟨x, mem, rfl⟩ := List.mem_map.1 hz
  exact hx x mem

namespace Moves

variable {q : QueueRef} {X Y : List EntryRef} {e e' e'' : Engine}

/-- A queue has moved on by nothing. -/
theorem refl (q : QueueRef) (X : List EntryRef) (e : Engine) : e.Moves q X e where
  toGrows := .refl e
  queue := rfl
  entry _ _ := rfl
  code _ := rfl
  blocks _ := rfl
  residing _ := rfl
  owner _ := rfl
  registry := rfl
  handoffs := rfl
  kind _ := rfl
  journal := Nat.le_refl _

/-- Of the entries that change later, those that were there before count. -/
theorem trans (h : e.Moves q X e') (h' : e'.Moves q Y e'')
    (hY : ∀ m ∈ Y, m < e.entries.size → m ∈ X) : e.Moves q X e'' := by
  have size {m : EntryRef} (hm : m < e.entries.size) : m < e'.entries.size :=
    Nat.lt_of_lt_of_le hm h.entries
  exact {
    toGrows := h.toGrows.trans h'.toGrows
    queue := h'.queue.trans (congrArg (fun x : Queue =>
      { x with pending := (e''.queue q).pending, last := (e''.queue q).last }) h.queue)
    entry := fun hm hx => (h'.entry (size hm) fun hy => hx (hY _ hy hm)).trans (h.entry hm hx)
    code := fun hm => (h'.code (size hm)).trans (h.code hm)
    blocks := fun hm => (h'.blocks (size hm)).trans (h.blocks hm)
    residing := fun hm => (h'.residing (size hm)).trans (h.residing hm)
    owner := fun hm => (h'.owner (size hm)).trans (h.owner hm)
    registry := h'.registry.trans h.registry
    handoffs := h'.handoffs.trans h.handoffs
    kind := fun s => (h'.kind s).trans (h.kind s)
    journal := Nat.le_trans h.journal h'.journal }

/-- More entries may be said to have changed. -/
theorem mono (h : e.Moves q X e') (hXY : ∀ m ∈ X, m ∈ Y) : e.Moves q Y e' :=
  { h with entry := fun hm hy => h.entry hm fun hx => hy (hXY _ hx) }

/-- What is done apart moves the queue on by nothing. -/
theorem of_apart (h : e.Apart X e') (hq : q < e.queues.size) : e.Moves q X e' where
  toGrows := h.toGrows
  queue := by rw [h.queue hq]
  entry hm hx := h.entry hm hx
  code hm := h.code hm
  blocks hm := h.blocks hm
  residing hm := h.residing hm
  owner hm := h.owner hm
  registry := h.registry
  handoffs := h.handoffs
  kind := h.kind
  journal := h.journal.length_le

/-- The same queues and entries, and nothing else that is looked at but a longer history. -/
theorem of_tables (hq : e'.queues = e.queues) (hn : e'.entries = e.entries)
    (hs : e'.scripts = e.scripts) (hr : e'.registry = e.registry) (hh : e'.handoffs = e.handoffs)
    (hj : e.journal.length ≤ e'.journal.length) : e.Moves q X e' where
  toGrows := grows_of_tables hq hn hs
  queue := by rw [queue_congr hq]
  entry _ _ := entry_congr hn _
  code _ := by rw [entry_congr hn]
  blocks _ := by rw [entry_congr hn]
  residing _ := by rw [entry_congr hn]
  owner _ := by rw [entry_congr hn]
  registry := hr
  handoffs := hh
  kind s := by
    unfold Engine.script
    rw [hs]
  journal := hj

/-- No procedure comes up while a queue moves on. -/
theorem hasProcedure (h : e.Moves q X e') (hp : e'.HasProcedure) : e.HasProcedure := by
  obtain ⟨s, hs⟩ := hp
  exact ⟨s, (h.kind s).symm.trans hs⟩

/-- What is not about pending entries is kept on the queue. -/
theorem keep {α : Type} (h : e.Moves q X e') {g : Queue → α}
    (hg : ∀ (x : Queue) ps l, g { x with pending := ps, last := l } = g x) :
    g (e'.queue q) = g (e.queue q) := by
  rw [h.queue]
  exact hg _ _ _

/-- The pending entries change, and the entry that ran last. -/
theorem changeQueue (hq : q < e.queues.size) {f : Queue → Queue}
    (hf : f (e.queue q) =
      { e.queue q with pending := (f (e.queue q)).pending, last := (f (e.queue q)).last }) :
    e.Moves q X (e.changeQueue q f) where
  queues := Nat.le_of_eq (e.size_changeQueue q f).symm
  entries := Nat.le_refl _
  pace {p} _ := by
    rw [e.queue_changeQueue]
    split
    · rename_i hqp
      rw [← hqp.1, hf]
    · rfl
  kept := id
  base _ := id
  queue := by
    rw [e.queue_changeQueue_self hq]
    exact hf
  entry _ _ := rfl
  code _ := rfl
  blocks _ := rfl
  residing _ := rfl
  owner _ := rfl
  registry := rfl
  handoffs := rfl
  kind _ := rfl
  journal := Nat.le_refl _

/-- One of the entries `X` changes. -/
theorem changeEntry {n : EntryRef} (hn : n ∈ X) {f : Entry → Entry} (hs : Entry.Steadies f)
    (hr : ∀ x, (f x).residing = x.residing) (ho : ∀ x, (f x).owner = x.owner) (e : Engine) :
    e.Moves q X (e.changeEntry n f) where
  toGrows := e.grows_changeEntry n hs
  queue := rfl
  entry {m} _ hm := by
    refine e.entry_changeEntry_of_ne ?_ f
    rintro rfl
    exact hm hn
  code _ := e.entry_changeEntry_keep hs.code n _
  blocks _ := e.entry_changeEntry_keep hs.blocks n _
  residing _ := e.entry_changeEntry_keep hr n _
  owner _ := e.entry_changeEntry_keep ho n _
  registry := rfl
  handoffs := rfl
  kind _ := rfl
  journal := Nat.le_refl _

/-- A block is put at the head of the queue. -/
theorem injected (hq : q < e.queues.size) (owner : EntryRef) (hurried : Bool) {xs : List Entry}
    (hx : ∀ x ∈ xs, ∀ m ∈ x.inner, e.IsBase m) : e.Moves q X (e.injected owner q hurried xs) where
  toGrows := e.grows_injected owner q hurried hx
  queue := by
    unfold Engine.injected
    rw [e.queue_put q _ _ hq]
  entry hm _ := e.entry_put_of_lt q _ _ hm
  code hm := congrArg Entry.code (e.entry_put_of_lt q _ _ hm)
  blocks hm := congrArg Entry.blocks (e.entry_put_of_lt q _ _ hm)
  residing hm := congrArg Entry.residing (e.entry_put_of_lt q _ _ hm)
  owner hm := congrArg Entry.owner (e.entry_put_of_lt q _ _ hm)
  registry := rfl
  handoffs := rfl
  kind _ := rfl
  journal := Nat.le_refl _

end Moves

section Begun

variable (e : Engine) {q : QueueRef} (hq : q < e.queues.size) (n : EntryRef) (following : List EntryRef)

include hq

/-- A queue that begins an entry moves on. -/
theorem moves_begun (X : List EntryRef) : e.Moves q X (e.begun q n following) where
  queues := by
    unfold begun
    simp
  entries := Nat.le_refl _
  pace _ := e.queue_begun_keep q n following (g := Queue.pace) (fun _ _ => rfl) (fun _ _ => rfl) _
  kept := id
  base _ := id
  queue := by rw [e.queue_begun hq]
  entry _ _ := rfl
  code _ := rfl
  blocks _ := rfl
  residing _ := rfl
  owner _ := rfl
  registry := rfl
  handoffs := rfl
  kind _ := rfl
  journal := Nat.le_succ _

omit hq in
/-- An engine is healthy when a queue begins an entry. -/
theorem healthy_begun (he : e.Healthy) (hn : e.Live n)
    (hf : ∀ m ∈ following, e.Live m) : (e.begun q n following).Healthy := by
  let x := e.changeQueue q ({ · with pending := following })
  have first : x.Healthy := he.keeps (e.keeps_changeQueue q _)
    (he.tidy.changeQueue q (fun m hm => .inr (hf m hm)) (fun _ h => .inl h) (fun _ h => .inl h)
      fun _ h => .inl h)
  have noted := Discipline.Healthy.note first
    (.began q n (x.queue q) ((x.queue q).last.map x.entry))
  exact (Discipline.Healthy.last noted.1 q hn).1

end Begun

end Engine

namespace Structured

variable {P : Prop} {fuel : Nat} {seconds : Option Float} {q : QueueRef} {n : EntryRef}
  {X following : List EntryRef} {e e' : Engine} {α : Type}

/-! ## Between two entries -/

/-- An instant queue is the only live one, nobody listens to it, and it is about to take its next entry.
If there are procedures, then `P` says so. -/
structure Ready (P : Prop) (q : QueueRef) (e : Engine) : Prop where
  healthy : e.Healthy
  procedures : e.HasProcedure → P
  queue : q < e.queues.size
  running : (e.queue q).state = .running
  instant : (e.queue q).pace = .instant
  current : (e.queue q).replacedBy = none
  listeners : (e.queue q).listeners = []
  free : Drive.isWaiting e q = false
  registry : ∃ key, e.registry = [(key, q)]
  handoffs : e.handoffs = []

/-- A queue that has moved on is ready again, if it waits for nothing. -/
theorem Ready.moves (h : Ready P q e) (hm : e.Moves q X e') (hh : e'.Healthy)
    (hfree : Drive.isWaiting e' q = false) : Ready P q e' where
  healthy := hh
  procedures hp := h.procedures (hm.hasProcedure hp)
  queue := Nat.lt_of_lt_of_le h.queue hm.queues
  running := (hm.keep (g := Queue.state) fun _ _ _ => rfl).trans h.running
  instant := (hm.keep (g := Queue.pace) fun _ _ _ => rfl).trans h.instant
  current := (hm.keep (g := Queue.replacedBy) fun _ _ _ => rfl).trans h.current
  listeners := (hm.keep (g := Queue.listeners) fun _ _ _ => rfl).trans h.listeners
  free := hfree
  registry := by
    rw [hm.registry]
    exact h.registry
  handoffs := hm.handoffs.trans h.handoffs

/-- A queue that is ready is the only live one. -/
theorem Ready.alone (h : Ready P q e) : Alone q e :=
  ⟨h.healthy.tidy, h.running, h.instant, h.registry, h.handoffs⟩

/-! ## Running one entry -/

/-- The engine when the queue is back from an entry, and the next beat has begun if that failed. -/
def settled (seconds : Option Float) (q : QueueRef) (n : EntryRef) (ran : Bool) (x : Engine) : Engine :=
  let y : Engine := { x with journal := .returned q n ran :: x.journal }
  if ran then y else Heartbeat.opened y seconds

/-- A queue that comes back from an entry moves on. -/
theorem moves_settled (ran : Bool) {x : Engine} (hx : x.handoffs = []) :
    x.Moves q X (settled seconds q n ran x) := by
  cases ran with
  | true => exact .of_tables rfl rfl rfl rfl rfl (Nat.le_succ _)
  | false => exact .of_tables rfl rfl rfl rfl hx.symm (Nat.le_succ _)

/-- Going on with the next beat changes neither queues nor entries. -/
theorem settled_tables (ran : Bool) (x : Engine) :
    (settled seconds q n ran x).queues = x.queues ∧ (settled seconds q n ran x).entries = x.entries ∧
      x.Keeps (settled seconds q n ran x) := by
  cases ran with
  | true => exact ⟨rfl, rfl, Engine.keeps_of_tables rfl rfl⟩
  | false => exact ⟨rfl, rfl, Engine.keeps_of_tables rfl rfl⟩

/-- An entry is attended to when its run ends. -/
theorem attend_eq {run : Action (Bool × α)} {ran : Bool} {a : α} {x : Engine}
    (h : run (e.begun q n following) = (.ok (ran, a), x)) :
    attend seconds q n following run e = (.ok a, settled seconds q n ran x) := by
  have rest : attend seconds q n following run e = (run >>= fun r => do
      Drive.note (.returned q n r.1)
      unless r.1 do
        Action.change (Heartbeat.opened · seconds)
      pure r.2) (e.begun q n following) := rfl
  rw [rest, Action.bind_ok h]
  cases ran with
  | true => rfl
  | false => rfl

/-- An entry whose run fails is not come back from. -/
theorem attend_error {run : Action (Bool × α)} {f : Failure} {x : Engine}
    (h : run (e.begun q n following) = (.error f, x)) :
    attend seconds q n following run e = (.error f, x) := by
  have rest : attend seconds q n following run e = (run >>= fun r => do
      Drive.note (.returned q n r.1)
      unless r.1 do
        Action.change (Heartbeat.opened · seconds)
      pure r.2) (e.begun q n following) := rfl
  rw [rest, Action.bind_error h]

/-- A queue that is ready takes its first entry and runs it. -/
theorem step_eq {calls : Calls} (h : Ready P q e) (hp : (e.queue q).pending = n :: following) {ran : Bool}
    {x : Engine} (hx : Executor.execute calls n (e.begun q n following) = (.ok ran, x))
    (hpace : (x.queue q).pace = .instant) :
    Drive.step calls q e = (.ok ran, { x with journal := .returned q n ran :: x.journal }) := by
  have active : Drive.isActive e q = true := by
    unfold Drive.isActive
    rw [h.running, h.current]
    rfl
  let y := e.changeQueue q ({ · with pending := following })
  have ran' : Drive.runEntry calls q n y =
      (.ok ran, { x with journal := .returned q n ran :: x.journal }) := Action.bind_ok hx
  rw [Drive.step_of_pending active h.free hp, Action.bind_ok ran']
  exact Drive.goesOnAfter_of_instant (e := { x with journal := .returned q n ran :: x.journal }) hpace ran

/-- From `e` on, the queue has taken its turns up to `e'`, and is ready again. -/
structure Advances (P : Prop) (fuel : Nat) (seconds : Option Float) (q : QueueRef) (X : List EntryRef)
    (e e' : Engine) : Prop where
  leads : Leads fuel seconds q e e'
  ready : Ready P q e'
  moves : e.Moves q X e'

/-- A queue advances further. -/
theorem Advances.trans {Y : List EntryRef} {e'' : Engine} (h : Advances P fuel seconds q X e e')
    (h' : Advances P fuel seconds q Y e' e'') (hY : ∀ m ∈ Y, m < e.entries.size → m ∈ X) :
    Advances P fuel seconds q X e e'' :=
  ⟨h.leads.trans h'.leads, h'.ready, h.moves.trans h'.moves hY⟩

/-- If the interpreter does the same as the entry, it leads to where the queue gets by running it. -/
theorem advances_settled (h : Ready P q e) (hp : (e.queue q).pending = n :: following) {ran : Bool}
    {x : Engine} (hx : Executor.execute (Drive.calls fuel) n (e.begun q n following) = (.ok ran, x))
    (hm : (e.begun q n following).Moves q X x) (hh : x.Healthy) (hlast : (x.queue q).last = some n)
    (hdone : (x.entry n).isFinished = true) :
    Advances P fuel seconds q X e (settled seconds q n ran x) := by
  have moved : e.Moves q X x := (e.moves_begun h.queue n following X).trans hm fun _ h _ => h
  have noted : x.Healthy → Engine.Healthy { x with journal := .returned q n ran :: x.journal } :=
    fun hh => (Discipline.Healthy.note hh _).1
  have free (y : Engine) (hq : y.queue q = x.queue q) (hn : y.entry n = x.entry n) :
      Drive.isWaiting y q = false := by
    unfold Drive.isWaiting
    rw [hq, hlast]
    show (y.entry n).isAwaited = false
    unfold Entry.isAwaited
    rw [hn, hdone, Bool.not_true, Bool.and_false]
  have ready := h.moves moved hh (free x rfl rfl)
  have back : Ready P q { x with journal := .returned q n ran :: x.journal } :=
    ready.moves (.of_tables (X := []) rfl rfl rfl rfl rfl (Nat.le_succ _)) (noted hh) (free _ rfl rfl)
  have grows : e.journal.length < (Step.returned q n ran :: x.journal).length :=
    Nat.lt_succ_of_le moved.journal
  have step := step_eq h hp hx ready.instant
  have settles : x.Moves q X (settled seconds q n ran x) := moves_settled ran ready.handoffs
  obtain ⟨queues, entries, keeps⟩ : (settled seconds q n ran x).queues = x.queues ∧
      (settled seconds q n ran x).entries = x.entries ∧ x.Keeps (settled seconds q n ran x) :=
    settled_tables ran x
  refine ⟨?_, ready.moves settles ?_ (free _ (Engine.queue_congr queues q) (Engine.entry_congr entries n)),
    moved.trans settles fun _ h _ => h⟩
  · cases ran with
    | true => exact .step step grows (.refl _)
    | false => exact .beat step grows back.alone (.refl _)
  · refine hh.keeps keeps ?_
    cases ran with
    | true => exact back.healthy.tidy
    | false => exact Heartbeat.opened_tidy back.healthy.tidy seconds

end Structured

end QueueScript
