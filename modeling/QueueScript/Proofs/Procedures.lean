import QueueScript.Proofs.FreshIds
import QueueScript.Proofs.Structured.Apart

/-!
# Procedures keep to themselves

A procedure runs on a queue of its own, and only commands that touch nothing but their queue and its
entries may run there.  So all queues and entries that there were when it was called stay as they are,
and when it is over its queue is out of the registry again (`isolated_calls`).  Procedures call each
other, so the proof goes from one level of nesting to the next: inside a procedure, those that it calls
are known to keep to themselves.

For the registry the run must not break off in the middle: a failure of an entry is reported where the
entry is run, and the queue of a procedure has no listeners that could fail.
-/

namespace QueueScript

/-! ## The registry -/

namespace Keyed

variable {α : Type} {t : Keyed α} {k : String} {a : α}

/-- Putting a key again that stands last changes nothing if the value is the same. -/
theorem put_concat (h : k ∉ t.keys) : put (t ++ [(k, a)]) k a = t ++ [(k, a)] := by
  induction t with
  | nil => simp [put]
  | cons p rest ih =>
    obtain ⟨hp, hrest⟩ := List.ne_and_not_mem_of_not_mem_cons h
    have hne : (p.1 == k) = false := by simpa using Ne.symm hp
    show put (p :: (rest ++ [(k, a)])) k a = _
    unfold put
    rw [hne, ih hrest]
    rfl

/-- Erasing a new key that stands last leaves the table as it was. -/
theorem erase_concat (h : k ∉ t.keys) : erase (t ++ [(k, a)]) k = t := by
  have kept : t.filter (·.1 != k) = t := by
    refine List.filter_eq_self.2 fun p hp => ?_
    have : p.1 ≠ k := fun hk => h (hk ▸ List.mem_map_of_mem hp)
    simpa using this
  unfold erase
  rw [List.filter_append, kept]
  simp

/-- A key that is not in the table has no value. -/
theorem get?_of_not_mem (h : k ∉ t.keys) : t.get? k = none := by
  have : t.has k = false := by
    rw [Bool.eq_false_iff]
    exact fun hk => h ((Keyed.has_iff_mem_keys t k).1 hk)
  rw [has_eq_isSome] at this
  simpa using this

/-- A new key that stands last has its value. -/
theorem get?_concat (h : k ∉ t.keys) : get? (t ++ [(k, a)]) k = some a := by
  rw [← put_of_not_mem h, get?_put_self]

end Keyed

namespace Queues

/-- The engine when a queue was taken out of the registry. -/
def unregistered (q : QueueRef) (e : Engine) : Engine :=
  let key := Text.lower (e.queue q).id
  if e.registry.get? key = some q then e.setRegistry (e.registry.erase key) else e

/-- Nothing but the registry and what it has been is touched. -/
theorem unregistered_books (q : QueueRef) (e : Engine) :
    ∃ registry registries, unregistered q e = { e with registry, registries } := by
  unfold unregistered
  dsimp only
  split
  · exact ⟨_, _, rfl⟩
  · exact ⟨e.registry, e.registries, rfl⟩

section Kept

variable (q : QueueRef) (e : Engine)

@[simp] theorem queues_unregistered : (unregistered q e).queues = e.queues := by
  obtain ⟨_, _, books⟩ := unregistered_books q e
  rw [books]

@[simp] theorem entries_unregistered : (unregistered q e).entries = e.entries := by
  obtain ⟨_, _, books⟩ := unregistered_books q e
  rw [books]

@[simp] theorem lists_unregistered : (unregistered q e).lists = e.lists := by
  obtain ⟨_, _, books⟩ := unregistered_books q e
  rw [books]

@[simp] theorem fired_unregistered : (unregistered q e).fired = e.fired := by
  obtain ⟨_, _, books⟩ := unregistered_books q e
  rw [books]

@[simp] theorem journal_unregistered : (unregistered q e).journal = e.journal := by
  obtain ⟨_, _, books⟩ := unregistered_books q e
  rw [books]

/-- A queue that is taken out of the registry stays as it is, and so do all others. -/
@[simp]
theorem queue_unregistered (p : QueueRef) : (unregistered q e).queue p = e.queue p :=
  Engine.queue_congr (queues_unregistered q e) p

end Kept

/-- A queue is taken out of the registry only if its id is its own there. -/
theorem registry_unregistered (q : QueueRef) (e : Engine) :
    (unregistered q e).registry =
      if e.registry.get? (Text.lower (e.queue q).id) = some q then
        e.registry.erase (Text.lower (e.queue q).id)
      else e.registry := by
  unfold unregistered
  dsimp only
  split <;> rfl

/-- A queue that ends leaves the registry, shows a trace, and tells its listeners. -/
theorem complete_eq (q : QueueRef) (e : Engine) :
    ∃ events, complete q e = Action.each (tell q) ((unregistered q e).queue q).listeners
      (Engine.changeQueue { unregistered q e with events } q ({ · with listeners := [] })) := by
  let x := unregistered q e
  let scope : Scope := { queue := some (x.queue q).id }
  obtain ⟨events, h⟩ := x.emit_eq (.trace ("Completed queue '" ++ (x.queue q).id ++ "' (" ++
    (x.queue q).state.name ++ ")") scope) scope
  refine ⟨events, ?_⟩
  rw [← h]
  rfl

/-- A queue that has not ended is changed and ends. -/
theorem end_eq {q : QueueRef} {e : Engine} (h : (e.queue q).state.isEnd = false) (f : Queue → Queue) :
    (do
      unless (← Action.queue q).state.isEnd do
        Action.changeQueue q f
        complete q : Action Unit) e = complete q (e.changeQueue q f) := by
  show (if (e.queue q).state.isEnd then pure () else _ : Action Unit) e = _
  rw [h]
  rfl

end Queues

/-! ## The queue of a procedure -/

/-- What may run on a queue: commands of one kind.  Either the queue runs a procedure, or all commands of
the kind touch nothing but their queue and its entries. -/
structure Charter where
  kind : Compiled → Prop
  isProcedural : Bool
  branches {c c' : Compiled} : kind c → c.Encloses c' → kind c'
  mark {catalogue : Catalogue} : catalogue.Sound → ∀ script number,
    kind (buildFlat catalogue script "repeat" [Builtin.loopMark] number).1
  isLocal {c : Compiled} : isProcedural = false → kind c → c.handler.behaviour.isLocal = true

/-- Any command may run in a procedure if it is not refused. -/
def Charter.procedure : Charter where
  kind _ := True
  isProcedural := true
  branches _ _ := trivial
  mark _ _ _ := trivial
  isLocal h := nomatch h

/-- The change of a queue touches only its entries, what they determined, and how far it has come. -/
def Queue.Inward (f : Queue → Queue) : Prop :=
  ∀ z, ∃ pending last determinations delay state listeners,
    f z = { z with pending, last, determinations, delay, state, listeners }

namespace Engine

/-- The entry was made after the procedure on the queue `p` was called on the engine `b`, its command may
run there, and it is on no other queue. -/
structure Inner (K : Charter) (b : Engine) (p : QueueRef) (x : Engine) (n : EntryRef) : Prop where
  old : b.entries.size ≤ n
  live : x.Live n
  kind : K.kind (x.entry n).code
  residing {q : QueueRef} : (x.entry n).residing = some q → q = p

/-- The entry is one of the procedure on the queue `p`, and so are its owner, the owner of that, and so
on. -/
def Own (K : Charter) (b : Engine) (p : QueueRef) (x : Engine) (n : EntryRef) : Prop :=
  ∃ S : EntryRef → Prop, S n ∧ ∀ {a : EntryRef}, S a →
    b.Inner K p x a ∧ ∀ c, (x.entry a).owner = some c → S c

namespace Own

variable {K : Charter} {b x y : Engine} {p : QueueRef} {n : EntryRef}

/-- An entry of the queue of a procedure is one that the procedure made. -/
theorem inner (h : b.Own K p x n) : b.Inner K p x n := by
  obtain ⟨S, hn, hS⟩ := h
  exact (hS hn).1

/-- The owner of an entry of the queue is on the queue too. -/
theorem owner (h : b.Own K p x n) {m : EntryRef} (hm : (x.entry n).owner = some m) : b.Own K p x m := by
  obtain ⟨S, hn, hS⟩ := h
  exact ⟨S, (hS hn).2 m hm, hS⟩

/-- Entries of the procedure stay so when they are put on its queue or get owners among them. -/
theorem mono (h : b.Own K p x n) (hlive : ∀ {a}, x.Live a → y.Live a)
    (hcode : ∀ {a}, b.Own K p x a → (y.entry a).code = (x.entry a).code)
    (hr : ∀ {a}, b.Own K p x a →
      (y.entry a).residing = (x.entry a).residing ∨ (y.entry a).residing = some p)
    (ho : ∀ {a c}, b.Own K p x a → (y.entry a).owner = some c →
      (x.entry a).owner = some c ∨ b.Own K p x c) : b.Own K p y n := by
  refine ⟨fun a => b.Own K p x a, h, fun {a} ha =>
    ⟨⟨ha.inner.old, ?_, ?_, fun hq => ?_⟩, fun c hc => ?_⟩⟩
  · exact hlive ha.inner.live
  · rw [hcode ha]
    exact ha.inner.kind
  · rcases hr ha with heq | heq
    · exact ha.inner.residing (heq ▸ hq)
    · exact (Option.some.inj (heq.symm.trans hq)).symm
  · exact (ho ha hc).elim (fun hc => ha.owner hc) id

end Own

/-- How the queue of a procedure is registered while it runs. -/
def ticket (x : Engine) (p : QueueRef) : Keyed QueueRef :=
  if (x.queue p).state = .running then [(Text.lower (x.queue p).id, p)] else []

/-- The engine while a procedure runs on the queue `p`, as seen from the engine `b` on which it was
called: all there was is as it was. -/
structure Alongside (K : Charter) (b : Engine) (p : QueueRef) (x : Engine) : Prop
    extends Keeps b x, Grows b x where
  old : b.queues.size ≤ p
  here : p < x.queues.size
  queue {m : QueueRef} : m < b.queues.size → x.queue m = b.queue m
  entry {m : EntryRef} : m < b.entries.size → x.entry m = b.entry m
  kind (s : Nat) : (x.script s).kind = (b.script s).kind
  handoffs : x.handoffs = b.handoffs
  journal : b.Continues b.queues.size x
  procedural : (x.queue p).isProcedural = K.isProcedural
  replacedBy : (x.queue p).replacedBy = none
  listeners : (x.queue p).listeners = []
  free : Text.lower (x.queue p).id ∉ b.registry.keys
  registry : x.registry = b.registry ++ x.ticket p
  pending {n : EntryRef} : n ∈ (x.queue p).pending → b.Own K p x n ∧ (x.entry n).residing = some p

/-- Keeping base entries does not change the kind of a script. -/
theorem kind_keepBase (x : Engine) (n : Nat) (ns : List EntryRef) (s : Nat) :
    ((x.keepBase n ns).script s).kind = (x.script s).kind := by
  obtain ⟨base, h⟩ := x.script_keepBase n s ns
  rw [h]

namespace Alongside

variable {K : Charter} {b x y : Engine} {p : QueueRef}

/-- When the queue has ended, nothing is left of the run. -/
theorem apart (h : b.Alongside K p x) (hend : (x.queue p).state.isEnd = true) : b.Apart [] x where
  toKeeps := h.toKeeps
  toGrows := h.toGrows
  queue := h.queue
  entry hm _ := h.entry hm
  residing hm := by rw [h.entry hm]
  owner hm := by rw [h.entry hm]
  loop hm := by rw [h.entry hm]
  registry := by
    have hrun : (x.queue p).state ≠ .running := fun hr => by rw [hr] at hend; cases hend
    rw [h.registry, ticket, if_neg hrun, List.append_nil]
  handoffs := h.handoffs
  kind := h.kind
  journal := h.journal

/-- The queue of a procedure is not replaced. -/
theorem follow_eq (h : b.Alongside K p x) : x.follow p = p :=
  x.follow_self h.replacedBy

/-- Something else than queues and entries was changed. -/
theorem aside (h : b.Alongside K p x) (hk : x.Keeps y) (hg : x.Grows y) (hq : y.queues = x.queues)
    (hn : y.entries = x.entries) (hkind : ∀ s, (y.script s).kind = (x.script s).kind)
    (hr : y.registry = x.registry) (hh : y.handoffs = x.handoffs)
    (hj : x.Continues b.queues.size y) : b.Alongside K p y := by
  have queue (m : QueueRef) : y.queue m = x.queue m := by
    unfold Engine.queue
    rw [hq]
  have entry (m : EntryRef) : y.entry m = x.entry m := by
    unfold Engine.entry
    rw [hn]
  exact {
    toKeeps := h.toKeeps.trans hk
    toGrows := h.toGrows.trans hg
    old := h.old
    here := hq ▸ h.here
    queue := fun hm => (queue _).trans (h.queue hm)
    entry := fun hm => (entry _).trans (h.entry hm)
    kind := fun s => (hkind s).trans (h.kind s)
    handoffs := hh.trans h.handoffs
    journal := h.journal.trans hj (Nat.le_refl _)
    procedural := by rw [queue]; exact h.procedural
    replacedBy := by rw [queue]; exact h.replacedBy
    listeners := by rw [queue]; exact h.listeners
    free := by rw [queue]; exact h.free
    registry := by rw [hr, h.registry, ticket, ticket, queue]
    pending := fun hm => by
      rw [queue] at hm
      rw [entry]
      obtain ⟨hown, hres⟩ := h.pending hm
      refine ⟨hown.mono hg.live (fun _ => ?_) (fun _ => .inl ?_) fun _ hc => .inl ?_,
        hres⟩
      · rw [entry]
      · rw [entry]
      · rwa [entry] at hc }

/-- An entry of the procedure was changed. -/
theorem changeEntry (h : b.Alongside K p x) {n : EntryRef} (hn : b.Own K p x n) {f : Entry → Entry}
    (hs : Entry.Steadies f) (hk : x.Keeps (x.changeEntry n f))
    (hr : (f (x.entry n)).residing = (x.entry n).residing ∨ (f (x.entry n)).residing = some p)
    (ho : ∀ m, (f (x.entry n)).owner = some m → (x.entry n).owner = some m ∨ b.Own K p x m) :
    b.Alongside K p (x.changeEntry n f) ∧ (∀ {m}, b.Own K p x m → b.Own K p (x.changeEntry n f) m) ∧
      ∀ m, ((x.changeEntry n f).entry m).residing = (x.entry m).residing ∨
        ((x.changeEntry n f).entry m).residing = some p := by
  have residing (m : EntryRef) : ((x.changeEntry n f).entry m).residing = (x.entry m).residing ∨
      ((x.changeEntry n f).entry m).residing = some p := by
    rw [entry_changeEntry]
    split
    · rename_i hm
      rw [← hm.1]
      exact hr
    · exact .inl rfl
  have own {m : EntryRef} (hm : b.Own K p x m) : b.Own K p (x.changeEntry n f) m := by
    refine hm.mono (x.grows_changeEntry n hs).live (fun ha => hk.code ha.inner.live.1)
      (fun _ => residing _)
      fun {a c} _ hc => ?_
    rw [entry_changeEntry] at hc
    split at hc
    · rename_i ha
      rw [← ha.1] at hc ⊢
      exact ho c hc
    · exact .inl hc
  refine ⟨{ h with
    toKeeps := h.toKeeps.trans hk
    toGrows := h.toGrows.trans (x.grows_changeEntry n hs)
    entry := fun {m} hm => ?_
    pending := fun hm => ?_ }, own, residing⟩
  · rw [x.entry_changeEntry_of_ne (Nat.ne_of_gt (Nat.lt_of_lt_of_le hm hn.inner.old))]
    exact h.entry hm
  · obtain ⟨hi, hres⟩ := h.pending hm
    exact ⟨own hi, (residing _).elim (fun h => h.trans hres) id⟩

/-- Further entries leave the entries of the queue its own. -/
theorem own_grown {n : EntryRef} (hn : b.Own K p x n) {xs : List Entry} {ns : List EntryRef}
    (hx : x.Brings xs ns) : b.Own K p (x.grown xs) n := by
  refine hn.mono hx.grows.live (fun ha => ?_) (fun {a} ha => .inl ?_) fun {a c} ha hc => .inl ?_
  · rw [x.entry_grown_of_lt ha.inner.live.1]
  · rw [x.entry_grown_of_lt ha.inner.live.1]
  · rwa [x.entry_grown_of_lt ha.inner.live.1] at hc

/-- Entries were made while the procedure ran. -/
theorem grown (h : b.Alongside K p x) {xs : List Entry} {ns : List EntryRef} (hx : x.Brings xs ns)
    (hc : ∀ z ∈ xs, z.code.Sound) : b.Alongside K p (x.grown xs) := by
  refine { h with
    toKeeps := h.toKeeps.trans (x.unmoved_grown hc).toKeeps
    toGrows := h.toGrows.trans hx.grows
    entry := fun {m} hm => ?_, pending := fun hm => ?_ }
  · rw [x.entry_grown_of_lt (Nat.lt_of_lt_of_le hm h.size)]
    exact h.entry hm
  · obtain ⟨hi, hres⟩ := h.pending hm
    rw [x.entry_grown_of_lt hi.inner.live.1]
    exact ⟨own_grown hi hx, hres⟩

/-- Another procedure was called and is over. -/
theorem call (h : b.Alongside K p x) (ha : x.Apart [] y) :
    b.Alongside K p y ∧ (∀ {n}, b.Own K p x n → b.Own K p y n) ∧
      ∀ {m}, m < x.entries.size → (y.entry m).residing = (x.entry m).residing := by
  have entry {m : EntryRef} (hm : m < x.entries.size) : y.entry m = x.entry m :=
    ha.entry hm List.not_mem_nil
  have queue : y.queue p = x.queue p := ha.queue h.here
  have own {n : EntryRef} (hn : b.Own K p x n) : b.Own K p y n := by
    refine hn.mono ha.live (fun hi => ha.code hi.inner.live.1) (fun hi => .inl ?_) fun hi hc => .inl ?_
    · rw [entry hi.inner.live.1]
    · rwa [entry hi.inner.live.1] at hc
  refine ⟨?_, own, fun hm => by rw [entry hm]⟩
  exact {
    toKeeps := h.toKeeps.trans ha.toKeeps
    toGrows := h.toGrows.trans ha.toGrows
    old := h.old
    here := Nat.lt_of_lt_of_le h.here ha.queues
    queue := fun hm => (ha.queue (Nat.lt_of_lt_of_le hm (Nat.le_trans h.old (Nat.le_of_lt h.here)))).trans
      (h.queue hm)
    entry := fun hm => (entry (Nat.lt_of_lt_of_le hm h.size)).trans (h.entry hm)
    kind := fun s => (ha.kind s).trans (h.kind s)
    handoffs := ha.handoffs.trans h.handoffs
    journal := h.journal.trans ha.journal (Nat.le_trans h.old (Nat.le_of_lt h.here))
    procedural := by rw [queue]; exact h.procedural
    replacedBy := by rw [queue]; exact h.replacedBy
    listeners := by rw [queue]; exact h.listeners
    free := by rw [queue]; exact h.free
    registry := by rw [ha.registry, h.registry, ticket, ticket, queue]
    pending := fun hm => by
      rw [queue] at hm
      obtain ⟨hi, hres⟩ := h.pending hm
      rw [entry hi.inner.live.1]
      exact ⟨own hi, hres⟩ }

/-- The queue of the procedure was changed, and the registry along with it. -/
theorem requeue (h : b.Alongside K p x) {f : Queue → Queue} (hf : Queue.Inward f)
    (hl : (f (x.queue p)).listeners = [])
    (hp : ∀ n ∈ (f (x.queue p)).pending,
      n ∈ (x.queue p).pending ∨ b.Own K p x n ∧ (x.entry n).residing = some p)
    {registry : Keyed QueueRef} {registries : List (Keyed QueueRef)} (events : List Event)
    (hr : registry = b.registry ++
      if (f (x.queue p)).state = .running then [(Text.lower (x.queue p).id, p)] else []) :
    b.Alongside K p { x.changeQueue p f with registry, registries, events } := by
  have here : (x.changeQueue p f).queue p = f (x.queue p) := x.queue_changeQueue_self h.here f
  have keep {α : Type} {g : Queue → α} (hg : ∀ z, g (f z) = g z) :
      g ((x.changeQueue p f).queue p) = g (x.queue p) := by
    rw [here, hg]
  have id : ((x.changeQueue p f).queue p).id = (x.queue p).id :=
    keep fun z => by obtain ⟨_, _, _, _, _, _, h⟩ := hf z; rw [h]
  have keeps : x.Keeps { x.changeQueue p f with registry, registries, events } :=
    keeps_of_tables rfl rfl
  have grows : x.Grows { x.changeQueue p f with registry, registries, events } := by
    refine (x.grows_changeQueue p fun z => ?_).trans (grows_of_tables rfl rfl rfl)
    obtain ⟨_, _, _, _, _, _, h⟩ := hf z
    rw [h]
  exact {
    toKeeps := h.toKeeps.trans keeps
    toGrows := h.toGrows.trans grows
    old := h.old
    here := by simpa using h.here
    queue := fun {m} hm => by
      refine (x.queue_changeQueue_of_ne ?_ f).trans (h.queue hm)
      exact Nat.ne_of_gt (Nat.lt_of_lt_of_le hm h.old)
    entry := h.entry
    kind := h.kind
    handoffs := h.handoffs
    journal := h.journal
    procedural := (keep (g := Queue.isProcedural) fun z => by
      obtain ⟨_, _, _, _, _, _, h⟩ := hf z
      rw [h]).trans h.procedural
    replacedBy := (keep (g := Queue.replacedBy) fun z => by
      obtain ⟨_, _, _, _, _, _, h⟩ := hf z
      rw [h]).trans h.replacedBy
    listeners := (congrArg Queue.listeners here).trans hl
    free := by
      show Text.lower ((x.changeQueue p f).queue p).id ∉ _
      rw [id]
      exact h.free
    registry := by
      show registry = b.registry ++
        if ((x.changeQueue p f).queue p).state = .running then
          [(Text.lower ((x.changeQueue p f).queue p).id, p)] else []
      rw [hr, id, here]
    pending := fun {n} hn => by
      have hn : n ∈ (f (x.queue p)).pending := by
        rw [← here]
        exact hn
      obtain ⟨hown, hres⟩ : b.Own K p x n ∧ (x.entry n).residing = some p :=
        (hp n hn).elim (fun hn => h.pending hn) fun h => h
      exact ⟨hown.mono grows.live (fun _ => rfl) (fun _ => .inl rfl) fun _ hc => .inl hc, hres⟩ }

/-- The queue of the procedure was changed, and it runs or not as before. -/
theorem changeQueue (h : b.Alongside K p x) {f : Queue → Queue} (hf : Queue.Inward f)
    (hs : ∀ z, (f z).state = z.state) (hl : (f (x.queue p)).listeners = [])
    (hp : ∀ n ∈ (f (x.queue p)).pending,
      n ∈ (x.queue p).pending ∨ b.Own K p x n ∧ (x.entry n).residing = some p) :
    b.Alongside K p (x.changeQueue p f) := by
  have registry : x.registry = b.registry ++
      if (f (x.queue p)).state = .running then [(Text.lower (x.queue p).id, p)] else [] := by
    rw [h.registry, ticket, hs]
  exact h.requeue hf hl hp x.events registry

/-- The queue of the procedure ends: it is taken out of the registry, and there is nobody to tell. -/
theorem ends (h : b.Alongside K p x) {f : Queue → Queue} (hf : Queue.Inward f)
    (hs : ∀ z, (f z).state.isEnd = true) (hl : ∀ z, (f z).listeners = z.listeners)
    (hp : ∀ z, ∀ n ∈ (f z).pending, n ∈ z.pending) :
    ∃ y, (do
        unless (← Action.queue p).state.isEnd do
          Action.changeQueue p f
          Queues.complete p : Action Unit) x = (.ok (), y) ∧
      b.Alongside K p y ∧ (y.queue p).state.isEnd = true ∧ y.entries = x.entries := by
  show ∃ y, (if (x.queue p).state.isEnd then pure () else
    Action.changeQueue p f >>= fun _ => Queues.complete p : Action Unit) x = (.ok (), y) ∧ _
  split
  · rename_i hend
    exact ⟨x, rfl, h, hend, rfl⟩
  let x₁ := x.changeQueue p f
  have here : x₁.queue p = f (x.queue p) := x.queue_changeQueue_self h.here f
  have hrun : (f (x.queue p)).state ≠ .running := fun hr => by
    have := hs (x.queue p)
    rw [hr] at this
    cases this
  have id : (x₁.queue p).id = (x.queue p).id := by
    obtain ⟨_, _, _, _, _, _, heq⟩ := hf (x.queue p)
    rw [here, heq]
  obtain ⟨registries, registry⟩ : ∃ registries,
      Queues.unregistered p x₁ = { x₁ with registry := b.registry, registries } := by
    -- A queue that is running is taken out, and one that was never started is not in.
    have hreg : x₁.registry = b.registry ++ x.ticket p := h.registry
    unfold Queues.unregistered
    rw [id]
    by_cases hrunning : (x.queue p).state = .running
    · rw [ticket, if_pos hrunning] at hreg
      dsimp only
      rw [hreg, Keyed.get?_concat h.free, if_pos rfl, Keyed.erase_concat h.free]
      exact ⟨_, rfl⟩
    · rw [ticket, if_neg hrunning, List.append_nil] at hreg
      dsimp only
      rw [hreg, Keyed.get?_of_not_mem h.free, if_neg nofun, ← hreg]
      exact ⟨_, rfl⟩
  obtain ⟨events, hcomplete⟩ := Queues.complete_eq p x₁
  have told : (x₁.queue p).listeners = [] := by
    rw [here, hl]
    exact h.listeners
  rw [registry] at hcomplete
  have alongside : b.Alongside K p { x₁ with registry := b.registry, registries, events } := by
    refine h.requeue hf ((hl _).trans h.listeners) (fun n hn => .inl (hp _ n hn)) events ?_
    rw [if_neg hrun, List.append_nil]
  have dropped : b.Alongside K p (Engine.changeQueue { x₁ with registry := b.registry, registries, events } p
      ({ · with listeners := [] })) :=
    alongside.changeQueue (fun z => ⟨_, _, _, _, _, _, rfl⟩) (fun _ => rfl) rfl fun _ hn => .inl hn
  refine ⟨_, hcomplete.trans ?_, dropped, ?_, rfl⟩
  · show Action.each (Queues.tell p) (x₁.queue p).listeners _ = _
    rw [told]
    rfl
  · have state := Engine.queue_changeQueue_keep { x₁ with registry := b.registry, registries, events }
      (f := ({ · with listeners := [] })) (g := Queue.state) (fun _ => rfl) p p
    rw [state]
    show (x₁.queue p).state.isEnd = true
    rw [here]
    exact hs _

end Alongside

end Engine

/-! ## The discipline of a procedure -/

namespace Discipline

/-- Healthy engines on which commands of one kind run on the queue `p`, which is made on the engine `b`. -/
def confined (K : Charter) (b : Engine) (p : QueueRef) : Discipline where
  inv x := x.Healthy ∧ b.Alongside K p x
  le x y := healthy.le x y ∧ (∀ {n : EntryRef}, b.Own K p x n → b.Own K p y n) ∧
    ∀ {m : EntryRef}, m < x.entries.size →
      (y.entry m).residing = (x.entry m).residing ∨ (y.entry m).residing = some p
  cut _ := True
  own x n := b.Own K p x n
  mine _ q := q = p
  fresh _ q := q = p
  placed x _ n := b.Own K p x n ∧ (x.entry n).residing = some p
  fits c := c.Sound ∧ K.kind c
  cared _ _ := True
  marked _ _ := True
  refl x := ⟨healthy.refl x, id, fun _ => .inl rfl⟩
  trans h h' := ⟨healthy.trans h.1 h'.1, fun hn => h'.2.1 (h.2.1 hn), fun hm =>
    (h'.2.2 (Nat.lt_of_lt_of_le hm h.1.1.entries)).elim (fun heq => heq ▸ h.2.2 hm) .inr⟩
  own_mono h hn := h.2.1 hn
  mine_mono _ hq := hq
  fresh_mono _ hq := hq
  placed_mono h hn := ⟨h.2.1 hn.1, (h.2.2 hn.1.inner.live.1).elim (fun heq => heq.trans hn.2) id⟩
  placed_own h := h.1
  cared_mono _ _ := trivial
  marked_mono _ _ := trivial
  marked_cared _ := trivial

instance (K : Charter) (b : Engine) (p : QueueRef) : (confined K b p).Lenient :=
  ⟨fun _ => trivial⟩

instance (K : Charter) (b : Engine) (p : QueueRef) : (confined K b p).Open :=
  ⟨fun _ => trivial, fun _ _ => trivial, fun _ _ _ => trivial⟩

/-- Healthy engines on which a procedure runs on the queue `p`, called on the engine `b`. -/
abbrev inside (b : Engine) (p : QueueRef) : Discipline :=
  confined .procedure b p

namespace Inside

variable {K : Charter} {b x y : Engine} {p : QueueRef}

/-- A healthy step that leaves all there was as it was, and does not touch entries. -/
theorem still (hh : healthy.Step x y) (hb : b.Alongside K p y) (hn : y.entries = x.entries) :
    (confined K b p).Step x y := by
  have entry (m : EntryRef) : y.entry m = x.entry m := by
    unfold Engine.entry
    rw [hn]
  refine ⟨⟨hh.1, hb⟩, hh.2, fun hown => ?_, fun _ => .inl (by rw [entry])⟩
  refine hown.mono hh.2.1.live (fun _ => by rw [entry]) (fun _ => .inl (by rw [entry]))
    fun _ hc => .inl ?_
  rwa [entry] at hc

/-- A healthy step that touches neither queues nor entries. -/
theorem aside (he : (confined K b p).inv x) (hh : healthy.Step x y) (hq : y.queues = x.queues)
    (hn : y.entries = x.entries) (hk : ∀ s, (y.script s).kind = (x.script s).kind)
    (hr : y.registry = x.registry) (hd : y.handoffs = x.handoffs)
    (hj : x.Continues b.queues.size y) : (confined K b p).Step x y :=
  still hh (he.2.aside hh.2.2 hh.2.1 hq hn hk hr hd hj) hn

/-- A healthy change of an entry of the procedure. -/
theorem entry {n : EntryRef} {f : Entry → Entry} (he : (confined K b p).inv x) (hn : b.Own K p x n)
    (hf : Entry.Steadies f) (hh : healthy.Step x (x.changeEntry n f))
    (hr : (f (x.entry n)).residing = (x.entry n).residing ∨ (f (x.entry n)).residing = some p)
    (ho : ∀ m, (f (x.entry n)).owner = some m → (x.entry n).owner = some m ∨ b.Own K p x m) :
    (confined K b p).Step x (x.changeEntry n f) := by
  obtain ⟨hside, hown, hresiding⟩ := he.2.changeEntry hn hf hh.2.2 hr ho
  exact ⟨⟨hh.1, hside⟩, hh.2, hown, fun _ => hresiding _⟩

/-- Diagnostics, notes and arguments stay within the queue of a procedure. -/
theorem bookkeeping : (confined K b p).Bookkeeping where
  emit event s he := by
    have hh := Healthy.bookkeeping.emit event s he.1
    obtain ⟨events, h⟩ := Engine.emit_eq _ event s
    rw [h] at hh ⊢
    exact aside he hh rfl rfl (fun _ => rfl) rfl rfl (.of_same rfl)
  jot he hn hf := by
    refine entry he hn hf.steadies (Healthy.bookkeeping.jot he.1 hn.inner.live hf) (.inl ?_) fun m hm => .inl ?_
    · obtain ⟨_, _, _, h⟩ := hf (Engine.entry _ _)
      rw [h]
    · obtain ⟨_, _, _, h⟩ := hf (Engine.entry _ _)
      rwa [h] at hm
  finish he hn := ⟨entry he hn ⟨fun _ => rfl, fun _ => rfl⟩
    (Healthy.bookkeeping.finish he.1 hn.inner.live).1 (.inl rfl) fun _ hm => .inl hm, trivial⟩
  memory f he hq := by
    cases hq
    exact aside he (Healthy.bookkeeping.memory f he.1 he.2.here) rfl rfl (fun _ => rfl) rfl rfl
      (.of_same rfl)
  residing {e n q} he hn h := by
    obtain ⟨r, hr, rfl⟩ := Option.map_eq_some_iff.1 h
    rw [hn.inner.residing hr]
    exact he.2.follow_eq
  eased_mono _ _ _ := .inl trivial

/-- A change of the queue of the procedure that does not end it. -/
theorem queue {f : Queue → Queue} (he : (confined K b p).inv x) (hh : healthy.Step x (x.changeQueue p f))
    (hf : Queue.Inward f) (hs : ∀ z, (f z).state = z.state) (hl : ∀ z, (f z).listeners = z.listeners)
    (hp : ∀ n ∈ (f (x.queue p)).pending,
      n ∈ (x.queue p).pending ∨ b.Own K p x n ∧ (x.entry n).residing = some p) :
    (confined K b p).Step x (x.changeQueue p f) :=
  still hh (he.2.changeQueue hf hs ((hl _).trans he.2.listeners) hp) rfl

/-- The queue of the procedure is ended, unless it has ended. -/
theorem safe_end {e₀ : Engine} {f : Queue → Queue} (hf : Queue.Inward f)
    (hs : ∀ z, (f z).state.isEnd = true) (hl : ∀ z, (f z).listeners = z.listeners)
    (hp : ∀ z, ∀ n ∈ (f z).pending, n ∈ z.pending)
    (hh : healthy.Safe e₀ (do
      unless (← Action.queue p).state.isEnd do
        Action.changeQueue p f
        Queues.complete p)) :
    (confined K b p).Safe e₀ (do
      unless (← Action.queue p).state.isEnd do
        Action.changeQueue p f
        Queues.complete p) := by
  refine ⟨fun x he hle => ?_⟩
  have healthy := hh.run x he.1 hle.1
  obtain ⟨y, heq, hside, -, hentries⟩ := he.2.ends hf hs hl hp
  rw [heq] at healthy ⊢
  exact ⟨still healthy.1 hside hentries, trivial⟩

/-- A determination on the queue of a procedure stays within it. -/
theorem safe_determine {e₀ : Engine} (v : Value) : (confined K b p).Safe e₀ (Queues.determine p v) := by
  refine ⟨fun x he hle => ?_⟩
  have hh := (Healthy.blocks.determine v he.2.here).run x he.1 (healthy.refl x)
  refine ⟨still (y := (Queues.determine p v x).2) hh.1 ?_ ?_, trivial⟩
  · rcases Queues.determine_cases p v x with ⟨i, -, done⟩ | ⟨-, done⟩ <;> rw [done]
    · exact he.2.aside (Engine.keeps_of_tables rfl rfl) (Engine.grows_of_tables rfl rfl rfl) rfl rfl (fun _ => rfl)
        rfl rfl
        (.of_same rfl)
    · have grown : b.Alongside K p { x with lists := x.lists.push [v] } :=
        he.2.aside (Engine.keeps_of_tables rfl rfl) (Engine.grows_of_tables rfl rfl rfl) rfl rfl (fun _ => rfl)
          rfl rfl (.of_same rfl)
      exact grown.changeQueue (fun z => ⟨_, _, _, _, _, _, rfl⟩) (fun _ => rfl) grown.listeners
        fun _ hn => .inl hn
  · rcases Queues.determine_cases p v x with ⟨i, -, done⟩ | ⟨-, done⟩ <;> rw [done]
    rfl

/-- Stopping the queue of a procedure stays within it. -/
theorem safe_stop {e₀ : Engine} : (confined K b p).Safe e₀ (Queues.stop p) := by
  refine ⟨fun x he _ => ?_⟩
  have hh : healthy.Safe x (Queues.stop p) := Healthy.blocks.stop he.2.here
  have safe : (confined K b p).Safe x (Queues.stop p) :=
    safe_end (f := ({ · with state := .stopped, pending := [] })) (fun z => ⟨_, _, _, _, _, _, rfl⟩)
      (fun _ => rfl) (fun _ => rfl) (fun _ _ hn => absurd hn List.not_mem_nil) hh
  exact safe.run x he ((confined K b p).refl x)

/-- Finishing the queue of a procedure stays within it. -/
theorem safe_finish {e₀ : Engine} : (confined K b p).Safe e₀ (Queues.finish p) := by
  refine ⟨fun x he _ => ?_⟩
  have hh : healthy.Safe x (Queues.finish p) := Healthy.running.finishQueue he.2.here
  have safe : (confined K b p).Safe x (Queues.finish p) :=
    safe_end (f := ({ · with state := .finished })) (fun z => ⟨_, _, _, _, _, _, rfl⟩)
      (fun _ => rfl) (fun _ => rfl) (fun _ _ hn => hn) hh
  exact safe.run x he ((confined K b p).refl x)

/-- Conditions and loops stay within the queue of a procedure. -/
theorem blocks : (confined K b p).Blocks where
  toBookkeeping := bookkeeping
  based he := he.1.tidy.based
  stock_mono h hn := hn.mono h.1.1 (h.1.2.code hn.lt)
  grow {x xs ns} he hx hc := by
    obtain ⟨hh, live⟩ := Healthy.blocks.grow he.1 hx fun z hz => (hc z hz).1
    refine ⟨⟨⟨hh.1, he.2.grown hx fun z hz => (hc z hz).1⟩, hh.2,
      fun hn => Engine.Alongside.own_grown hn hx, fun hm => .inl ?_⟩, fun n hn => ?_⟩
    · rw [x.entry_grown_of_lt hm]
    · -- The entries that are listed are among the further ones, which are blank.
      have among := hx.adds n hn
      have blank := hx.blank _ among.mem
      refine ⟨(· = n), rfl, ?_⟩
      rintro _ rfl
      refine ⟨⟨Nat.le_trans he.2.size among.1, live _ hn, (hc _ among.mem).2, fun hq => ?_⟩,
        fun c hc => ?_⟩
      · rw [blank.residing] at hq
        cases hq
      · rw [blank.owner] at hc
        cases hc
  place {x n q} he hn hr hq := by
    have hh := (Healthy.blocks.place he.1 hn.inner.live hr fun r h => (hq r h) ▸ he.2.here).1
    have residing : q = (x.entry n).residing ∨ q = some p := by
      cases q with
      | none => exact .inl (hr rfl).symm
      | some r => exact .inr (congrArg some (hq r rfl))
    have steady : Entry.Steadies ({ · with residing := q }) := ⟨fun _ => rfl, fun _ => rfl⟩
    have step := entry he hn steady hh residing fun _ hm => .inl hm
    refine ⟨step, fun r h => ⟨(confined K b p).own_mono step.2 hn, ?_⟩⟩
    rw [x.entry_changeEntry_self hn.inner.live.1, ← hq r h]
    exact h
  belong he hn ho := by
    refine entry he hn ⟨fun _ => rfl, fun _ => rfl⟩
      (Healthy.blocks.belong he.1 hn.inner.live ho.inner.live) (.inl rfl) ?_
    rintro _ ⟨⟩
    exact .inr ho
  loop s he hn := entry he hn ⟨fun _ => rfl, fun _ => rfl⟩
    (Healthy.blocks.loop s he.1 hn.inner.live) (.inl rfl) fun _ hm => .inl hm
  hurry i he hn := entry he hn ⟨fun _ => rfl, fun _ => rfl⟩
    (Healthy.blocks.hurry i he.1 hn.inner.live) (.inl rfl) fun _ hm => .inl hm
  owner _ hn h := hn.owner h
  pending f he hq h := by
    cases hq
    have hh := Healthy.blocks.pending f he.1 he.2.here fun n hn =>
      (h n hn).imp id fun h => h.1.inner.live
    exact queue he hh (fun z => ⟨_, _, _, _, _, _, rfl⟩) (fun _ => rfl) (fun _ => rfl) h
  determine v hq := by
    cases hq
    exact safe_determine v
  stop hq := by
    cases hq
    exact safe_stop
  fits_code he hn := ⟨he.1.code hn.inner.live.1, hn.inner.kind⟩
  fits_branch hc h := ⟨hc.1.enclosed h, K.branches hc.2 h⟩
  fits_mark script number he := ⟨he.1.catalogue.buildFlat script _ _ number, K.mark he.1.catalogue script number⟩

/-- Launching the queue of a procedure stays within it. -/
theorem safe_launch {e₀ : Engine} : (confined K b p).Safe e₀ (Queues.launch p) := by
  refine ⟨fun x he _ => ?_⟩
  have hh := (Healthy.safe_launch he.2.here).run x he.1 (healthy.refl x)
  let x₁ := x.changeQueue p ({ · with state := .running })
  have here : x₁.queue p = { x.queue p with state := .running } :=
    x.queue_changeQueue_self he.2.here _
  have registered : x₁.registry.put (Text.lower (x₁.queue p).id) p =
      b.registry ++ [(Text.lower (x.queue p).id, p)] := by
    have hreg : x₁.registry = b.registry ++ x.ticket p := he.2.registry
    rw [hreg, here, Engine.ticket]
    split
    · exact Keyed.put_concat he.2.free
    · rw [List.append_nil]
      exact Keyed.put_of_not_mem he.2.free
  let x₂ : Engine := x₁.setRegistry (x₁.registry.put (Text.lower (x₁.queue p).id) p)
  let scope : Scope := { queue := some (x₂.queue p).id }
  obtain ⟨events, hevents⟩ := x₂.emit_eq (.trace ("Starting " ++ (x₂.queue p).pace.name ++ " queue '" ++
    (x₂.queue p).id ++ "' with " ++ Number.natText (x₂.queue p).pending.length ++ " entries") scope)
    scope
  have heq : Queues.launch p x = (.ok (), { x₂ with events }) := by
    rw [← hevents]
    rfl
  rw [heq] at hh ⊢
  refine ⟨still hh.1 ?_ rfl, trivial⟩
  exact he.2.requeue (f := ({ · with state := .running })) (fun z => ⟨_, _, _, _, _, _, rfl⟩)
    he.2.listeners (fun _ hn => .inl hn) events registered

/-- Commands that touch nothing but their queue stay within that of a procedure. -/
theorem serving : (confined K b p).Serving where
  finishQueue hq := by
    cases hq
    exact safe_finish
  delay d he hq := by
    cases hq
    exact queue he (Healthy.running.delay d he.1 he.2.here) (fun z => ⟨_, _, _, _, _, _, rfl⟩)
      (fun _ => rfl) (fun _ => rfl) fun _ hn => .inl hn
  waiting he hq hn := by
    cases hq
    exact he.2.pending hn
  pace hl hq := Healthy.running.pace hl.1 hq

/-- The entries of a script are kept when they are first needed. -/
theorem keep {n : Nat} {ns : List EntryRef} {xs : List Entry} (he : (confined K b p).inv x)
    (hx : x.Brings xs ns) (hc : ∀ z ∈ xs, z.code.Sound)
    (hh : healthy.Step x ((x.grown xs).keepBase n ns)) :
    (confined K b p).Step x ((x.grown xs).keepBase n ns) := by
  have same {m : EntryRef} (hm : m < x.entries.size) :
      ((x.grown xs).keepBase n ns).entry m = x.entry m :=
    x.entry_grown_of_lt hm
  have own {m : EntryRef} (hm : b.Own K p x m) : b.Own K p ((x.grown xs).keepBase n ns) m := by
    refine hm.mono hh.2.1.live (fun ha => ?_) (fun ha => .inl ?_) fun ha hc => .inl ?_
    · rw [same ha.inner.live.1]
    · rw [same ha.inner.live.1]
    · rwa [same ha.inner.live.1] at hc
  have side := he.2.grown hx hc
  refine ⟨⟨hh.1, { side with
    toKeeps := he.2.toKeeps.trans hh.2.2
    toGrows := he.2.toGrows.trans hh.2.1
    kind := fun s => ((x.grown xs).kind_keepBase n ns s).trans (side.kind s)
    pending := fun hm => ?_ }⟩, hh.2, own, fun hm => .inl (by rw [same hm])⟩
  obtain ⟨hown, hres⟩ := he.2.pending hm
  exact ⟨own hown, (congrArg Entry.residing (same hown.inner.live.1)).trans hres⟩

/-- The queue of a procedure runs within it. -/
theorem running : (inside b p).Running where
  toFilling := blocks.filling
  toServing := serving
  stop hq := blocks.stop hq
  keep he hnone ready hc := keep he ready.brings (ready.handed_down .enclosed fun c h => (hc c h).1)
    (Healthy.running.keep he.1 hnone ready fun c h => (hc c h).1)
  fits_base he h m hm := ⟨he.1.code (he.1.tidy.based.lt (.inl ⟨_, _, h, hm⟩)), trivial⟩
  launch {x _} he hq _ := by
    cases hq
    exact safe_launch.run x he ((inside b p).refl x)
  fits_source script _ he hs c hc := ⟨Healthy.running.fits_source script he.1 hs c hc, trivial⟩
  reads_script _ _ := trivial

/-! ## Running entries -/

/-- Procedures that are called inside a procedure keep to themselves. -/
theorem procedureSafe {calls : Calls} (hc : calls.Isolated) : (confined K b p).ProcedureSafe calls := by
  refine fun e₀ name args => ⟨fun x he _ => ?_⟩
  have hdone := hc x name args he.1
  generalize calls.procedure name args x = r at hdone
  obtain ⟨r, y⟩ := r
  have kept (hr : r ≠ .error .exhausted) : (confined K b p).Step x y := by
    obtain ⟨hh, ha⟩ := hdone hr
    obtain ⟨hside, hown, hresiding⟩ := he.2.call ha
    exact ⟨⟨hh, hside⟩, ⟨ha.toGrows, ha.toKeeps⟩, hown, fun hm => .inl (hresiding hm)⟩
  cases r with
  | ok v => exact ⟨kept nofun, trivial⟩
  | error f =>
    by_cases hf : f = .exhausted
    · rw [hf]
      trivial
    · exact leaves_error hf (kept fun h => hf (by cases h; rfl))

/-- Only commands that touch nothing but their queue get to run. -/
theorem safe_local {D : Discipline} {calls : Calls} {e₀ : Engine} {n : EntryRef} (hf : D.Blocks)
    (hem : D.Emptying) (hp : D.ProcedureSafe calls) (hn : D.own e₀ n)
    (hlocal : ∀ e, D.inv e → D.le e₀ e → (e.entry n).code.handler.behaviour.isLocal = true) :
    D.Safe e₀ (Commands.execute calls n) := by
  refine look_bind fun e₁ he hle => ?_
  have hn₁ := D.own_mono hle hn
  have hb := hlocal e₁ he hle
  split <;> rename_i h <;> rw [h] at hb
  · exact safe_pure _
  · exact safe_debugExecute hf.toBookkeeping
  · exact safe_defineExecute hf.toBookkeeping hn₁
  · exact safe_determineExecute hf.filling hem hn₁
  · exact safe_stopExecute hf.filling hem hn₁
  · exact safe_conditionExecute hf.weaving hp hn₁
  · exact safe_loopExecute hf.weaving hem hp hn₁
  all_goals cases hb

/-- A note of what the queue of a procedure does stays within it. -/
theorem note (he : (confined K b p).inv x) {s : QueueScript.Step} (hs : s.queue = p) :
    (confined K b p).Step x { x with journal := s :: x.journal } :=
  aside he (Healthy.note he.1 s) rfl rfl (fun _ => rfl) rfl rfl (.note x (hs ▸ he.2.old))

/-- A command that is not refused is a local one. -/
theorem isLocal {n : EntryRef} (he : (confined K b p).inv x) (hn : (confined K b p).placed x p n)
    (hr : Executor.isRefused x n = false) : (x.entry n).code.handler.behaviour.isLocal = true := by
  cases procedural : K.isProcedural with
  | false => exact K.isLocal procedural hn.1.inner.kind
  | true =>
    have residing : x.residingQueue n = some p := by
      unfold Engine.residingQueue
      rw [hn.2]
      exact congrArg some he.2.follow_eq
    unfold Executor.isRefused at hr
    rw [residing, Option.any_some, he.2.procedural, procedural, Bool.and_true] at hr
    exact (he.1.code hn.1.inner.live.1).handler.2 (by simpa using hr)

section Local

variable {D : Discipline} [D.Open] {calls : Calls} (hb : D.Blocks) (hp : D.ProcedureSafe calls)
  (hlocal : ∀ {e : Engine} {q : QueueRef} {n : EntryRef}, D.inv e → D.mine e q → D.placed e q n →
    Executor.isRefused e n = false → (e.entry n).code.handler.behaviour.isLocal = true)
  (hcode : ∀ {e e' : Engine} {n : EntryRef}, D.le e e' → D.own e n → (e'.entry n).code = (e.entry n).code)
  (heased : ∀ (e : Engine) (n : EntryRef), D.Eased e n)

include hb hp hlocal hcode heased

/-- An entry is executed if its command is a local one unless it is refused. -/
theorem safe_executeLocal {e₀ : Engine} {q : QueueRef} {n : EntryRef} (hq : D.mine e₀ q)
    (hn : D.placed e₀ q n) : D.Safe e₀ (Executor.execute calls n) := by
  refine (gives_execute hb.toBookkeeping hp (D.placed_own hn) fun e₁ he₁ hl₁ hr => ?_).safe
  have hn₁ := D.placed_mono hl₁ hn
  have code := hlocal he₁ (D.mine_mono hl₁ hq) hn₁ hr
  refine (safe_local hb hb.emptying hp (D.placed_own hn₁) fun e₂ _ hl₂ => ?_).mono fun _ e₂ _ _ _ =>
    heased e₂ n
  rwa [hcode hl₂ (D.placed_own hn₁)]

/-- Entries run if every command that is not refused is a local one. -/
theorem runsLocal (ht : D.Serving)
    (hnote : ∀ {e : Engine} {s : QueueScript.Step}, D.inv e → D.mine e s.queue →
      D.Step e { e with journal := s :: e.journal })
    (hlast : ∀ {e : Engine} {q : QueueRef} {n : EntryRef}, D.inv e → D.mine e q → D.own e n →
      D.Step e (e.changeQueue q ({ · with last := some n }))) : D.RunsEntries calls := by
  refine BeginsEntries.runs ?_ ht hb.emptying
  intro x q n he hq hn _ _ _ _
  have rest : D.Safe x (do
      Action.changeQueue q ({ · with last := some n })
      let ran ← Executor.execute calls n
      Drive.note (.returned q n ran)
      pure ran) := by
    refine safe_bind (safe_change fun e he hle => ?_) fun _ => ?_
    · exact hlast he (D.mine_mono hle hq) (D.own_mono hle (D.placed_own hn))
    · refine safe_bind (safe_executeLocal hb hp hlocal hcode heased hq hn) fun ran => ?_
      refine safe_bind (safe_change fun e he hl => ?_) fun _ => safe_pure _
      exact hnote (s := .returned q n ran) he (D.mine_mono hl hq)
  have began := hnote (s := .began q n (x.queue q) ((x.queue q).last.map x.entry)) he hq
  exact (rest.run _ began.1 began.2).from began.2

end Local

/-- A queue of the procedure is about to run an entry. -/
theorem last (he : (confined K b p).inv x) {n : EntryRef} (hn : b.Own K p x n) :
    (confined K b p).Step x (x.changeQueue p ({ · with last := some n })) :=
  queue he (Healthy.last he.1 p hn.inner.live) (fun _ => ⟨_, _, _, _, _, _, rfl⟩) (fun _ => rfl)
    (fun _ => rfl) fun _ hm => .inl hm

/-- A command that is not refused on the queue is a local one. -/
theorem localPlaced {q : QueueRef} {n : EntryRef} (he : (confined K b p).inv x)
    (hq : (confined K b p).mine x q) (hn : (confined K b p).placed x q n)
    (hr : Executor.isRefused x n = false) : (x.entry n).code.handler.behaviour.isLocal = true := by
  cases hq
  exact isLocal he hn hr

/-- Entries run within the queue of a procedure if procedures keep to themselves. -/
theorem runsEntries {calls : Calls} (hc : calls.Isolated) : (confined K b p).RunsEntries calls := by
  refine runsLocal blocks (procedureSafe hc) localPlaced (fun hl hn => hl.1.2.code hn.inner.live.1)
    (fun _ _ => .inl trivial) serving (fun he hs => note he hs) fun he hq hn => ?_
  cases hq
  exact last he hn

end Inside

end Discipline

/-! ## Runs that do not break off -/

namespace Action

variable {α β : Type}

/-- The action does not fail on an engine unless it is cut off. -/
def SureAt (e : Engine) (a : Action α) : Prop :=
  ∀ f, (a e).1 = .error f → f = .exhausted

/-- The action does not fail unless it is cut off. -/
structure Sure (a : Action α) : Prop where
  on (e : Engine) : SureAt e a

/-- A run that gave a value was sure to. -/
theorem sureAt_ok {a : Action α} {e e' : Engine} {x : α} (h : a e = (.ok x, e')) : SureAt e a := by
  intro f hf
  rw [h] at hf
  cases hf

/-- What follows a sure run is sure if it is for each value and engine that it may give. -/
theorem sureAt_bind {a : Action α} {f : α → Action β} {e : Engine} (ha : SureAt e a)
    (hf : ∀ x e', a e = (.ok x, e') → SureAt e' (f x)) : SureAt e (a >>= f) := by
  intro err h
  match hr : a e with
  | (.ok x, e') =>
    rw [bind_ok hr] at h
    exact hf x e' hr err h
  | (.error err', e') =>
    rw [bind_error hr] at h
    refine ha err ?_
    rw [hr]
    exact congrArg Except.error (Except.error.inj h)

/-- A look does not fail, so that only what follows may. -/
theorem sureAt_look {f : Engine → α} {k : α → Action β} {e : Engine} (h : SureAt e (k (f e))) :
    SureAt e (look f >>= k) :=
  h

/-- A step that is repeated while it says so.  `P` holds before every step that is taken. -/
theorem sureAt_repeatWhile {step : Action Bool} {P : Engine → Prop}
    (h : ∀ e, P e → SureAt e step ∧ ∀ e', step e = (.ok true, e') → P e') (fuel : Nat) {e : Engine}
    (he : P e) : SureAt e (repeatWhile step fuel) := by
  induction fuel generalizing e with
  | zero => exact fun _ hf => (Except.error.inj hf).symm
  | succ fuel ih =>
    obtain ⟨hs, hnext⟩ := h e he
    intro f hf
    unfold repeatWhile at hf
    rcases hr : step e with ⟨err | _ | _, e'⟩ <;> simp only [hr] at hf
    · refine hs f ?_
      rw [hr]
      exact congrArg Except.error (Except.error.inj hf)
    · cases hf
    · exact ih (hnext e' hr) f hf

/-- Giving a value does not fail. -/
theorem sure_pure (x : α) : Sure (pure x : Action α) :=
  ⟨fun _ => sureAt_ok rfl⟩

/-- A look does not fail. -/
theorem sure_look (f : Engine → α) : Sure (look f) :=
  ⟨fun _ => sureAt_ok rfl⟩

/-- A change does not fail. -/
theorem sure_change (f : Engine → Engine) : Sure (change f) :=
  ⟨fun _ => sureAt_ok rfl⟩

/-- One sure action after another is sure. -/
theorem sure_bind {a : Action α} {f : α → Action β} (ha : Sure a) (hf : ∀ x, Sure (f x)) :
    Sure (a >>= f) :=
  ⟨fun e => sureAt_bind (ha.on e) fun x e' _ => (hf x).on e'⟩

/-- A choice between sure actions is sure. -/
theorem sure_ite {c : Prop} [Decidable c] {a b : Action α} (ha : Sure a) (hb : Sure b) :
    Sure (if c then a else b) := by
  split
  · exact ha
  · exact hb

/-- Sure actions for each of a list are sure. -/
theorem sure_each {f : α → Action Unit} {xs : List α} (h : ∀ x ∈ xs, Sure (f x)) :
    Sure (each f xs) := by
  induction xs with
  | nil => exact sure_pure ()
  | cons x rest ih =>
    exact sure_bind (h x List.mem_cons_self) fun _ => ih fun y hy => h y (List.mem_cons_of_mem _ hy)

/-- Collecting the results of sure actions is sure. -/
theorem sure_collect {f : α → Action β} (h : ∀ x, Sure (f x)) (xs : List α) :
    Sure (collect f xs) := by
  induction xs with
  | nil => exact sure_pure []
  | cons x rest ih => exact sure_bind (h x) fun _ => sure_bind ih fun _ => sure_pure _

/-- Failures that are handled without fail do not get out. -/
theorem sure_orElse {a : Action α} {handle : Failure → Action α} (hh : ∀ f, Sure (handle f)) :
    Sure (orElse a handle) := by
  refine ⟨fun e err h => ?_⟩
  match hr : a e with
  | (.ok x, e') =>
    rw [orElse_ok hr] at h
    cases h
  | (.error f, e') =>
    by_cases hf : f = .exhausted
    · rw [hf] at hr
      rw [orElse_exhausted hr] at h
      exact (Except.error.inj h).symm
    · rw [orElse_error hf hr] at h
      exact (hh f).on e' err h

end Action

open QueueScript.Action

/-- Running an entry does not fail: its failures are reported. -/
theorem Executor.sure_execute (calls : Calls) (n : EntryRef) : Sure (execute calls n) := by
  have report (s : Scope) (message : String) (f : Option Failure) : Sure (do
      Action.error message s f
      Entries.finish n
      pure false) :=
    sure_bind (sure_change _) fun _ => sure_bind (sure_change _) fun _ => sure_pure _
  have refreshed : Sure (Entries.refresh n) := sure_bind (sure_look _) fun _ => sure_change _
  refine sure_bind refreshed fun _ => sure_bind (sure_look _) fun x => ?_
  refine sure_bind (sure_look _) fun scope => sure_bind (sure_change _) fun _ => ?_
  refine sure_bind (sure_look _) fun refused => sure_ite (report _ _ _) ?_
  exact sure_orElse fun f => report _ _ _

/-- A queue that runs an entry does not fail. -/
theorem Drive.sure_runEntry (calls : Calls) (q : QueueRef) (n : EntryRef) :
    Sure (runEntry calls q n) := by
  refine sure_bind (sure_look _) fun before => sure_bind (sure_look _) fun previous => ?_
  refine sure_bind (sure_change _) fun _ => sure_bind (sure_change _) fun _ => ?_
  refine sure_bind (Executor.sure_execute calls n) fun ran => ?_
  exact sure_bind (sure_change _) fun _ => sure_pure _

/-- Deciding whether a queue goes on does not fail. -/
theorem Drive.sure_goesOn (q : QueueRef) (n : EntryRef) : Sure (goesOn q n) := by
  refine sure_bind (sure_look _) fun queue => sure_ite (sure_pure _) ?_
  refine sure_bind (sure_look _) fun x => sure_ite (sure_pure _) (sure_ite ?_ (sure_pure _))
  exact sure_bind (sure_look _) fun d => sure_bind (sure_change _) fun _ => sure_pure _

namespace Entries

/-- Placing an entry on a queue does not fail. -/
theorem sure_place (n : EntryRef) (q : Option QueueRef) : Sure (place n q) :=
  sure_bind (sure_change _) fun _ => sure_bind (sure_look _) fun _ => sure_change _

/-- Making an entry of a command does not fail. -/
theorem sure_create (code : Compiled) : Sure (create code) := by
  refine ⟨fun e => ?_⟩
  obtain ⟨xs, y, run, -⟩ := create_eq e code
  exact sureAt_ok run

/-- Making entries of commands does not fail. -/
theorem sure_createAll (codes : List Compiled) : Sure (createAll codes) := by
  refine ⟨fun e => ?_⟩
  obtain ⟨xs, ys, run, -⟩ := createAll_eq e codes
  exact sureAt_ok run

/-- Cloning an entry does not fail. -/
theorem sure_clone (n : EntryRef) : Sure (clone n) := by
  refine sure_bind (sure_look _) fun original => sure_bind ⟨fun _ => sureAt_ok rfl⟩ fun copy => ?_
  refine sure_bind (sure_bind (sure_look _) fun o => ?_) fun _ => sure_pure _
  exact sure_bind (sure_change _) fun _ => sure_place copy _

end Entries

/-- Loading a script onto a queue does not fail. -/
theorem Scripts.sure_load (q : QueueRef) (n : Nat) (args : List Value)
    (definitions : List (String × Value)) : Sure (load q n args definitions) := by
  have defined (ps : List (String × Value)) : Sure (Queues.defineAll q ps) :=
    sure_each fun _ _ => sure_change _
  have compiled (source : String) (script : Option ScriptRef) : Sure (compile source script) := by
    refine sure_bind ?_ fun lines => sure_bind (sure_look _) fun c => ?_
    · exact sure_bind (sure_each fun _ _ => sure_change _) fun _ => sure_pure _
    · exact sure_bind (sure_change _) fun _ => sure_pure _
  have based : Sure (baseEntries n) := by
    refine sure_bind (sure_look _) fun record => ?_
    split
    · exact sure_pure _
    · refine sure_bind (compiled _ _) fun codes => sure_bind (Entries.sure_createAll codes) fun ns => ?_
      exact sure_bind (sure_change _) fun _ => sure_pure _
  refine sure_bind (sure_look _) fun record => sure_bind (defined _) fun _ => ?_
  refine sure_bind (defined _) fun _ => sure_bind based fun base => ?_
  refine sure_bind (sure_collect Entries.sure_clone base) fun ns => ?_
  exact sure_bind (sure_each fun n _ => Entries.sure_place n (some q)) fun _ => sure_change _

/-! ## Ends of queues -/

/-- The listener answers with an error. -/
def Listener.objects : Listener → Bool
  | .notify _ (some _) => true
  | _ => false

namespace Queues

variable {x : Engine} {q : QueueRef}

/-- Telling a listener that raises no error does not fail. -/
theorem sure_tell (q : QueueRef) {l : Listener} (h : l.objects = false) : Sure (tell q l) := by
  cases l with
  | finish n => exact sure_change _
  | notify label error =>
    cases error with
    | some message => cases h
    | none => exact sure_bind (sure_look _) fun _ => sure_bind (sure_change _) fun _ => sure_pure _

/-- Launching a queue does not fail. -/
theorem sure_launch (q : QueueRef) : Sure (launch q) := by
  refine sure_bind (sure_change _) fun _ => sure_bind (sure_change _) fun _ => ?_
  refine sure_bind (sure_look _) fun _ => sure_bind ?_ fun _ => sure_change _
  exact sure_bind (sure_look _) fun _ => sure_pure _

/-- A queue ends without fail if none of its listeners objects. -/
theorem sureAt_end {f : Queue → Queue} (hf : ∀ z, (f z).listeners = z.listeners)
    (h : ∀ l ∈ (x.queue q).listeners, l.objects = false) : SureAt x (do
      unless (← Action.queue q).state.isEnd do
        Action.changeQueue q f
        complete q) := by
  show SureAt x (if (x.queue q).state.isEnd then pure () else
    Action.changeQueue q f >>= fun _ => complete q)
  split
  · exact sureAt_ok rfl
  have same : ((unregistered q (x.changeQueue q f)).queue q).listeners = (x.queue q).listeners :=
    (congrArg Queue.listeners (queue_unregistered q _ q)).trans (x.queue_changeQueue_keep hf q q)
  obtain ⟨events, told⟩ := complete_eq q (x.changeQueue q f)
  rw [same] at told
  intro err failed
  have ended : (complete q (x.changeQueue q f)).1 = .error err := failed
  rw [told] at ended
  exact (sure_each fun l hl => sure_tell q (h l hl)).on _ err ended

end Queues

/-- A step fails only if it is cut off, as long as no listener of the queue objects: an entry reports its
failures. -/
theorem Drive.sureAt_step {calls : Calls} {x : Engine} {q : QueueRef}
    (h : ∀ l ∈ (x.queue q).listeners, l.objects = false) : SureAt x (step calls q) := by
  refine sureAt_look ?_
  split
  · exact sureAt_ok rfl
  refine sureAt_look ?_
  split
  · exact sureAt_ok rfl
  cases hp : (x.queue q).pending with
  | nil =>
    have none := Queues.removeFirst_nil hp
    refine sureAt_bind (sureAt_ok none) fun first e₁ he₁ => ?_
    rw [none] at he₁
    cases he₁
    exact sureAt_bind (Queues.sureAt_end (fun _ => rfl) h) fun _ e₁ _ => sureAt_ok rfl
  | cons n rest =>
    have first := Queues.removeFirst_cons hp
    refine sureAt_bind (sureAt_ok first) fun m e₁ he₁ => ?_
    rw [first] at he₁
    cases he₁
    refine (sure_bind (sure_runEntry calls q n) fun ran => sure_ite ?_ (sure_pure _)).on _
    refine sure_bind (sure_look _) fun queue => ?_
    split
    · exact sure_pure _
    · exact sure_goesOn q n

/-! ## A procedure from its call to its end -/

namespace Discipline.Inside

variable {b x : Engine} {p : QueueRef} {calls : Calls}

/-- What holds before every turn of the queue of a procedure. -/
def Ready (b : Engine) (p : QueueRef) (x : Engine) : Prop :=
  (inside b p).inv x ∧ (x.queue p).pace = .instant

/-- The queue of a procedure is not held back by a delay. -/
theorem Ready.undelayed (h : Ready b p x) : Undelayed x p :=
  fun ht => absurd (h.2.symm.trans ht) nofun

/-- The queue of a procedure is ready still after a step within it. -/
theorem Ready.later {y : Engine} (h : Ready b p x) (hs : (inside b p).Step x y) : Ready b p y :=
  ⟨hs.1, (running.pace hs.2 h.1.2.here).2.trans h.2⟩

/-- Nobody is told of the end. -/
theorem sureAt_step (h : Ready b p x) : SureAt x (Drive.step calls p) := by
  refine Drive.sureAt_step fun l hl => ?_
  rw [h.1.2.listeners] at hl
  exact absurd hl List.not_mem_nil

/-- A step of the queue of a procedure leaves it ready. -/
theorem leaves_turn (hc : calls.Isolated) (h : Ready b p x) :
    (inside b p).Leaves x (fun _ y => Ready b p y) (Drive.step calls p x) :=
  (leaves_step running.toPacing (runsEntries hc) h.1 rfl h.undelayed).mono fun _ _ hs _ => h.later hs

/-- The queue of a procedure advances without failing. -/
theorem sureAt_advance (hc : calls.Isolated) (h : Ready b p x) (fuel : Nat) :
    SureAt x (Drive.advance calls fuel p) := by
  refine sureAt_repeatWhile (P := Ready b p) (fun y hy => ⟨sureAt_step hy, fun z hz => ?_⟩) fuel h
  have leaves := leaves_turn hc hy
  rw [hz] at leaves
  exact leaves.2

/-- The engine after an action that keeps the discipline is as ready as before. -/
theorem Ready.after {α : Type} {a : Action α} {r : α} {y : Engine} (h : Ready b p x)
    (ha : (inside b p).Safe x a) (hr : a x = (.ok r, y)) : Ready b p y := by
  have leaves := ha.run x h.1 ((inside b p).refl x)
  rw [hr] at leaves
  exact h.later leaves.1

/-- The queue of a procedure starts without failing. -/
theorem sureAt_start (hc : calls.Isolated) (h : Ready b p x) (fuel : Nat) :
    SureAt x (Drive.start calls fuel p) := by
  refine sureAt_look ?_
  split
  · refine sureAt_bind ((Queues.sure_launch p).on x) fun _ y hy => ?_
    have ready := h.after safe_launch hy
    refine sureAt_look ?_
    split
    · rw [ready.2]
      exact sureAt_advance hc ready fuel
    · exact sureAt_ok rfl
  · exact sureAt_ok rfl

/-- The queue of a procedure runs to completion without failing. -/
theorem sureAt_runToCompletion (hc : calls.Isolated) (h : Ready b p x) (fuel : Nat) :
    SureAt x (Drive.runToCompletion calls fuel p) := by
  refine sureAt_bind (sureAt_start hc h fuel) fun _ y hy => ?_
  have ready := h.after (safe_start running (runsEntries hc) rfl fuel) hy
  refine sureAt_repeatWhile (P := Ready b p) (fun z hz => ⟨sureAt_look ?_, fun z' hz' => ?_⟩) fuel ready
  · split
    · exact sureAt_bind (sureAt_advance hc hz fuel) fun _ _ _ => sureAt_ok rfl
    · exact sureAt_ok rfl
  · refine hz.after ?_ hz'
    refine safe_bind (safe_look _) fun goesOn => safe_ite ?_ (safe_pure _)
    refine safe_bind ⟨fun e he hl => ?_⟩ fun _ => safe_pure _
    exact leaves_advance running.toPacing (runsEntries hc) he rfl (hz.later ⟨he, hl⟩).undelayed fuel

/-- A queue is made under an id that is free: it comes after all others, and it is empty. -/
theorem inv_withQueue {K : Charter} (hb : b.Healthy) (counters : Keyed Nat) {z : Queue} (new : z.IsNew)
    (procedural : z.isProcedural = K.isProcedural) (free : Text.lower z.id ∉ b.registry.keys) :
    (confined K b b.queues.size).inv (Engine.withQueue { b with counters } z) := by
  let y : Engine := { b with counters }
  have here : (y.withQueue z).queue b.queues.size = z := (y.queue_withQueue _ _).trans (if_pos rfl)
  have keeps : b.Keeps (y.withQueue z) := Engine.keeps_of_tables rfl rfl
  have counted : b.Grows y := Engine.grows_of_tables rfl rfl rfl
  have grows : b.Grows (y.withQueue z) := counted.trans (y.grows_withQueue z)
  have tidy : y.Tidy := hb.tidy.aside ⟨rfl, rfl, fun _ h => .inl h, rfl, rfl, rfl, fun _ => rfl⟩
  exact ⟨hb.keeps keeps (tidy.withQueue new), {
    toKeeps := keeps
    toGrows := grows
    old := Nat.le_refl _
    here := by simp
    queue := fun hm => y.queue_withQueue_of_lt hm
    entry := fun _ => rfl
    kind := fun _ => rfl
    handoffs := rfl
    journal := .of_same rfl
    procedural := by rw [here]; exact procedural
    replacedBy := by rw [here]; exact new.replacedBy
    listeners := by rw [here]; exact new.listeners
    free := by rw [here]; exact free
    registry := by
      unfold Engine.ticket
      rw [here, new.state]
      exact (List.append_nil _).symm
    pending := fun hn => by
      rw [here, new.pending] at hn
      exact absurd hn List.not_mem_nil }⟩

/-- A procedure is called: its queue comes after all others, and its id is free. -/
theorem ready_create (hb : b.Healthy) (name : String) (script : Option ScriptRef) :
    ∃ x, Queues.create .instant name { isProcedural := true, script } b = (.ok b.queues.size, x) ∧
      Ready b b.queues.size x := by
  obtain ⟨id, counters, hid, hfree⟩ := Queues.generateId_free name b
  let z : Queue := { id, name, pace := .instant, isProcedural := true, script,
                     memory := b.memories.size }
  let y : Engine := { b with counters }
  have here : (y.withQueue z).queue b.queues.size = z := (y.queue_withQueue _ _).trans (if_pos rfl)
  refine ⟨y.withQueue z, Action.bind_ok hid, ?_, by rw [here]⟩
  exact inv_withQueue hb counters ⟨rfl, rfl, rfl, rfl, rfl, rfl, rfl⟩ rfl hfree

end Discipline.Inside

namespace Drive

open Discipline Discipline.Inside

/-- Looking up a procedure fails or gives a script that is one, and changes nothing. -/
theorem procedureNamed_eq (name : String) (e : Engine) :
    (∃ f, f ≠ .exhausted ∧ procedureNamed name e = (.error f, e)) ∨
      ∃ n, procedureNamed name e = (.ok n, e) ∧ (e.script n).kind = .procedure := by
  cases hn : e.scriptNamed? name with
  | none => exact .inl ⟨.runtime (.noProcedure name), nofun, procedureNamed_of_none hn⟩
  | some n =>
    have found := procedureNamed_of_some hn
    by_cases hk : (e.script n).kind = .procedure
    · rw [if_pos hk] at found
      exact .inr ⟨n, found, hk⟩
    · rw [if_neg hk] at found
      exact .inl ⟨.runtime (.notProcedure name), nofun, found⟩

/-- Reading the value of a procedure changes nothing. -/
theorem valueOf_eq (p : QueueRef) (name : String) (e : Engine) : (valueOf p name e).2 = e := by
  rw [valueOf, Action.look_bind]
  rcases e.determinations? p with _ | _ | _ <;> rfl

/-- The outcome of a procedure leaves the engine healthy and all that was there alone. -/
theorem outcome_apart {b x : Engine} {p : QueueRef} (hx : (inside b p).inv x) (name : String) :
    (outcome p name x).2.Healthy ∧ b.Apart [] (outcome p name x).2 := by
  have unfolded : outcome p name x = (if !(x.queue p).state.isEnd then
      Queues.stop p >>= fun _ => valueOf p name else valueOf p name : Action Value) x := rfl
  rw [unfolded]
  obtain ⟨y, hstop, hside, hend, -⟩ := hx.2.ends (f := ({ · with state := .stopped, pending := [] }))
    (fun z => ⟨_, _, _, _, _, _, rfl⟩) (fun _ => rfl) (fun _ => rfl)
    fun _ _ hn => absurd hn List.not_mem_nil
  have stopped : Queues.stop p x = (.ok (), y) := hstop
  have healthy := ((Healthy.blocks.stop hx.2.here).run x hx.1 (healthy.refl x))
  rw [stopped] at healthy
  split
  · rw [Action.bind_ok stopped, valueOf_eq]
    exact ⟨healthy.1.1, hside.apart hend⟩
  · rename_i hended
    rw [valueOf_eq]
    exact ⟨hx.1, hx.2.apart (by simpa using hended)⟩

/-- A procedure runs on a queue of its own, which is filled, given its turns and ended. -/
theorem runProcedure_eq {e x : Engine} {n : Nat} {p : QueueRef} {name : String} (calls : Calls)
    (fuel : Nat) (args : List Value) (hnamed : procedureNamed name e = (.ok n, e))
    (hcreate : Queues.create .instant (e.script n).name
      { isProcedural := true, script := some ⟨n, (e.script n).name⟩ } e = (.ok p, x)) :
    runProcedure calls fuel name args e =
      (Scripts.load p n args [] >>= fun _ => runToCompletion calls fuel p >>= fun _ =>
        outcome p name) x := by
  refine (Action.bind_ok hnamed).trans ?_
  have referred : Scripts.reference n e = (.ok ⟨n, (e.script n).name⟩, e) := rfl
  exact (Action.bind_ok referred).trans (Action.bind_ok hcreate)

/-- A procedure that is not cut off keeps to itself, if those that it calls do. -/
theorem runProcedure_isolated {calls : Calls} (hc : calls.Isolated) (fuel : Nat) {e : Engine}
    (he : e.Healthy) (name : String) (args : List Value)
    (hr : (runProcedure calls fuel name args e).1 ≠ .error .exhausted) :
    (runProcedure calls fuel name args e).2.Healthy ∧
      e.Apart [] (runProcedure calls fuel name args e).2 := by
  obtain ⟨f, -, hnamed⟩ | ⟨n, hnamed, -⟩ := procedureNamed_eq name e
  · have failed : runProcedure calls fuel name args e = (.error f, e) := Action.bind_error hnamed
    rw [failed]
    exact ⟨he, .refl [] e⟩
  let p := e.queues.size
  obtain ⟨x, hcreate, hx⟩ := ready_create he (e.script n).name (some ⟨n, (e.script n).name⟩)
  rw [runProcedure_eq calls fuel args hnamed hcreate] at hr ⊢
  match hload : Scripts.load p n args [] x with
  | (.error f, y) =>
    have hf := (Scripts.sure_load p n args []).on x f (by rw [hload])
    rw [hf] at hload
    exact absurd (congrArg Prod.fst (Action.bind_error hload)) hr
  | (.ok _, y) =>
    rw [Action.bind_ok hload] at hr ⊢
    have hy : Ready e p y := hx.after (safe_load running.toTurning rfl n args []) hload
    match hrun : runToCompletion calls fuel p y with
    | (.error f, z) =>
      have hf := sureAt_runToCompletion hc hy fuel f (by rw [hrun])
      rw [hf] at hrun
      exact absurd (congrArg Prod.fst (Action.bind_error hrun)) hr
    | (.ok _, z) =>
      rw [Action.bind_ok hrun]
      have safe : (inside e p).Safe y (runToCompletion calls fuel p) :=
        safe_runToCompletion running (runsEntries hc) rfl hy.1.2.here hy.2 fuel
      exact outcome_apart (hy.after safe hrun).1 name

/-- At every level of nesting, procedures keep to themselves. -/
theorem isolated_calls (fuel : Nat) : (calls fuel).Isolated := by
  induction fuel with
  | zero => exact fun _ _ _ _ hr => absurd rfl hr
  | succ fuel ih => exact fun _ name args he hr => runProcedure_isolated ih fuel he name args hr

/-- Without procedures, nothing is ever cut off by a call of one. -/
theorem prompt_calls (fuel : Nat) : (calls (fuel + 1)).Prompt := by
  intro e name args hr
  obtain ⟨f, hf, hnamed⟩ | ⟨n, -, hn⟩ := procedureNamed_eq name e
  · have failed : (calls (fuel + 1)).procedure name args e = (.error f, e) :=
      Action.bind_error hnamed
    rw [failed] at hr
    exact absurd (Except.error.inj hr) hf
  · exact ⟨n, hn⟩

end Drive

end QueueScript
