import QueueScript.Proofs.Discipline.Drive
import QueueScript.Proofs.Discipline.Ends

/-!
# Tidy engines

The numbers by which the parts of an engine refer to each other stay in range, and a queue is only
ever replaced by one that was made after it.  Base entries stay aside: whatever waits, ran last, owns
another entry, listens or is worked for is live.  Every single change that commands make keeps an engine
tidy.
-/

namespace QueueScript

/-- All references of the engine are in range, and none leads to a base entry but from the scripts and
the blocks. -/
structure Engine.Tidy (e : Engine) : Prop where
  pending (q : QueueRef) : ∀ n ∈ (e.queue q).pending, e.Live n
  last {q : QueueRef} {n : EntryRef} : (e.queue q).last = some n → e.Live n
  listeners {q : QueueRef} {n : EntryRef} : .finish n ∈ (e.queue q).listeners → e.Live n
  replacedBy {q p : QueueRef} : (e.queue q).replacedBy = some p → q < p ∧ p < e.queues.size
  residing {n : EntryRef} {q : QueueRef} : (e.entry n).residing = some q → q < e.queues.size
  owner {n m : EntryRef} : (e.entry n).owner = some m → e.Live m
  registry {k : String} {q : QueueRef} : (k, q) ∈ e.registry → q < e.queues.size
  inFlight : ∀ w ∈ e.inFlight, e.Live w.entry
  handoffs {n : EntryRef} {o : Outcome} : Handoff.settle n o ∈ e.handoffs → e.Live n
  based : e.Based

/-- The second engine has all queues and entries of the first one, with the same paces and the same base
entries. -/
structure Engine.Grows (e e' : Engine) : Prop where
  queues : e.queues.size ≤ e'.queues.size
  entries : e.entries.size ≤ e'.entries.size
  pace {q : QueueRef} : q < e.queues.size → (e'.queue q).pace = (e.queue q).pace
  kept {n : EntryRef} : e.IsBase n → e'.IsBase n
  base {n : EntryRef} : n < e.entries.size → e'.IsBase n → e.IsBase n

/-- Two engines with the same queues, entries and work, and the same history. -/
structure Engine.Aside (e e' : Engine) : Prop where
  queues : e'.queues = e.queues
  entries : e'.entries = e.entries
  registry : ∀ p ∈ e'.registry, p ∈ e.registry ∨ p.2 < e.queues.size
  inFlight : e'.inFlight = e.inFlight
  handoffs : e'.handoffs = e.handoffs
  journal : e'.journal = e.journal
  bases (i : Nat) : (e'.script i).base = (e.script i).base

/-- The change of an entry keeps its command and its blocks. -/
structure Entry.Steadies (f : Entry → Entry) : Prop where
  code (x : Entry) : (f x).code = x.code
  blocks (x : Entry) : (f x).blocks = x.blocks

/-- Notes do. -/
theorem Entry.Jots.steadies {f : Entry → Entry} (hf : Jots f) : Steadies f := by
  refine ⟨fun x => ?_, fun x => ?_⟩ <;>
  · obtain ⟨_, _, _, h⟩ := hf x
    rw [h]

/-- A base entry that keeps its command stays one that may run. -/
theorem Discipline.Stock.mono {D : Discipline} {e e' : Engine} {n : EntryRef} (h : D.Stock e n)
    (hg : e.Grows e') (hc : (e'.entry n).code = (e.entry n).code) : D.Stock e' n :=
  ⟨Nat.lt_of_lt_of_le h.lt hg.entries, hg.kept h.base, hc ▸ h.fits⟩

namespace Engine

/-- An engine has grown by nothing. -/
theorem Grows.refl (e : Engine) : e.Grows e :=
  ⟨Nat.le_refl _, Nat.le_refl _, fun _ => rfl, id, fun _ => id⟩

/-- Engines grow further. -/
theorem Grows.trans {e e' e'' : Engine} (h : e.Grows e') (h' : e'.Grows e'') : e.Grows e'' where
  queues := Nat.le_trans h.queues h'.queues
  entries := Nat.le_trans h.entries h'.entries
  pace hq := (h'.pace (Nat.lt_of_lt_of_le hq h.queues)).trans (h.pace hq)
  kept hb := h'.kept (h.kept hb)
  base hn hb := h.base hn (h'.base (Nat.lt_of_lt_of_le hn h.entries) hb)

/-- The same tables of queues, entries and scripts. -/
theorem grows_of_tables {e e' : Engine} (hq : e'.queues = e.queues) (hn : e'.entries = e.entries)
    (hs : e'.scripts = e.scripts) : e.Grows e' :=
  ⟨Nat.le_of_eq (by rw [hq]), Nat.le_of_eq (by rw [hn]), fun _ => by rw [queue_congr hq],
    (isBase_of_tables hs hn).2, fun _ => (isBase_of_tables hs hn).1⟩

/-- A live entry stays live. -/
theorem Grows.live {e e' : Engine} (h : e.Grows e') {n : EntryRef} (hn : e.Live n) : e'.Live n :=
  ⟨Nat.lt_of_lt_of_le hn.1 h.entries, fun hb => hn.2 (h.base hn.1 hb)⟩

/-- Base entries stay base entries when an entry is changed. -/
theorem isBase_changeEntry (e : Engine) (n m : EntryRef) {f : Entry → Entry} (hf : Entry.Steadies f) :
    (e.changeEntry n f).IsBase m ↔ e.IsBase m := by
  refine isBase_congr (fun _ => rfl) fun k => congrArg (List.flatMap _) ?_
  exact e.entry_changeEntry_keep hf.blocks n k

/-- A live entry is changed, but for its command and its blocks. -/
theorem Based.changeEntry {e : Engine} (h : e.Based) {n : EntryRef} (hn : ¬ e.IsBase n)
    {f : Entry → Entry} (hf : Entry.Steadies f) : (e.changeEntry n f).Based := by
  refine h.congr (fun _ => rfl) (by simp) (e.entry_changeEntry_keep hf.code n)
    (e.entry_changeEntry_keep hf.blocks n) fun m hm => ?_
  exact e.entry_changeEntry_of_ne (fun same => hn (by rwa [same])) f

/-- What is there of the changes of a queue that keep its pace. -/
theorem grows_changeQueue (e : Engine) (q : QueueRef) {f : Queue → Queue}
    (hf : ∀ x, (f x).pace = x.pace) : e.Grows (e.changeQueue q f) where
  queues := by simp
  entries := Nat.le_refl _
  pace _ := e.queue_changeQueue_keep hf q _
  kept := id
  base _ := id

/-- The change of an entry takes nothing away. -/
theorem grows_changeEntry (e : Engine) (n : EntryRef) {f : Entry → Entry} (hf : Entry.Steadies f) :
    e.Grows (e.changeEntry n f) where
  queues := Nat.le_refl _
  entries := by simp
  pace _ := rfl
  kept := (e.isBase_changeEntry n _ hf).2
  base _ := (e.isBase_changeEntry n _ hf).1

/-- Further entries whose blocks are made of base entries. -/
theorem grows_grown (e : Engine) {xs : List Entry} (hx : ∀ x ∈ xs, ∀ m ∈ x.inner, e.IsBase m) :
    e.Grows (e.grown xs) where
  queues := Nat.le_refl _
  entries := by simp
  pace _ := rfl
  kept hb := hb.grown xs
  base {n} _ hb := by
    rcases hb with hb | ⟨m, hm⟩
    · exact .inl hb
    · rcases e.entry_grown_cases xs m with ⟨-, same⟩ | ⟨-, mem | same⟩
      · exact .inr ⟨m, same ▸ hm⟩
      · exact hx _ mem n hm
      · rw [same] at hm
        exact absurd hm List.not_mem_nil

/-- New entries take nothing away. -/
theorem Brings.grows {e : Engine} {xs : List Entry} {ns : List EntryRef} (h : e.Brings xs ns) :
    e.Grows (e.grown xs) where
  queues := Nat.le_refl _
  entries := by simp
  pace _ := rfl
  kept hb := hb.grown xs
  base hn := (h.isBase_iff hn).1

/-- A new queue takes nothing away. -/
theorem grows_withQueue (e : Engine) (x : Queue) : e.Grows (e.withQueue x) where
  queues := by simp
  entries := Nat.le_refl _
  pace hq := congrArg Queue.pace (e.queue_withQueue_of_lt hq)
  kept := id
  base _ := id

/-- A script is made into entries that were not there before. -/
theorem Brings.grows_keepBase {e : Engine} {xs : List Entry} {ns : List EntryRef} {i : Nat}
    (h : e.Brings xs ns) (hi : (e.script i).base = none) :
    e.Grows ((e.grown xs).keepBase i ns) where
  queues := Nat.le_refl _
  entries := h.grows.entries
  pace _ := rfl
  kept hb := (hb.grown xs).keepBase hi
  base {n} hn hb := by
    refine (h.isBase_iff hn).1 ((isBase_keepBase_cases hb).resolve_right fun mem => ?_)
    exact absurd hn (Nat.not_lt.2 (h.adds n mem).1)

/-- What is done aside leaves queues as they are. -/
theorem Aside.queue_eq {e e' : Engine} (h : e.Aside e') (q : QueueRef) : e'.queue q = e.queue q := by
  unfold queue
  rw [h.queues]

/-- What is done aside leaves entries as they are. -/
theorem Aside.entry_eq {e e' : Engine} (h : e.Aside e') (n : EntryRef) : e'.entry n = e.entry n := by
  unfold entry
  rw [h.entries]

/-- What is done aside makes no base entries. -/
theorem Aside.isBase_iff {e e' : Engine} (h : e.Aside e') (n : EntryRef) :
    e'.IsBase n ↔ e.IsBase n :=
  isBase_congr h.bases fun m => congrArg Entry.inner (h.entry_eq m)

/-- What is done aside takes nothing away. -/
theorem Aside.grows {e e' : Engine} (h : e.Aside e') : e.Grows e' where
  queues := Nat.le_of_eq (by rw [h.queues])
  entries := Nat.le_of_eq (by rw [h.entries])
  pace _ := by rw [h.queue_eq]
  kept := (h.isBase_iff _).2
  base _ := (h.isBase_iff _).1

/-- The entries of a script are there, or are made and become base entries. -/
theorem baseEntries_based {e : Engine} (h : e.Based) (i : Nat) : ∃ ns x,
    Scripts.baseEntries i e = (.ok ns, x) ∧ e.Grows x ∧ x.Based ∧ ∀ m ∈ ns, x.IsBase m := by
  obtain ⟨ns, hbase, eq⟩ | ⟨events, xs, ys, ns, hbase, rfl, -, ready, eq, based⟩ :=
    Scripts.baseEntries_eq i e
  · exact ⟨ns, e, eq, .refl e, h, fun m hm => .inl ⟨i, ns, hbase, hm⟩⟩
  · have noted : e.Grows { e with events } := grows_of_tables rfl rfl rfl
    have based' : Based { e with events } := h.of_tables rfl rfl
    exact ⟨_, _, eq, noted.trans (ready.brings.grows_keepBase hbase), based'.keep ready.brings, based⟩

/-! ## Changes that keep an engine tidy -/

namespace Tidy

variable {e e' : Engine} (h : e.Tidy)

include h

/-- An engine stays tidy while something is done aside. -/
theorem aside (ha : e.Aside e') : e'.Tidy where
  pending q n hn := ha.grows.live (h.pending q n (ha.queue_eq q ▸ hn))
  last hl := ha.grows.live (h.last (ha.queue_eq _ ▸ hl))
  listeners hl := ha.grows.live (h.listeners (ha.queue_eq _ ▸ hl))
  replacedBy hp := by
    rw [ha.queue_eq] at hp
    rw [ha.queues]
    exact h.replacedBy hp
  residing hm := by
    rw [ha.entry_eq] at hm
    rw [ha.queues]
    exact h.residing hm
  owner hm := ha.grows.live (h.owner (ha.entry_eq _ ▸ hm))
  registry hp := by
    rw [ha.queues]
    exact (ha.registry _ hp).elim (fun hp => h.registry hp) id
  inFlight w hw := ha.grows.live (h.inFlight w (ha.inFlight ▸ hw))
  handoffs hh := ha.grows.live (h.handoffs (ha.handoffs ▸ hh))
  based := h.based.congr ha.bases ha.grows.entries (fun m => congrArg Entry.code (ha.entry_eq m))
    (fun m => congrArg Entry.blocks (ha.entry_eq m)) fun m _ => ha.entry_eq m

/-- A change of a live entry brings in no more than an owner and a queue that are there. -/
theorem changeEntry {n : EntryRef} {f : Entry → Entry} (hn : ¬ e.IsBase n) (hf : Entry.Steadies f)
    (hr : ∀ x q, (f x).residing = some q → x.residing = some q ∨ q < e.queues.size)
    (ho : ∀ x m, (f x).owner = some m → x.owner = some m ∨ e.Live m) :
    (e.changeEntry n f).Tidy where
  pending q m hm := (e.grows_changeEntry n hf).live (h.pending q m hm)
  last hl := (e.grows_changeEntry n hf).live (h.last hl)
  listeners hl := (e.grows_changeEntry n hf).live (h.listeners hl)
  replacedBy hp := h.replacedBy hp
  residing {m q} hm := by
    rw [entry_changeEntry] at hm
    split at hm
    · exact (hr _ _ hm).elim (fun hm => h.residing hm) id
    · exact h.residing hm
  owner {m o} hm := by
    refine (e.grows_changeEntry n hf).live ?_
    rw [entry_changeEntry] at hm
    split at hm
    · exact (ho _ _ hm).elim (fun hm => h.owner hm) id
    · exact h.owner hm
  registry hp := h.registry hp
  inFlight w hw := (e.grows_changeEntry n hf).live (h.inFlight w hw)
  handoffs hh := (e.grows_changeEntry n hf).live (h.handoffs hh)
  based := h.based.changeEntry hn hf

/-- A change of a queue brings in only entries that are live, and a replacement that came later. -/
theorem changeQueue (q : QueueRef) {f : Queue → Queue}
    (hp : ∀ n ∈ (f (e.queue q)).pending, n ∈ (e.queue q).pending ∨ e.Live n)
    (hl : ∀ n, (f (e.queue q)).last = some n → (e.queue q).last = some n ∨ e.Live n)
    (hs : ∀ n, .finish n ∈ (f (e.queue q)).listeners → .finish n ∈ (e.queue q).listeners ∨ e.Live n)
    (hr : ∀ p, (f (e.queue q)).replacedBy = some p →
      (e.queue q).replacedBy = some p ∨ q < p ∧ p < e.queues.size) :
    (e.changeQueue q f).Tidy where
  pending p n hn := by
    rw [queue_changeQueue] at hn
    split at hn
    · rename_i hqp
      obtain ⟨rfl, -⟩ := hqp
      exact (hp n hn).elim (fun hn => h.pending q n hn) id
    · exact h.pending p n hn
  last {p n} hn := by
    rw [queue_changeQueue] at hn
    split at hn
    · rename_i hqp
      obtain ⟨rfl, -⟩ := hqp
      exact (hl n hn).elim (fun hn => h.last hn) id
    · exact h.last hn
  listeners {p n} hn := by
    rw [queue_changeQueue] at hn
    split at hn
    · rename_i hqp
      obtain ⟨rfl, -⟩ := hqp
      exact (hs n hn).elim (fun hn => h.listeners hn) id
    · exact h.listeners hn
  replacedBy {p r} hn := by
    rw [size_changeQueue]
    rw [queue_changeQueue] at hn
    split at hn
    · rename_i hqp
      obtain ⟨rfl, -⟩ := hqp
      exact (hr r hn).elim (fun hn => h.replacedBy hn) id
    · exact h.replacedBy hn
  residing hm := by simpa using h.residing hm
  owner hm := h.owner hm
  registry hk := by simpa using h.registry hk
  inFlight w hw := h.inFlight w hw
  handoffs hh := h.handoffs hh
  based := h.based.of_tables rfl rfl

/-- An engine stays tidy when a queue changes in what its tables do not refer to. -/
theorem soft (q : QueueRef) {f : Queue → Queue} (hf : Queue.Soft f) : (e.changeQueue q f).Tidy := by
  refine h.changeQueue q (fun n hn => .inl ?_) (fun n hn => .inl ?_)
    (fun n hn => .inl (hf.listeners _ _ hn)) (fun p hp => .inl ?_)
  · rcases hf.pending (e.queue q) with hs | hs
    · rwa [hs] at hn
    · rw [hs] at hn
      cases hn
  · rwa [hf.last] at hn
  · rwa [hf.replacedBy] at hp

/-- An engine stays tidy with new entries. -/
theorem grown {xs : List Entry} {ns : List EntryRef} (hx : e.Brings xs ns) : (e.grown xs).Tidy where
  pending q n hn := hx.grows.live (h.pending q n hn)
  last hl := hx.grows.live (h.last hl)
  listeners hl := hx.grows.live (h.listeners hl)
  replacedBy hp := h.replacedBy hp
  residing {n q} hm := by
    rcases hx.entry_cases n with ⟨-, same⟩ | ⟨-, blank⟩
    · exact h.residing (same ▸ hm)
    · rw [blank.residing] at hm
      cases hm
  owner {n m} hm := by
    rcases hx.entry_cases n with ⟨-, same⟩ | ⟨-, blank⟩
    · exact hx.grows.live (h.owner (same ▸ hm))
    · rw [blank.owner] at hm
      cases hm
  registry hk := h.registry hk
  inFlight w hw := hx.grows.live (h.inFlight w hw)
  handoffs hh := hx.grows.live (h.handoffs hh)
  based := h.based.grown hx

/-- A script is made into further entries. -/
theorem keepBase {xs : List Entry} {ns : List EntryRef} {i : Nat} (hx : e.Brings xs ns)
    (hi : (e.script i).base = none) : ((e.grown xs).keepBase i ns).Tidy :=
  have live {n : EntryRef} (hn : e.Live n) := (hx.grows_keepBase hi).live hn
  { pending := fun q n hn => live (h.pending q n hn)
    last := fun hl => live (h.last hl)
    listeners := fun hl => live (h.listeners hl)
    replacedBy := h.replacedBy
    residing := (h.grown hx).residing
    owner := fun {n m} hm => by
      rcases hx.entry_cases n with ⟨-, same⟩ | ⟨-, blank⟩
      · exact live (h.owner (same ▸ hm))
      · exact absurd (blank.owner.symm.trans hm) nofun
    registry := h.registry
    inFlight := fun w hw => live (h.inFlight w hw)
    handoffs := fun hh => live (h.handoffs hh)
    based := h.based.keep hx }

/-- An engine stays tidy with a new queue. -/
theorem withQueue {x : Queue} (hx : x.IsNew) : (e.withQueue x).Tidy where
  pending q n hn := by
    rw [queue_withQueue] at hn
    split at hn
    · rw [hx.pending] at hn
      cases hn
    · exact h.pending q n hn
  last {q n} hn := by
    rw [queue_withQueue] at hn
    split at hn
    · rw [hx.last] at hn
      cases hn
    · exact h.last hn
  listeners {q n} hn := by
    rw [queue_withQueue] at hn
    split at hn
    · rw [hx.listeners] at hn
      cases hn
    · exact h.listeners hn
  replacedBy {q p} hn := by
    rw [size_withQueue]
    rw [queue_withQueue] at hn
    split at hn
    · rw [hx.replacedBy] at hn
      cases hn
    · exact ⟨(h.replacedBy hn).1, Nat.lt_succ_of_lt (h.replacedBy hn).2⟩
  residing hm := by
    rw [size_withQueue]
    exact Nat.lt_succ_of_lt (h.residing hm)
  owner hm := h.owner hm
  registry hk := by
    rw [size_withQueue]
    exact Nat.lt_succ_of_lt (h.registry hk)
  inFlight w hw := h.inFlight w hw
  handoffs hh := h.handoffs hh
  based := h.based.of_tables rfl rfl

/-- An engine stays tidy with further work in flight. -/
theorem work {n : EntryRef} (hn : e.Live n) (job : Job) :
    Tidy { e with inFlight := e.inFlight ++ [⟨n, job⟩] } where
  pending q := h.pending q
  last hl := h.last hl
  listeners hl := h.listeners hl
  replacedBy hp := h.replacedBy hp
  residing hm := h.residing hm
  owner hm := h.owner hm
  registry hp := h.registry hp
  inFlight w hw := by
    rcases List.mem_append.1 hw with hw | hw
    · exact h.inFlight w hw
    · rw [List.mem_singleton.1 hw]
      exact hn
  handoffs hh := h.handoffs hh
  based := h.based.of_tables rfl rfl

/-- An engine stays tidy with one step more in its history. -/
theorem note (s : Step) : Tidy { e with journal := s :: e.journal } :=
  ⟨h.pending, h.last, h.listeners, h.replacedBy, h.residing, h.owner, h.registry, h.inFlight,
    h.handoffs, h.based.of_tables rfl rfl⟩

/-- Handoffs are queued for entries that are live. -/
theorem setHandoffs {handoffs : List Handoff}
    (hh : ∀ n o, Handoff.settle n o ∈ handoffs → e.Live n) :
    Tidy { e with handoffs } :=
  ⟨h.pending, h.last, h.listeners, h.replacedBy, h.residing, h.owner, h.registry, h.inFlight, hh _ _,
    h.based.of_tables rfl rfl⟩

/-! ## Following replacements -/

/-- Following replacements from a queue that is there ends at one. -/
theorem followFor_lt {q : QueueRef} (hq : q < e.queues.size) (fuel : Nat) :
    e.followFor fuel q < e.queues.size := by
  induction fuel generalizing q with
  | zero => exact hq
  | succ fuel ih =>
    unfold followFor
    split
    · rename_i next hn
      exact ih (h.replacedBy hn).2
    · exact hq

/-- There are no more replacements to follow than queues. -/
theorem followFor_end {q : QueueRef} (hq : q < e.queues.size) {fuel : Nat}
    (hf : e.queues.size ≤ q + fuel) : (e.queue (e.followFor fuel q)).replacedBy = none := by
  induction fuel generalizing q with
  | zero => exact absurd hq (Nat.not_lt.2 hf)
  | succ fuel ih =>
    unfold followFor
    split
    · rename_i next hn
      obtain ⟨hlt, hnext⟩ := h.replacedBy hn
      have hfuel : q + 1 + fuel ≤ next + fuel := Nat.add_le_add_right hlt fuel
      exact ih hnext (Nat.le_trans (by omega) hfuel)
    · assumption

/-- The queue that an entry runs on was not replaced. -/
theorem residingQueue_end {n : EntryRef} {q : QueueRef} (hq : e.residingQueue n = some q) :
    (e.queue q).replacedBy = none := by
  obtain ⟨p, hp, rfl⟩ := Option.map_eq_some_iff.1 hq
  exact h.followFor_end (h.residing hp) (Nat.le_add_left _ _)

/-- The queue that an entry runs on is there. -/
theorem residingQueue_lt {n : EntryRef} {q : QueueRef} (hq : e.residingQueue n = some q) :
    q < e.queues.size := by
  obtain ⟨p, hp, rfl⟩ := Option.map_eq_some_iff.1 hq
  exact h.followFor_lt (h.residing hp) _

/-- A queue in the registry is there. -/
theorem listed_lt {k : String} {q : QueueRef} (hq : e.registry.get? k = some q) :
    q < e.queues.size := by
  obtain ⟨p, hp, rfl⟩ := Keyed.mem_of_get? hq
  exact h.registry (k := p.1) hp

/-- A queue that is found by its id is there. -/
theorem registered?_lt {id : String} {q : QueueRef} (hq : e.registered? id = some q) :
    q < e.queues.size :=
  h.listed_lt hq

end Tidy

end Engine

end QueueScript
