import QueueScript.Proofs.Handoffs
import QueueScript.Proofs.Sound

/-!
# Engines that wake what they hold

An entry that is waited for holds its queue until something marks it as done: work under way, a
queued handoff, or a listener on a queue that has not ended.  An engine is *wakeful* when every queue
that has run an entry is either not held by it or such a thing exists.  A queue ends by telling its
listeners one after the other, and a listener of the host may fail, so the listeners that mark entries
have to come first.

Most changes move nothing that matters here (`Engine.Unmoved`); they keep an engine wakeful whatever
they do besides.
-/

namespace QueueScript

/-! ## What wakes a queue -/

/-- Whether the listener marks an entry. -/
def Listener.isFinish : Listener → Bool
  | .finish _ => true
  | .notify _ _ => false

/-- The listeners that mark entries come before those of the host. -/
def Listener.FinishFirst (ls : List Listener) : Prop :=
  ls.Pairwise fun a b => b.isFinish = true → a.isFinish = true

/-- No listener is one of the host. -/
def Listener.Quiet (ls : List Listener) : Prop :=
  ∀ l ∈ ls, l.isFinish = true

namespace Engine

/-- Something will mark the entry: work for it is under way, its handoff is queued, or a queue that
has not ended has a listener for it. -/
def Settles (e : Engine) (n : EntryRef) : Prop :=
  (∃ w ∈ e.inFlight, w.entry = n) ∨ (∃ o, Handoff.settle n o ∈ e.handoffs) ∨
    ∃ p, Listener.finish n ∈ (e.queue p).listeners ∧ (e.queue p).state.isEnd = false

/-- The entry holds no queue for ever. -/
def Eases (e : Engine) (n : EntryRef) : Prop :=
  (e.entry n).isAwaited = true → e.Settles n

/-- Every entry that a queue ran last holds it only as long as something will mark the entry, apart
from the entries `X` that are being run.  Entries that failed or that had no command are marked. -/
structure Wakeful (X : List EntryRef) (e : Engine) : Prop where
  last {q : QueueRef} {n : EntryRef} : (e.queue q).last = some n → n ∈ X ∨ e.Eases n
  listeners (q : QueueRef) : Listener.FinishFirst (e.queue q).listeners
  code {n : EntryRef} : n < e.entries.size → (e.entry n).code.Sound
  catalogue : e.catalogue.Sound
  returned {q : QueueRef} {n : EntryRef} {ran : Bool} : Step.returned q n ran ∈ e.journal →
    n < e.entries.size ∧
      (ran = false ∨ (e.entry n).code.handler.isStub = true → (e.entry n).isFinished = true)

/-! ## What later engines keep -/

/-- Entries keep their commands, their blocks and their marks, and all new commands are sound. -/
structure Keeps (e e' : Engine) : Prop where
  size : e.entries.size ≤ e'.entries.size
  code {n : EntryRef} : n < e.entries.size → (e'.entry n).code = (e.entry n).code
  blocks {n : EntryRef} : n < e.entries.size → (e'.entry n).blocks = (e.entry n).blocks
  marked {n : EntryRef} : n < e.entries.size →
    (e.entry n).isFinished = true → (e'.entry n).isFinished = true
  made {n : EntryRef} : e.entries.size ≤ n → n < e'.entries.size → (e'.entry n).code.Sound
  catalogue : e'.catalogue = e.catalogue

/-- What was eased stays eased, and queues that the host does not listen to stay so. -/
structure Minds (e e' : Engine) : Prop extends Keeps e e' where
  eases {n : EntryRef} : n < e.entries.size → e.Eases n → e'.Eases n
  quiet {q : QueueRef} : q < e.queues.size →
    Listener.Quiet (e.queue q).listeners → Listener.Quiet (e'.queue q).listeners

/-- No queue gets other listeners, none ends, and no work and no handoff is lost. -/
structure Steady (e e' : Engine) : Prop extends Keeps e e' where
  listeners (q : QueueRef) : (e'.queue q).listeners = (e.queue q).listeners
  ended (q : QueueRef) : (e'.queue q).state.isEnd = true → (e.queue q).state.isEnd = true
  inFlight : ∀ w ∈ e.inFlight, w ∈ e'.inFlight
  handoffs : ∀ h ∈ e.handoffs, h ∈ e'.handoffs

/-- Nor does a queue get another last entry, or the history another step. -/
structure Unmoved (e e' : Engine) : Prop extends Steady e e' where
  last (q : QueueRef) : (e'.queue q).last = (e.queue q).last
  journal : e'.journal = e.journal

namespace Keeps

variable {e e' e'' : Engine}

/-- An engine keeps its entries. -/
theorem refl (e : Engine) : e.Keeps e where
  size := Nat.le_refl _
  code _ := rfl
  blocks _ := rfl
  marked _ h := h
  made h h' := absurd h' (Nat.not_lt.2 h)
  catalogue := rfl

/-- Entries are kept over and over. -/
theorem trans (h : e.Keeps e') (h' : e'.Keeps e'') : e.Keeps e'' where
  size := Nat.le_trans h.size h'.size
  code hn := (h'.code (Nat.lt_of_lt_of_le hn h.size)).trans (h.code hn)
  blocks hn := (h'.blocks (Nat.lt_of_lt_of_le hn h.size)).trans (h.blocks hn)
  marked hn hm := h'.marked (Nat.lt_of_lt_of_le hn h.size) (h.marked hn hm)
  made {n} hn hn' := by
    by_cases hs : n < e'.entries.size
    · rw [h'.code hs]
      exact h.made hn hs
    · exact h'.made (Nat.le_of_not_lt hs) hn'
  catalogue := h'.catalogue.trans h.catalogue

/-- An entry that is waited for afterwards was waited for before. -/
theorem awaited (h : e.Keeps e') {n : EntryRef} (hn : n < e.entries.size)
    (ha : (e'.entry n).isAwaited = true) : (e.entry n).isAwaited = true := by
  simp only [Entry.isAwaited, h.code hn, Bool.and_eq_true, Bool.not_eq_true'] at ha ⊢
  refine ⟨ha.1, ?_⟩
  cases hf : (e.entry n).isFinished with
  | false => rfl
  | true => exact absurd (ha.2.symm.trans (h.marked hn hf)) nofun

end Keeps

/-- What was eased stays so over and over. -/
theorem Minds.trans {e e' e'' : Engine} (h : e.Minds e') (h' : e'.Minds e'')
    (hq : e.queues.size ≤ e'.queues.size) : e.Minds e'' where
  toKeeps := h.toKeeps.trans h'.toKeeps
  eases hn he := h'.eases (Nat.lt_of_lt_of_le hn h.size) (h.eases hn he)
  quiet hp hl := h'.quiet (Nat.lt_of_lt_of_le hp hq) (h.quiet hp hl)

/-- An engine stays wakeful when what was eased stays eased and no queue gets a last entry that no
queue had. -/
theorem Minds.wakeful {e e' : Engine} (h : e.Minds e') (ht : e.Tidy) {X : List EntryRef}
    (hw : e.Wakeful X) (hj : e'.journal = e.journal)
    (hlast : ∀ q n, (e'.queue q).last = some n → ∃ p, (e.queue p).last = some n)
    (hls : ∀ q, Listener.FinishFirst (e'.queue q).listeners) : e'.Wakeful X where
  last hl := by
    obtain ⟨p, hp⟩ := hlast _ _ hl
    exact (hw.last hp).imp id fun he => h.eases (ht.last hp).1 he
  listeners := hls
  code {n} hn := by
    by_cases hs : n < e.entries.size
    · rw [h.code hs]
      exact hw.code hs
    · exact h.made (Nat.le_of_not_lt hs) hn
  catalogue := by
    rw [h.catalogue]
    exact hw.catalogue
  returned hr := by
    rw [hj] at hr
    obtain ⟨hn, hf⟩ := hw.returned hr
    refine ⟨Nat.lt_of_lt_of_le hn h.size, fun hor => ?_⟩
    rw [h.code hn] at hor
    exact h.marked hn (hf hor)

namespace Steady

variable {e e' e'' : Engine}

/-- An engine is as steady as itself. -/
theorem refl (e : Engine) : e.Steady e where
  toKeeps := .refl e
  listeners _ := rfl
  ended _ h := h
  inFlight _ h := h
  handoffs _ h := h

/-- Steady changes follow one another. -/
theorem trans (h : e.Steady e') (h' : e'.Steady e'') : e.Steady e'' where
  toKeeps := h.toKeeps.trans h'.toKeeps
  listeners q := (h'.listeners q).trans (h.listeners q)
  ended q hq := h.ended q (h'.ended q hq)
  inFlight w hw := h'.inFlight w (h.inFlight w hw)
  handoffs x hx := h'.handoffs x (h.handoffs x hx)

/-- A queue that had not ended has not ended. -/
theorem not_ended (h : e.Steady e') {q : QueueRef} (hq : (e.queue q).state.isEnd = false) :
    (e'.queue q).state.isEnd = false := by
  cases hq' : (e'.queue q).state.isEnd with
  | false => rfl
  | true => exact absurd (hq.symm.trans (h.ended q hq')) nofun

/-- Work on an entry is still going to end. -/
theorem settles (h : e.Steady e') {n : EntryRef} (hs : e.Settles n) : e'.Settles n := by
  rcases hs with ⟨w, hw, rfl⟩ | ⟨o, ho⟩ | ⟨p, hp, hend⟩
  · exact .inl ⟨w, h.inFlight w hw, rfl⟩
  · exact .inr (.inl ⟨o, h.handoffs _ ho⟩)
  · exact .inr (.inr ⟨p, by rwa [h.listeners], h.not_ended hend⟩)

/-- A steady change keeps what was eased. -/
theorem minds (h : e.Steady e') : e.Minds e' where
  toKeeps := h.toKeeps
  eases hn he ha := h.settles (he (h.awaited hn ha))
  quiet _ hq := by rwa [h.listeners]

end Steady

namespace Unmoved

variable {e e' e'' : Engine}

/-- Nothing moves while nothing is done. -/
theorem refl (e : Engine) : e.Unmoved e where
  toSteady := .refl e
  last _ := rfl
  journal := rfl

/-- Nothing moves over and over. -/
theorem trans (h : e.Unmoved e') (h' : e'.Unmoved e'') : e.Unmoved e'' where
  toSteady := h.toSteady.trans h'.toSteady
  last q := (h'.last q).trans (h.last q)
  journal := h'.journal.trans h.journal

/-- An engine in which nothing has moved is wakeful. -/
theorem wakeful (h : e.Unmoved e') (ht : e.Tidy) {X : List EntryRef} (hw : e.Wakeful X) :
    e'.Wakeful X := by
  refine h.minds.wakeful ht hw h.journal (fun q n hn => ⟨q, ?_⟩) fun q => ?_
  · rwa [h.last] at hn
  · rw [h.listeners]
    exact hw.listeners q

end Unmoved

/-! ## Changes that move nothing -/

/-- The same tables of entries and commands. -/
theorem keeps_of_tables {e e' : Engine} (hn : e'.entries = e.entries)
    (hc : e'.catalogue = e.catalogue) : e.Keeps e' := by
  have entry (n : EntryRef) : e'.entry n = e.entry n := entry_congr hn n
  refine ⟨Nat.le_of_eq (by rw [hn]), fun _ => by rw [entry], fun _ => by rw [entry],
    fun _ h => by rwa [entry], ?_, hc⟩
  intro n h h'
  rw [hn] at h'
  exact absurd h' (Nat.not_lt.2 h)

/-- The same tables, and no less work. -/
theorem unmoved_of_tables {e e' : Engine} (hq : e'.queues = e.queues) (hn : e'.entries = e.entries)
    (hc : e'.catalogue = e.catalogue) (hj : e'.journal = e.journal)
    (hw : ∀ w ∈ e.inFlight, w ∈ e'.inFlight) (hh : ∀ h ∈ e.handoffs, h ∈ e'.handoffs) :
    e.Unmoved e' := by
  have queue (q : QueueRef) : e'.queue q = e.queue q := by unfold Engine.queue; rw [hq]
  exact ⟨⟨keeps_of_tables hn hc, fun q => by rw [queue], fun q h => by rwa [queue] at h, hw, hh⟩,
    fun q => by rw [queue], hj⟩

/-- Nothing moves when an entry is changed and not unmarked. -/
theorem unmoved_changeEntry (e : Engine) (n : EntryRef) {f : Entry → Entry}
    (hs : Entry.Steadies f) (hf : ∀ x, x.isFinished = true → (f x).isFinished = true) :
    e.Unmoved (e.changeEntry n f) := by
  refine { Unmoved.refl e with size := ?_, code := ?_, blocks := ?_, marked := ?_, made := ?_ }
  · exact Nat.le_of_eq (e.size_changeEntry n f).symm
  · exact fun {m} _ => e.entry_changeEntry_keep hs.code n m
  · exact fun {m} _ => e.entry_changeEntry_keep hs.blocks n m
  · intro m _ hm
    rw [entry_changeEntry]
    split
    · exact hf _ hm
    · exact hm
  · intro m hm hm'
    rw [size_changeEntry] at hm'
    exact absurd hm' (Nat.not_lt.2 hm)

/-- The change of a queue keeps all entries. -/
theorem keeps_changeQueue (e : Engine) (q : QueueRef) (f : Queue → Queue) :
    e.Keeps (e.changeQueue q f) :=
  keeps_of_tables rfl rfl

/-- A note in the history. -/
theorem steady_note (e : Engine) (step : QueueScript.Step) :
    e.Steady { e with journal := step :: e.journal } :=
  ⟨keeps_of_tables rfl rfl, fun _ => rfl, fun _ h => h, fun _ h => h, fun _ h => h⟩

/-- Nothing moves when a queue keeps its last entry, its listeners and its life. -/
theorem unmoved_changeQueue (e : Engine) (q : QueueRef) {f : Queue → Queue}
    (hl : ∀ x, (f x).last = x.last) (hs : ∀ x, (f x).listeners = x.listeners)
    (he : ∀ x, (f x).state.isEnd = true → x.state.isEnd = true) :
    e.Unmoved (e.changeQueue q f) := by
  refine { Unmoved.refl e with listeners := ?_, ended := ?_, last := ?_ }
  · exact fun p => e.queue_changeQueue_keep hs q p
  · intro p hp
    rw [queue_changeQueue] at hp
    split at hp
    · exact he _ hp
    · exact hp
  · exact fun p => e.queue_changeQueue_keep hl q p

/-- Nothing moves when sound entries are made. -/
theorem unmoved_grown (e : Engine) {xs : List Entry} (hc : ∀ x ∈ xs, x.code.Sound) :
    e.Unmoved (e.grown xs) := by
  refine { Unmoved.refl e with size := ?_, code := ?_, blocks := ?_, marked := ?_, made := ?_ }
  · simp
  · exact fun hn => by rw [e.entry_grown_of_lt hn]
  · exact fun hn => by rw [e.entry_grown_of_lt hn]
  · exact fun hn h => by rwa [e.entry_grown_of_lt hn]
  · exact fun hn hn' => hc _ (Adds.mem ⟨hn, hn'⟩)

/-- The entries of a script are kept. -/
theorem unmoved_keepBase (e : Engine) (i : Nat) (ns : List EntryRef) : e.Unmoved (e.keepBase i ns) :=
  unmoved_of_tables rfl rfl rfl rfl (fun _ h => h) fun _ h => h

/-- Nothing moves when a queue is made. -/
theorem unmoved_withQueue (e : Engine) {x : Queue} (hx : x.IsNew) : e.Unmoved (e.withQueue x) := by
  -- A queue that is out of range looks like a new one.
  have new : e.queue e.queues.size = default := e.queue_of_size_le (Nat.le_refl _)
  refine { Unmoved.refl e with listeners := ?_, ended := ?_, last := ?_ }
  · intro q
    rw [queue_withQueue]
    split
    · rename_i h
      rw [h, new, hx.listeners]
      rfl
    · rfl
  · intro q hq
    rw [queue_withQueue] at hq
    split at hq
    · rw [hx.state] at hq
      cases hq
    · exact hq
  · intro q
    rw [queue_withQueue]
    split
    · rename_i h
      rw [h, new, hx.last]
      rfl
    · rfl

end Engine

end QueueScript
