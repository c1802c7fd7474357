import QueueScript.Proofs.Completion

/-!
# Entries that are held back

A queue that was paused begins none of its entries until it runs again, and a queue that was stopped has
none left.  What both have in common is that some entries are not begun any more: they are pending on one
queue at most, and that queue does not run (`Engine.Withholds`).

A replacement runs at once, also when the queue that it replaces was paused.  So a paused queue keeps its
entries back as long as it is not replaced, and a timed one does whatever other queues do, since commands
replace instant queues only.  A queue that was replaced counts as stopped, so that stopping it does
nothing to the queue that came in its place.
-/

namespace QueueScript

/-- Whether a step begins an entry. -/
def Step.isBegin (n : EntryRef) : Step → Bool
  | .began _ m _ _ => m == n
  | .returned _ _ _ => false

namespace Engine

/-- How often an entry was begun. -/
def begins (e : Engine) (n : EntryRef) : Nat :=
  e.journal.countP (·.isBegin n)

/-- How often an entry was begun is read off the history. -/
theorem begins_congr {e e' : Engine} (h : e'.journal = e.journal) (n : EntryRef) :
    e'.begins n = e.begins n := by
  unfold begins
  rw [h]

/-- An entry is begun, and others as often as before. -/
theorem begins_begun (e : Engine) {q : QueueRef} {n m : EntryRef} {rest : List EntryRef} (h : n ≠ m) :
    (e.begun q n rest).begins m = e.begins m :=
  List.countP_cons_of_neg (by simpa [Step.isBegin] using h)

/-- Some entries were begun as often as `count` says, and none of them is going to be begun: they are
pending on the queue `held` at most, which is neither running nor still to be started. -/
structure Withholds (X : List EntryRef) (held : Option QueueRef) (count : EntryRef → Nat) (e : Engine) :
    Prop where
  there {n : EntryRef} : n ∈ X → n < e.entries.size
  begun {n : EntryRef} : n ∈ X → e.begins n = count n
  place {n : EntryRef} {p : QueueRef} : n ∈ X → n ∈ (e.queue p).pending → held = some p
  size {p : QueueRef} : held = some p → p < e.queues.size
  still {p : QueueRef} : held = some p → (e.queue p).state ≠ .running ∧ (e.queue p).state ≠ .idle

namespace Withholds

variable {X : List EntryRef} {held : Option QueueRef} {count : EntryRef → Nat} {e e' : Engine}
  {q : QueueRef}

/-- No queue changes its state, and entries are pending only where they were. -/
theorem fewer (h : e.Withholds X held count) (hn : e.entries.size ≤ e'.entries.size)
    (hq : e'.queues.size = e.queues.size) (hs : ∀ p, (e'.queue p).state = (e.queue p).state)
    (hp : ∀ p, ∀ n ∈ X, n ∈ (e'.queue p).pending → n ∈ (e.queue p).pending)
    (hj : ∀ n ∈ X, e'.begins n = e.begins n) : e'.Withholds X held count where
  there hx := Nat.lt_of_lt_of_le (h.there hx) hn
  begun hx := (hj _ hx).trans (h.begun hx)
  place hx hmem := h.place hx (hp _ _ hx hmem)
  size hp := Nat.lt_of_lt_of_eq (h.size hp) hq.symm
  still hp := by
    rw [hs]
    exact h.still hp

/-- Entries are withheld while nothing moves. -/
theorem quiet (h : e.Withholds X held count) (hq : e.Quiet e') : e'.Withholds X held count := by
  refine h.fewer hq.entries hq.queues (fun p => (hq.queue p).state) (fun p n _ hn => ?_)
    fun n _ => begins_congr hq.journal n
  rwa [(hq.queue p).pending] at hn

/-- New entries are put on a queue. -/
theorem fill (h : e.Withholds X held count) (hq : q < e.queues.size) {xs ys : List Entry}
    {f : List EntryRef → List EntryRef} (hf : e.Fills q xs ys f) :
    ((e.grown xs).put q ys f).Withholds X held count := by
  let x := e.grown xs
  refine h.fewer (Fills.entries q xs ys f) (x.size_changeQueue q _)
    (x.queue_put_keep q ys f fun _ _ => rfl) (fun p n hx hn => ?_) fun n _ => rfl
  by_cases hp : q = p
  · subst hp
    rw [x.queue_put q ys f hq] at hn
    refine (hf.mem hn).resolve_right fun ⟨i, _, there, _⟩ => ?_
    have old := h.there hx
    rw [there, e.size_grown, Nat.add_assoc] at old
    exact absurd old (Nat.not_lt.2 (Nat.le_add_right _ _))
  · rwa [x.queue_put_of_ne q ys f hp] at hn

/-- Entries are dropped from a queue. -/
theorem drop (h : e.Withholds X held count) (k : Nat) :
    (e.changeQueue q fun x => { x with pending := x.pending.drop k }).Withholds X held count := by
  let f : Queue → Queue := fun x => { x with pending := x.pending.drop k }
  refine h.fewer (Nat.le_refl _) (e.size_changeQueue q f)
    (e.queue_changeQueue_keep (f := f) (fun _ => rfl) q) (fun p n _ hn => ?_) fun _ _ => rfl
  rw [e.queue_changeQueue] at hn
  split at hn
  · exact List.mem_of_mem_drop hn
  · exact hn

/-- Entries are withheld when a queue is made. -/
theorem make (h : e.Withholds X held count) {x : Queue} (hx : x.IsNew) :
    (e.withQueue x).Withholds X held count where
  there := h.there
  begun := h.begun
  place {n p} hn hmem := by
    rw [e.queue_withQueue] at hmem
    split at hmem
    · rw [hx.pending] at hmem
      cases hmem
    · exact h.place hn hmem
  size hp := by
    rw [e.size_withQueue]
    exact Nat.lt_succ_of_lt (h.size hp)
  still hp := by
    rw [e.queue_withQueue_of_lt (h.size hp)]
    exact h.still hp

/-- A queue changes its state, but the one that holds entries back does not run. -/
theorem changeState (h : e.Withholds X held count) {s : QueueState}
    (hs : held = some q → s ≠ .running ∧ s ≠ .idle) :
    (e.changeQueue q ({ · with state := s })).Withholds X held count where
  there := h.there
  begun := h.begun
  place {n p} hn hmem := by
    rw [e.queue_changeQueue_keep (f := ({ · with state := s })) (g := Queue.pending) fun _ => rfl] at hmem
    exact h.place hn hmem
  size hp := Nat.lt_of_lt_of_eq (h.size hp) (e.size_changeQueue q _).symm
  still {p} hp := by
    rw [e.queue_changeQueue]
    split
    · rename_i hqp
      exact hs (hp.trans (congrArg some hqp.1.symm))
    · exact h.still hp

/-- Entries are withheld when another queue starts. -/
theorem launch (h : e.Withholds X held count) (hidle : (e.queue q).state = .idle) :
    (e.launched q).Withholds X held count := by
  have changed : (e.changeQueue q ({ · with state := .running })).Withholds X held count :=
    h.changeState fun hp => absurd hidle (h.still hp).2
  exact ⟨changed.there, changed.begun, changed.place, changed.size, changed.still⟩

/-- Entries are withheld when a queue ends. -/
theorem close (h : e.Withholds X held count) {s : QueueState} (hs : s.isEnd = true)
    (hc : e.Closes q s e') : e'.Withholds X held count where
  there hn := Nat.lt_of_lt_of_eq (h.there hn) hc.entries.symm
  begun {n} hn := (begins_congr hc.journal n).trans (h.begun hn)
  place hn hmem := h.place hn (hc.mem_pending hs hmem)
  size hp := Nat.lt_of_lt_of_eq (h.size hp) hc.queues.symm
  still {p} hp := by
    by_cases hpq : p = q
    · rw [hpq, hc.state]
      constructor
      · rintro rfl
        cases hs
      · rintro rfl
        cases hs
    · rw [hc.other hpq]
      exact h.still hp

/-- A queue is replaced that holds none of the entries back. -/
theorem convert (h : e.Withholds X held count) (hq : held ≠ some q) (hc : e.Converts q e') :
    e'.Withholds X held count where
  there hn := Nat.lt_of_lt_of_eq (h.there hn) hc.moved.size.symm
  begun {n} hn := (begins_congr hc.journal n).trans (h.begun hn)
  place {n p} hn hmem := by
    rcases hc.pending hmem with ⟨-, hm⟩ | ⟨-, -, hm⟩
    · exact absurd (h.place hn hm) hq
    · exact h.place hn hm
  size hp := by
    rw [hc.queues]
    exact Nat.lt_succ_of_lt (h.size hp)
  still {p} hp := by
    have other : p ≠ q := by
      rintro rfl
      exact hq hp
    rw [hc.other other (Nat.ne_of_lt (h.size hp))]
    exact h.still hp

/-- The queue that begins an entry runs, so that it holds nothing back. -/
theorem begins (h : e.Withholds X held count) {n : EntryRef} {rest : List EntryRef}
    (hq : q < e.queues.size) (hp : (e.queue q).pending = n :: rest)
    (ha : Drive.isActive e q = true) : (e.begun q n rest).Withholds X held count := by
  have running : (e.queue q).state = .running := eq_of_beq (Bool.and_eq_true_iff.1 ha).1
  have other : n ∉ X := fun hn =>
    (h.still (h.place hn (by rw [hp]; exact List.mem_cons_self))).1 running
  refine h.fewer (Nat.le_refl _) ((Engine.size_changeQueue _ q _).trans (e.size_changeQueue q _))
    (e.queue_begun_keep q n rest (fun _ _ => rfl) fun _ _ => rfl) (fun p m hm hmem => ?_) fun m hm => ?_
  · by_cases hpq : p = q
    · rw [hpq, e.queue_begun hq] at hmem
      rw [hpq, hp]
      exact List.mem_cons_of_mem _ hmem
    · rwa [e.queue_begun_of_ne hpq] at hmem
  · exact e.begins_begun fun hnm => other (hnm ▸ hm)

end Withholds

/-- An instant queue was replaced. -/
def Forwarded (e : Engine) (q : QueueRef) : Prop :=
  (e.queue q).pace = .instant ∧ (e.queue q).replacedBy ≠ none

namespace Forwarded

variable {e e' : Engine} {q p : QueueRef}

/-- A queue that was forwarded is there. -/
theorem lt (h : e.Forwarded q) : q < e.queues.size := by
  refine Nat.lt_of_not_le fun hle => h.2 ?_
  rw [e.queue_of_size_le hle]
  rfl

/-- A queue stays forwarded while its pace and its replacement do. -/
theorem keep (h : e.Forwarded q) (hp : (e'.queue q).pace = (e.queue q).pace)
    (hr : (e'.queue q).replacedBy = (e.queue q).replacedBy) : e'.Forwarded q :=
  ⟨hp.trans h.1, fun hn => h.2 (hr.symm.trans hn)⟩

/-- A queue changes in other things. -/
theorem changeQueue (h : e.Forwarded q) {f : Queue → Queue} (hp : ∀ x, (f x).pace = x.pace)
    (hr : ∀ x, (f x).replacedBy = x.replacedBy) : (e.changeQueue p f).Forwarded q :=
  h.keep (e.queue_changeQueue_keep hp p q) (e.queue_changeQueue_keep hr p q)

/-- A queue stays forwarded when one ends. -/
theorem close (h : e.Forwarded q) {s : QueueState} (hc : e.Closes p s e') : e'.Forwarded q := by
  by_cases hqp : q = p
  · subst hqp
    exact h.keep hc.pace hc.replacedBy
  · have same := hc.other hqp
    exact h.keep (congrArg Queue.pace same) (congrArg Queue.replacedBy same)

/-- An instant queue that is replaced is one that was. -/
theorem of_converts (hq : (e.queue q).pace = .instant) (hc : e.Converts q e') : e'.Forwarded q := by
  unfold Forwarded
  rw [hc.old]
  exact ⟨hq, nofun⟩

/-- A queue stays forwarded when one is converted. -/
theorem convert (h : e.Forwarded q) (hc : e.Converts p e') : e'.Forwarded q := by
  by_cases hqp : q = p
  · subst hqp
    exact of_converts h.1 hc
  · have same := hc.other hqp (Nat.ne_of_lt h.lt)
    exact h.keep (congrArg Queue.pace same) (congrArg Queue.replacedBy same)

end Forwarded

/-- Entries are held back, unless the queue that holds them was an instant one and was replaced. -/
def HoldsBack (X : List EntryRef) (held : Option QueueRef) (count : EntryRef → Nat) (e : Engine) : Prop :=
  e.Withholds X held count ∨ ∃ q, held = some q ∧ e.Forwarded q

end Engine

/-- The operation does not let a queue run again: it neither resumes it nor replaces it if it is a timed
one. -/
def Operation.LeavesPaused (held : Option QueueRef) (e : Engine) : Operation → Prop
  | .resume q => held ≠ some q
  | .forceToTimed q _ => held = some q → (e.queue q).pace = .instant
  | _ => True

namespace Engine.HoldsBack

variable {X : List EntryRef} {held : Option QueueRef} {count : EntryRef → Nat} {e e' : Engine}
  {q : QueueRef}

/-- Both ways of holding entries back survive. -/
theorem map (h : e.HoldsBack X held count) (hw : e.Withholds X held count → e'.Withholds X held count)
    (hf : ∀ q, e.Forwarded q → e'.Forwarded q) : e'.HoldsBack X held count :=
  h.imp hw fun ⟨q, hq, forwarded⟩ => ⟨q, hq, hf q forwarded⟩

/-- Entries are held back, or the instant queue that held them was converted. -/
theorem convert (h : e.HoldsBack X held count) (hq : held = some q → (e.queue q).pace = .instant)
    (hc : e.Converts q e') : e'.HoldsBack X held count := by
  by_cases hheld : held = some q
  · exact .inr ⟨q, hheld, .of_converts (hq hheld) hc⟩
  · exact h.map (fun hw => hw.convert hheld hc) fun _ hf => hf.convert hc

/-- Somebody is told of the end of a queue later. -/
theorem listen (h : e.HoldsBack X held count) (l : Listener) :
    (e.changeQueue q fun x => { x with listeners := x.listeners ++ [l] }).HoldsBack X held count := by
  let f : Queue → Queue := fun x => { x with listeners := x.listeners ++ [l] }
  have keep {α : Type} (g : Queue → α) (hg : ∀ x : Queue, g (f x) = g x) (p : QueueRef) :
      g ((e.changeQueue q f).queue p) = g (e.queue p) := e.queue_changeQueue_keep hg q p
  refine h.map (fun hw => ?_) fun _ hf => hf.changeQueue (fun _ => rfl) fun _ => rfl
  refine hw.fewer (Nat.le_refl _) (e.size_changeQueue q f) (keep Queue.state fun _ => rfl)
    (fun p n _ hn => ?_) fun _ _ => rfl
  rwa [keep Queue.pending fun _ => rfl] at hn

/-- Somebody is told something. -/
theorem call (h : e.HoldsBack X held count) (firing : Firing) :
    HoldsBack X held count { e with fired := firing :: e.fired } :=
  h.map (fun hw => ⟨hw.there, hw.begun, hw.place, hw.size, hw.still⟩) fun _ hf => hf.keep rfl rfl

/-- A host that leaves the paused queue alone holds its entries back. -/
theorem hosting (X : List EntryRef) (held : Option QueueRef) (count : EntryRef → Nat) :
    Upkeep.Hosting (Operation.LeavesPaused held) False False
      (fun e q => held = some q → (e.queue q).pace = .instant) (Engine.HoldsBack X held count) where
  quiet _ h hq _ := h.map (fun hw => hw.quiet hq) fun q hf =>
    hf.keep (hq.queue q).pace (hq.queue q).replacedBy
  fill {e q xs ys f} _ h hq _ hfills := h.map (fun hw => hw.fill hq hfills) fun p hf =>
    hf.keep ((e.grown xs).queue_put_keep q ys f (fun _ _ => rfl) p)
      ((e.grown xs).queue_put_keep q ys f (fun _ _ => rfl) p)
  drop count _ h _ _ := h.map (fun hw => hw.drop count) fun _ hf =>
    hf.changeQueue (fun _ => rfl) fun _ => rfl
  make {e x} _ h hx := h.map (fun hw => hw.make hx) fun q hf => by
    have same : (e.withQueue x).queue q = e.queue q := e.queue_withQueue_of_lt hf.lt
    exact hf.keep (congrArg Queue.pace same) (congrArg Queue.replacedBy same)
  launch {e q} _ h hq hidle _ := h.map (fun hw => hw.launch hidle) fun p hf =>
    hf.keep (e.queue_changeQueue_keep (f := ({ · with state := .running })) (fun _ => rfl) q p)
      (e.queue_changeQueue_keep (f := ({ · with state := .running })) (fun _ => rfl) q p)
  close _ h _ _ hs hc _ := h.map (fun hw => hw.close hs hc) fun _ hf => hf.close hc
  convert _ h _ hq hc _ := h.convert hq hc
  begins {e q n rest} _ h hq hp ha := h.map (fun hw => hw.begins hq.here hp ha) fun p hf =>
    hf.keep (e.queue_begun_keep q n rest (fun _ _ => rfl) (fun _ _ => rfl) p)
      (e.queue_begun_keep q n rest (fun _ _ => rfl) (fun _ _ => rfl) p)
  back {e} q n ran h := h.map (fun hw => hw.fewer (Nat.le_refl _) rfl (fun _ => rfl)
    (fun _ _ _ hn => hn) fun m _ => List.countP_cons_of_neg Bool.false_ne_true) fun _ hf =>
      hf.keep rfl rfl
  listen n h _ := h.listen _
  active _ _ _ hp _ := hp
  registered _ _ _ hp _ := hp
  allows {e op} ha := by
    cases op with
    | start q => exact nofun
    | runToCompletion q => exact nofun
    | runScript name options starts => exact nofun
    | runCommands source name options starts => exact nofun
    | forceToTimed q delay => exact ha
    | append q source => exact nofun
    | inject q source => exact nofun
    | _ => trivial
  pause _ h _ _ _ := h.map (fun hw => hw.changeState fun _ => ⟨nofun, nofun⟩) fun _ hf =>
    hf.changeQueue (fun _ => rfl) fun _ => rfl
  resume _ h _ ha _ := h.map (fun hw => hw.changeState fun hq => absurd hq ha) fun _ hf =>
    hf.changeQueue (fun _ => rfl) fun _ => rfl
  hear _ h _ _ _ := h.listen _
  late _ h _ _ _ := h.call _
  task _ _ h := h.call _

end Engine.HoldsBack

/-- A queue that the host has paused begins none of the entries that were pending on it, and no other
queue does, until the host resumes it, whatever other queues do.  This holds of timed queues, and of
instant ones that are not replaced. -/
theorem pause_holds {config : Config} {q : QueueRef} {fuel : Nat} {e₀ e : Engine}
    (h₀ : Reachable (Host.create config []) e₀) (hrun : (e₀.queue q).state = .running)
    (h : Runs (Operation.LeavesPaused (some q)) ((Operation.pause q).act fuel e₀).2 e)
    (hp : (e.queue q).pace = .timed ∨ (e.queue q).replacedBy = none) :
    ∀ n ∈ (e₀.queue q).pending, e.begins n = e₀.begins n := by
  have hq : q < e₀.queues.size := by
    refine Nat.lt_of_not_le fun hle => ?_
    rw [e₀.queue_of_size_le hle] at hrun
    cases hrun
  let e₁ := ((Operation.pause q).act fuel e₀).2
  have orderly₀ := h₀.orderly.1
  have reached : Reachable (Host.create config []) e₁ := h₀.ok fuel (.pause q) hq rfl
  have changed : e₁ = e₀.changeQueue q ({ · with state := .paused }) :=
    e₀.changeQueue_congr (if_pos hrun)
  have same (p : QueueRef) : (e₁.queue p).pending = (e₀.queue p).pending := by
    rw [changed]
    exact e₀.queue_changeQueue_keep (f := ({ · with state := .paused })) (g := Queue.pending)
      (fun _ => rfl) q p
  have paused : (e₁.queue q).state = .paused := by
    rw [changed, e₀.queue_changeQueue_self hq]
  have first : e₁.Withholds (e₀.queue q).pending (some q) e₀.begins := {
    there := fun hn => (orderly₀.healthy.tidy.pending q _ hn).1
    begun := fun _ => rfl
    place := fun {n p} hn hmem => by
      rw [same] at hmem
      exact congrArg some (orderly₀.pending_unique hn hmem)
    size := fun hp => by
      cases hp
      rw [changed, e₀.size_changeQueue]
      exact hq
    still := fun hp => by
      cases hp
      rw [paused]
      exact ⟨nofun, nofun⟩ }
  have kept := Discipline.Upheld.step_runs (Engine.HoldsBack.hosting _ (some q) e₀.begins)
    ⟨reached.orderly.1, .inl first⟩ reached.orderly.2 h
  intro n hn
  rcases kept.1.2 with held | ⟨p, hqp, instant, replaced⟩
  · exact held.begun hn
  · cases hqp
    rcases hp with timed | current
    · rw [timed] at instant
      cases instant
    · exact absurd current replaced

/-- A timed queue is paused before its second entry.  Another queue makes it wait and the heart beats,
and the entry is still not begun. -/
theorem pause_holds_timed :
    let options : Scripts.RunOptions := { pace := some .timed, id := some "target" }
    let e₀ := ((Operation.runCommands "debug one\ndebug two" none options true).act 10
      (Host.create {} [])).2
    let e₁ := ((Operation.pause 0).act 10 e₀).2
    let e₂ := ((Operation.runCommands "wait 0 queue:target" none {} true).act 10 e₁).2
    let e₃ := ((Operation.tick none).act 10 e₂).2
    1 ∈ (e₀.queue 0).pending ∧ e₀.begins 1 = 0 ∧ e₃.begins 1 = 0 := by
  intro options e₀ e₁ e₂ e₃
  obtain ⟨ok₀, ok₂, ok₃, running, pending, unbegun, timed⟩ :
      ((Operation.runCommands "debug one\ndebug two" none options true).act 10
        (Host.create {} [])).1.toBool = true ∧
      ((Operation.runCommands "wait 0 queue:target" none {} true).act 10 e₁).1.toBool = true ∧
      ((Operation.tick none).act 10 e₂).1.toBool = true ∧ (e₀.queue 0).state = .running ∧
      1 ∈ (e₀.queue 0).pending ∧ e₀.begins 1 = 0 ∧ (e₃.queue 0).pace = .timed := by decide +kernel
  have run₀ : Reachable (Host.create {} []) e₀ := .ok .first 10 (.runCommands _ none options true) trivial ok₀
  have run₂ : Runs (Operation.LeavesPaused (some 0)) e₁ e₂ :=
    .ok .first 10 (.runCommands _ none {} true) trivial trivial ok₂
  have run₃ : Runs (Operation.LeavesPaused (some 0)) e₁ e₃ := run₂.ok 10 (.tick none) trivial trivial ok₃
  have held := pause_holds run₀ running run₃ (.inl timed) 1 pending
  exact ⟨pending, unbegun, held.trans unbegun⟩

/-- An instant queue is left with an entry after a failed one, and is paused.  Another queue makes it
wait, which replaces it, and the replacement begins the entry. -/
theorem pause_forgotten_when_replaced :
    let e₀ := ((Operation.runCommands "nope\ndebug hi" none { id := some "target" } true).act 10
      (Host.create {} [])).2
    let e₁ := ((Operation.pause 0).act 10 e₀).2
    let e₂ := ((Operation.runCommands "wait 0 queue:target" none {} true).act 10 e₁).2
    Reachable (Host.create {} []) e₀ ∧ (e₀.queue 0).state = .running ∧ (e₁.queue 0).state = .paused ∧
      Runs (Operation.LeavesPaused (some 0)) e₁ e₂ ∧
        1 ∈ (e₀.queue 0).pending ∧ e₀.begins 1 = 0 ∧ e₂.begins 1 = 1 := by
  intro e₀ e₁ e₂
  obtain ⟨ok₀, ok₂, running, paused, pending, unbegun, begun⟩ :
      ((Operation.runCommands "nope\ndebug hi" none { id := some "target" } true).act 10
        (Host.create {} [])).1.toBool = true ∧
      ((Operation.runCommands "wait 0 queue:target" none {} true).act 10 e₁).1.toBool = true ∧
      (e₀.queue 0).state = .running ∧ (e₁.queue 0).state = .paused ∧ 1 ∈ (e₀.queue 0).pending ∧
      e₀.begins 1 = 0 ∧ e₂.begins 1 = 1 := by decide +kernel
  have run₀ : Reachable (Host.create {} []) e₀ :=
    .ok .first 10 (.runCommands _ none { id := some "target" } true) trivial ok₀
  have run₂ : Runs (Operation.LeavesPaused (some 0)) e₁ e₂ :=
    .ok .first 10 (.runCommands _ none {} true) trivial trivial ok₂
  exact ⟨run₀, running, paused, run₂, pending, unbegun, begun⟩

/-- Stopping a queue is not cut off: telling listeners takes no turns. -/
theorem Queues.stop_ne_exhausted (q : QueueRef) (e : Engine) : (Queues.stop q e).1 ≠ .error .exhausted := by
  have told (ls : List Listener) (e : Engine) :
      (Action.each (Queues.tell q) ls e).1 ≠ .error .exhausted := by
    induction ls generalizing e with
    | nil => exact nofun
    | cons l rest ih =>
      match l with
      | .finish n => exact ih _
      | .notify label none => exact ih _
      | .notify label (some message) => exact nofun
  show ((if (e.queue q).state.isEnd then pure () else
    Action.changeQueue q _ >>= fun _ => Queues.complete q : Action Unit) e).1 ≠ _
  split
  · exact nofun
  · show (Queues.complete q _).1 ≠ _
    obtain ⟨events, h⟩ := Queues.complete_eq q
      (e.changeQueue q ({ · with state := .stopped, pending := [] }))
    rw [h]
    exact told _ _

/-- A listener was told that a queue has ended in a state. -/
def Listener.WasTold (e : Engine) (q : QueueRef) (s : QueueState) : Listener → Prop
  | .finish n => n < e.entries.size → (e.entry n).isFinished = true
  | .notify label _ => ⟨label, q + 1, s.name⟩ ∈ e.fired

/-- The listeners of a queue that ends were told. -/
theorem Engine.Closes.told {e e' : Engine} {q : QueueRef} {s : QueueState} (hc : e.Closes q s e')
    (hcalm : ∀ l ∈ (e.queue q).listeners, l.isCalm = true) :
    ∀ l ∈ (e.queue q).listeners, l.WasTold e' q s := by
  have fires {ls : List Listener} (hcalm : ∀ l ∈ ls, l.isCalm = true) {label : String}
      {error : Option String} (hl : .notify label error ∈ ls) :
      (⟨label, q + 1, s.name⟩ : Firing) ∈ Listener.firings q s ls := by
    induction ls with
    | nil => cases hl
    | cons k rest ih =>
      have ih := ih fun l hl => hcalm l (List.mem_cons_of_mem _ hl)
      match k with
      | .finish n => exact ih ((List.mem_cons.1 hl).resolve_left nofun)
      | .notify name (some message) => exact absurd (hcalm _ List.mem_cons_self) nofun
      | .notify name none =>
        rcases List.mem_cons.1 hl with hl | hl
        · cases hl
          exact List.mem_cons_self
        · exact List.mem_cons_of_mem _ (ih hl)
  intro l hl
  cases l with
  | finish n =>
    intro hn
    exact hc.finished hcalm hl (Nat.lt_of_lt_of_eq hn hc.entries)
  | notify label error =>
    show _ ∈ e'.fired
    rw [hc.fired]
    exact List.mem_append_left _ (List.mem_reverse.2 (fires hcalm hl))

/-- When the host stops a queue that has neither ended nor been replaced, no entry that is pending on it
is ever begun again, and its listeners are told and forgotten: one after the other up to the first one
that fails, so all of them if none does. -/
theorem stop_final {config : Config} {q : QueueRef} {fuel : Nat} {e₀ e : Engine}
    (h₀ : Reachable (Host.create config []) e₀) (hq : q < e₀.queues.size) (hp : e₀.Pending q)
    (h : Reachable ((Operation.stop q).act fuel e₀).2 e) :
    (∀ n ∈ (e₀.queue q).pending, e.begins n = e₀.begins n) ∧
    let e₁ := ((Operation.stop q).act fuel e₀).2
    (e₁.queue q).state = .stopped ∧ (e₁.queue q).listeners = [] ∧
      e₁.fired = (Listener.firings q .stopped (e₀.queue q).listeners).reverse ++ e₀.fired ∧
      ((∀ l ∈ (e₀.queue q).listeners, l.isCalm = true) →
        ∀ l ∈ (e₀.queue q).listeners, l.WasTold e₁ q .stopped) := by
  let e₁ := ((Operation.stop q).act fuel e₀).2
  have closes : e₀.Closes q .stopped e₁ := .of_stop hq hp.1
  refine ⟨?_, closes.state, closes.listeners, closes.fired, closes.told⟩
  have orderly₀ := h₀.orderly.1
  have reached : Reachable (Host.create config []) e₁ :=
    h₀.next fuel (.stop q) hq (Queues.stop_ne_exhausted q e₀)
  have first : e₁.Withholds (e₀.queue q).pending none e₀.begins := {
    there := fun hn => Nat.lt_of_lt_of_eq (orderly₀.healthy.tidy.pending q _ hn).1 closes.entries.symm
    begun := fun _ => Engine.begins_congr closes.journal _
    place := fun {n p} hn hmem => by
      by_cases hpq : p = q
      · rw [hpq, closes.dropped rfl] at hmem
        cases hmem
      · rw [closes.other hpq] at hmem
        exact absurd (orderly₀.pending_unique hmem hn) hpq
    size := nofun
    still := nofun }
  have allowed : Runs (Operation.LeavesPaused none) e₁ e := h.runs.mono fun e op _ => by
    cases op with
    | resume q => exact nofun
    | forceToTimed q delay => exact nofun
    | _ => trivial
  have kept := Discipline.Upheld.step_runs (Engine.HoldsBack.hosting _ none e₀.begins)
    ⟨reached.orderly.1, .inl first⟩ reached.orderly.2 allowed
  intro n hn
  rcases kept.1.2 with held | ⟨p, hqp, -⟩
  · exact held.begun hn
  · cases hqp

/-- A timed queue with a listener is stopped before its second entry, and the host replaces it. -/
theorem stop_final_timed :
    let e₀ := ((Operation.runCommands "debug one\ndebug two" none { pace := some .timed } true).act 10
      (Host.create {} [])).2
    let e₁ := ((Operation.listen 0 "done" none).act 10 e₀).2
    let e₂ := ((Operation.stop 0).act 10 e₁).2
    let e₃ := ((Operation.forceToTimed 0 none).act 10 e₂).2
    1 ∈ (e₁.queue 0).pending ∧ e₁.begins 1 = 0 ∧ e₃.begins 1 = 0 ∧
      e₂.fired = [⟨"done", 1, "stopped"⟩] := by
  intro e₀ e₁ e₂ e₃
  obtain ⟨⟨ok₀, ok₁, ok₃⟩, ⟨size₀, size₁, size₂⟩, alive, pending, unbegun, listens, quiet⟩ :
      (((Operation.runCommands "debug one\ndebug two" none { pace := some .timed } true).act 10
          (Host.create {} [])).1.toBool = true ∧
        ((Operation.listen 0 "done" none).act 10 e₀).1.toBool = true ∧
        ((Operation.forceToTimed 0 none).act 10 e₂).1.toBool = true) ∧
      (0 < e₀.queues.size ∧ 0 < e₁.queues.size ∧ 0 < e₂.queues.size) ∧
      ((e₁.queue 0).state.isEnd = false ∧ (e₁.queue 0).replacedBy = none) ∧
      1 ∈ (e₁.queue 0).pending ∧ e₁.begins 1 = 0 ∧
      (e₁.queue 0).listeners = [.notify "done" none] ∧ e₁.fired = [] := by decide +kernel
  have run₀ : Reachable (Host.create {} []) e₀ :=
    .ok .first 10 (.runCommands _ none { pace := some .timed } true) trivial ok₀
  have run₁ : Reachable (Host.create {} []) e₁ := run₀.ok 10 (.listen 0 "done" none) size₀ ok₁
  have run₃ : Reachable e₂ e₃ := .ok .first 10 (.forceToTimed 0 none) size₂ ok₃
  obtain ⟨held, -, -, told, -⟩ := stop_final run₁ size₁ alive run₃
  refine ⟨pending, unbegun, (held 1 pending).trans unbegun, told.trans ?_⟩
  rw [listens, quiet]
  rfl

/-- An instant queue is replaced when it waits.  Stopping the queue that the host was given does nothing:
its listener is not told, and its entry is begun when the delay is over. -/
theorem stop_misses_replacement :
    let e₀ := ((Operation.runCommands "wait 1\ndebug hi" none {} false).act 10 (Host.create {} [])).2
    let e₁ := ((Operation.listen 0 "done" none).act 10 e₀).2
    let e₂ := ((Operation.start 0).act 10 e₁).2
    let e₃ := ((Operation.stop 0).act 10 e₂).2
    let e₄ := ((Operation.tick (some 2.0)).act 10 e₃).2
    Reachable (Host.create {} []) e₂ ∧ e₂.follow 0 = 1 ∧ 1 ∈ (e₂.queue 1).pending ∧
      Reachable e₃ e₄ ∧ e₃.begins 1 = 0 ∧ e₄.begins 1 = 1 ∧ e₃.callsOf "done" = [] := by
  intro e₀ e₁ e₂ e₃ e₄
  obtain ⟨⟨ok₀, ok₁, ok₂, ok₄⟩, ⟨size₀, size₁⟩, leads, pending, unbegun, begun, quiet⟩ :
      (((Operation.runCommands "wait 1\ndebug hi" none {} false).act 10
          (Host.create {} [])).1.toBool = true ∧
        ((Operation.listen 0 "done" none).act 10 e₀).1.toBool = true ∧
        ((Operation.start 0).act 10 e₁).1.toBool = true ∧
        ((Operation.tick (some 2.0)).act 10 e₃).1.toBool = true) ∧
      (0 < e₀.queues.size ∧ 0 < e₁.queues.size) ∧ e₂.follow 0 = 1 ∧ 1 ∈ (e₂.queue 1).pending ∧
      e₃.begins 1 = 0 ∧ e₄.begins 1 = 1 ∧ e₃.callsOf "done" = [] := by decide +kernel
  have run₀ : Reachable (Host.create {} []) e₀ := .ok .first 10 (.runCommands _ none {} false) trivial ok₀
  have run₁ : Reachable (Host.create {} []) e₁ := run₀.ok 10 (.listen 0 "done" none) size₀ ok₁
  have run₂ : Reachable (Host.create {} []) e₂ := run₁.ok 10 (.start 0) size₁ ok₂
  have run₄ : Reachable e₃ e₄ := .ok .first 10 (.tick (some 2.0)) trivial ok₄
  exact ⟨run₂, leads, pending, run₄, unbegun, begun, quiet⟩

end QueueScript
