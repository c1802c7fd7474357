import QueueScript.Proofs.Upkeep.Basic

/-!
# Lines of queues, and entries under way

A queue and the queues that came in its place, one after the other, are a *line* (`Engine.LeadsTo`).  An
entry is *under way* from the moment its queue begins it until the queue is back from it
(`Engine.underway`).  Entries that start queues and procedures are under way while those run, so what is
under way is a stack.

A queue is *free* if nothing is under way on its line that came before any `wait` (`Engine.Free`).
Procedures and scripts run on new queues, which are free.  The queue that comes in the place of one that
is to wait is free as well, since the `wait` is under way.
-/

namespace QueueScript

namespace Engine

/-! ## Chains of replacements -/

/-- The second queue carries on entries of the first one, after any number of replacements. -/
inductive LeadsTo (e : Engine) : QueueRef → QueueRef → Prop where
  | here (q : QueueRef) : LeadsTo e q q
  | next {q p t : QueueRef} : (e.queue q).replacedBy = some p → LeadsTo e p t → LeadsTo e q t

namespace LeadsTo

variable {e e' : Engine} {q p t : QueueRef}

/-- A queue leads where it led as long as replacements stay. -/
theorem same (h : e.LeadsTo q t) (hs : ∀ p, (e'.queue p).replacedBy = (e.queue p).replacedBy) :
    e'.LeadsTo q t := by
  induction h with
  | here q => exact .here q
  | next hr _ ih => exact .next ((hs _).trans hr) ih

/-- A chain goes on behind its last queue. -/
theorem concat (h : e.LeadsTo q p) (hr : (e.queue p).replacedBy = some t) : e.LeadsTo q t := by
  induction h with
  | here q => exact .next hr (.here t)
  | next hq _ ih => exact .next hq (ih hr)

/-- Queues in the middle of a chain were replaced. -/
theorem kept (h : e.LeadsTo q t)
    (hs : ∀ p r, (e.queue p).replacedBy = some r → (e'.queue p).replacedBy = some r) :
    e'.LeadsTo q t := by
  induction h with
  | here q => exact .here q
  | next hr _ ih => exact .next (hs _ _ hr) ih

/-- A chain goes to later queues. -/
theorem le (ht : e.Tidy) (h : e.LeadsTo q t) : q ≤ t := by
  induction h with
  | here q => exact Nat.le_refl _
  | next hr _ ih => exact Nat.le_trans (Nat.le_of_lt (ht.replacedBy hr).1) ih

/-- Only the queue itself leads to a queue that came in no other's place. -/
theorem eq_of_new (hn : ∀ p, (e.queue p).replacedBy ≠ some t) (h : e.LeadsTo q t) : q = t := by
  induction h with
  | here q => rfl
  | next hr _ ih =>
    obtain rfl := ih hn
    exact absurd hr (hn _)

/-- A chain that ends at a queue that was there before was there before, if later replacements came to
new queues only. -/
theorem back (ht : e'.Tidy) (h : e'.LeadsTo q t)
    (hs : ∀ p r, r ≤ t → (e'.queue p).replacedBy = some r → (e.queue p).replacedBy = some r) :
    e.LeadsTo q t := by
  induction h with
  | here q => exact .here q
  | next hr h ih => exact .next (hs _ _ (h.le ht) hr) (ih hs)

/-- A chain starts at a queue that is there if it ends at one. -/
theorem start_lt (ht : e.Tidy) (h : e.LeadsTo q t) (hlt : t < e.queues.size) : q < e.queues.size :=
  Nat.lt_of_le_of_lt (h.le ht) hlt

/-- Following replacements ends at the last queue of a chain. -/
theorem follow_eq (ht : e.Tidy) (h : e.LeadsTo q t) (hq : q < e.queues.size)
    (hend : (e.queue t).replacedBy = none) : e.follow q = t := by
  have go (fuel : Nat) {q : QueueRef} (h : e.LeadsTo q t) (hq : q < e.queues.size)
      (hf : e.queues.size ≤ q + fuel) : e.followFor fuel q = t := by
    induction fuel generalizing q with
    | zero => exact absurd hq (Nat.not_lt.2 hf)
    | succ fuel ih =>
      unfold followFor
      cases h with
      | here => rw [hend]
      | @next _ p _ hr h =>
        rw [hr]
        obtain ⟨hlt, hp⟩ := ht.replacedBy hr
        have hfuel : q + 1 + fuel ≤ p + fuel := Nat.add_le_add_right hlt fuel
        exact ih h hp (Nat.le_trans (by omega) hfuel)
  exact go _ h hq (Nat.le_add_left _ _)

end LeadsTo

end Engine

/-! ## Entries under way -/

/-- The entries under way after a history, with their queues, the innermost first. -/
def Step.underway : List Step → List (QueueRef × EntryRef)
  | [] => []
  | .began q n _ _ :: rest => (q, n) :: underway rest
  | .returned q n _ :: rest => (underway rest).erase (q, n)

namespace Step

variable {js : List Step} {x : QueueRef × EntryRef}

/-- What is under way was begun lately, or was under way before. -/
theorem began_since {new old : List Step} (h : x ∈ underway (new ++ old)) :
    (∃ before previous, Step.began x.1 x.2 before previous ∈ new) ∨ x ∈ underway old := by
  induction new with
  | nil => exact .inr h
  | cons s rest ih =>
    have later (h : x ∈ underway (rest ++ old)) :
        (∃ before previous, Step.began x.1 x.2 before previous ∈ s :: rest) ∨ x ∈ underway old :=
      (ih h).imp_left fun ⟨before, previous, hb⟩ => ⟨before, previous, List.mem_cons_of_mem _ hb⟩
    cases s with
    | began q n before previous =>
      rcases List.mem_cons.1 h with rfl | h
      · exact .inl ⟨before, previous, List.mem_cons_self⟩
      · exact later h
    | returned q n ran => exact later (List.mem_of_mem_erase h)

/-- What is under way was begun. -/
theorem began_of_underway (h : x ∈ underway js) :
    ∃ before previous, Step.began x.1 x.2 before previous ∈ js := by
  rw [← List.append_nil js] at h
  exact (began_since h).resolve_right List.not_mem_nil

/-- What was begun is under way until its queue is back from it. -/
theorem underway_or_returned {q : QueueRef} {n : EntryRef} {before : Queue} {previous : Option Entry}
    (h : Step.began q n before previous ∈ js) :
    (q, n) ∈ underway js ∨ ∃ ran, Step.returned q n ran ∈ js := by
  induction js with
  | nil => exact absurd h List.not_mem_nil
  | cons s rest ih =>
    rcases List.mem_cons.1 h with rfl | h
    · exact .inl List.mem_cons_self
    · rcases ih h with hu | ⟨ran, hr⟩
      · cases s with
        | began p m _ _ => exact .inl (List.mem_cons_of_mem _ hu)
        | returned p m ran =>
          by_cases hpm : (q, n) = (p, m)
          · cases hpm
            exact .inr ⟨ran, List.mem_cons_self⟩
          · exact .inl ((List.mem_erase_of_ne hpm).2 hu)
      · exact .inr ⟨ran, List.mem_cons_of_mem _ hr⟩

end Step

namespace Engine

/-- The entries under way, with their queues, the innermost first. -/
def underway (e : Engine) : List (QueueRef × EntryRef) :=
  Step.underway e.journal

/-- What is under way is read off the history only. -/
theorem underway_congr {e e' : Engine} (h : e'.journal = e.journal) : e'.underway = e.underway := by
  unfold underway
  rw [h]

/-- What is under way is about queues and entries that there are. -/
theorem Orderly.underway {e : Engine} (h : e.Orderly) {x : QueueRef × EntryRef} (hx : x ∈ e.underway) :
    x.1 < e.queues.size ∧ x.2 < e.entries.size := by
  obtain ⟨_, _, hb⟩ := Step.began_of_underway hx
  exact h.traced hb

/-! ## What later engines keep of lines -/

/-- Lines only ever grow by new queues, and what was under way still is. -/
structure Onward (e e' : Engine) : Prop where
  leads {p t : QueueRef} : t < e.queues.size → e'.LeadsTo p t → e.LeadsTo p t
  underway : e'.underway = e.underway

/-- No queue that was there is replaced, and what was under way still is. -/
structure SameLines (e e' : Engine) : Prop extends Onward e e' where
  replacedBy {p : QueueRef} : p < e.queues.size → (e'.queue p).replacedBy = (e.queue p).replacedBy

namespace Onward

variable {e e' e'' : Engine}

/-- An engine has gone on from itself. -/
theorem refl (e : Engine) : e.Onward e :=
  ⟨fun _ h => h, rfl⟩

/-- Engines go further on. -/
theorem trans (h : e.Onward e') (h' : e'.Onward e'') (hq : e.queues.size ≤ e'.queues.size) :
    e.Onward e'' :=
  ⟨fun ht hl => h.leads ht (h'.leads (Nat.lt_of_lt_of_le ht hq) hl), h'.underway.trans h.underway⟩

/-- Replacements that go to queues that were there were made before. -/
theorem of_tidy (ht : e'.Tidy) (hu : e'.underway = e.underway)
    (hr : ∀ p r, r < e.queues.size → (e'.queue p).replacedBy = some r → (e.queue p).replacedBy = some r) :
    e.Onward e' :=
  ⟨fun hlt hl => hl.back ht fun p r hle hp => hr p r (Nat.lt_of_le_of_lt hle hlt) hp, hu⟩

/-- A queue that was converted leads to its replacement. -/
theorem of_converts {q : QueueRef} (h : e.Converts q e') (ht : e'.Tidy) : e.Onward e' := by
  refine of_tidy ht (underway_congr h.journal) fun p r hlt hr => ?_
  by_cases hp : p = q
  · rw [hp, h.old] at hr
    exact absurd (Option.some.inj hr).symm (Nat.ne_of_lt hlt)
  · by_cases hn : p = e.queues.size
    · rw [hn, h.newReplacedBy] at hr
      cases hr
    · rwa [h.other hp hn] at hr

end Onward

namespace SameLines

variable {e e' e'' : Engine}

/-- An engine has the lines it has. -/
theorem refl (e : Engine) : e.SameLines e :=
  ⟨.refl e, fun _ => rfl⟩

/-- Lines stay the same over and over. -/
theorem trans (h : e.SameLines e') (h' : e'.SameLines e'') (hq : e.queues.size ≤ e'.queues.size) :
    e.SameLines e'' :=
  ⟨h.toOnward.trans h'.toOnward hq,
    fun hp => (h'.replacedBy (Nat.lt_of_lt_of_le hp hq)).trans (h.replacedBy hp)⟩

/-- Lines are read off history and replacements. -/
theorem of_same (hj : e'.journal = e.journal)
    (hr : ∀ p, (e'.queue p).replacedBy = (e.queue p).replacedBy) : e.SameLines e' :=
  ⟨⟨fun _ h => h.same fun p => (hr p).symm, underway_congr hj⟩, fun _ => hr _⟩

/-- A quiet change keeps the lines. -/
theorem of_quiet (h : e.Quiet e') : e.SameLines e' :=
  of_same h.journal fun p => (h.queue p).replacedBy

/-- Queues that are there are not replaced, whatever queues come to them. -/
theorem of_tidy (ht : e'.Tidy) (hu : e'.underway = e.underway)
    (hr : ∀ p, p < e.queues.size → (e'.queue p).replacedBy = (e.queue p).replacedBy) :
    e.SameLines e' := by
  refine ⟨.of_tidy ht hu fun p r hlt hp => ?_, hr _⟩
  rwa [hr p (Nat.lt_trans (ht.replacedBy hp).1 hlt)] at hp

end SameLines

/-! ## Free queues -/

/-- The entry delays a queue. -/
def IsWait (e : Engine) (n : EntryRef) : Prop :=
  (e.entry n).code.handler.behaviour = .wait

/-- A `wait` stays a `wait`. -/
theorem IsWait.later {e e' : Engine} {n : EntryRef} (h : e.IsWait n) (hk : e.Keeps e')
    (hn : n < e.entries.size) : e'.IsWait n := by
  unfold IsWait
  rw [hk.code hn]
  exact h

/-- If an entry is under way on the line of the queue, it is a `wait`, or a `wait` that was begun later is
under way. -/
structure Free (e : Engine) (q : QueueRef) : Prop where
  here : q < e.queues.size
  traced {x : QueueRef × EntryRef} : x ∈ e.underway → x.2 < e.entries.size
  waits {inner outer : List (QueueRef × EntryRef)} {x : QueueRef × EntryRef} :
    e.underway = inner ++ x :: outer → e.LeadsTo x.1 q → ∃ w ∈ inner ++ [x], e.IsWait w.2

/-- If entries are under way, the innermost one is a `wait`. -/
def Delays (e : Engine) : Prop :=
  ∀ x, e.underway.head? = some x → e.IsWait x.2

namespace Free

variable {e e' : Engine} {q : QueueRef}

/-- The innermost entry is among those that an entry and later ones make up. -/
theorem head_mem {α : Type} {inner outer : List α} {x y : α}
    (h : (inner ++ x :: outer).head? = some y) : y ∈ inner ++ [x] := by
  cases inner with
  | nil => exact List.mem_singleton.2 (Option.some.inj h).symm
  | cons z rest =>
    cases h
    exact List.mem_cons_self

/-- The line of a queue stays free. -/
theorem later (h : e.Free q) (ho : e.Onward e') (hg : e.Grows e') (hk : e.Keeps e') : e'.Free q where
  here := Nat.lt_of_lt_of_le h.here hg.queues
  traced hx := by
    rw [ho.underway] at hx
    exact Nat.lt_of_lt_of_le (h.traced hx) hg.entries
  waits {inner outer x} hu hl := by
    rw [ho.underway] at hu
    obtain ⟨w, hw, wait⟩ := h.waits hu (ho.leads h.here hl)
    have among : w ∈ e.underway := by
      rw [hu]
      rcases List.mem_append.1 hw with hw | hw
      · exact List.mem_append_left _ hw
      · rw [List.mem_singleton.1 hw]
        exact List.mem_append_right _ List.mem_cons_self
    exact ⟨w, hw, wait.later hk (h.traced among)⟩

/-- When nothing is under way, every queue is free. -/
theorem of_idle (hq : q < e.queues.size) (hu : e.underway = []) : e.Free q where
  here := hq
  traced hx := by
    rw [hu] at hx
    cases hx
  waits {inner outer x} hx := by
    rw [hu] at hx
    cases inner <;> cases hx

/-- A queue that came in no other's place is free, if entries under way are older. -/
theorem of_new (ho : e.Orderly) (hq : q < e.queues.size) (hn : ∀ p, (e.queue p).replacedBy ≠ some q)
    (hu : ∀ x ∈ e.underway, x.1 ≠ q) : e.Free q where
  here := hq
  traced hx := (ho.underway hx).2
  waits {inner outer x} hx hl := by
    refine absurd (hl.eq_of_new hn) (hu x ?_)
    rw [hx]
    exact List.mem_append_right _ List.mem_cons_self

/-- The line of a new queue is free. -/
theorem make (ho : e.Orderly) {x : Queue} (hx : x.IsNew) (hw : (e.withQueue x).Orderly) :
    (e.withQueue x).Free e.queues.size := by
  refine of_new hw (by simp) (fun p hp => ?_) fun y hy h => ?_
  · rw [e.queue_withQueue] at hp
    split at hp
    · rw [hx.replacedBy] at hp
      cases hp
    · exact absurd (ho.healthy.tidy.replacedBy hp).2 (Nat.lt_irrefl _)
  · exact absurd (ho.underway hy).1 (Nat.not_lt.2 (Nat.le_of_eq h.symm))

/-- What comes in the place of a queue that is to wait is free. -/
theorem of_converts (hd : e.Delays) (ho : e.Orderly) (h : e.Converts q e') : e'.Free e.queues.size where
  here := by
    rw [h.queues]
    exact Nat.lt_succ_self _
  traced hx := by
    rw [underway_congr h.journal] at hx
    rw [h.moved.size]
    exact (ho.underway hx).2
  waits {inner outer x} hu _ := by
    rw [underway_congr h.journal] at hu
    cases hw : e.underway.head? with
    | none =>
      rw [hu] at hw
      cases inner <;> cases hw
    | some w =>
      refine ⟨w, head_mem (by rw [← hu, hw]), ?_⟩
      unfold IsWait
      rw [h.moved.code]
      exact hd w hw

end Free

end Engine

/-! ## The entry whose command runs -/

/-- The command may end a loop early, or its current iteration. -/
def Compiled.LeavesLoop (c : Compiled) : Prop :=
  c.handler.behaviour = .loop ∧ ∃ word ∈ ["stop", "next"],
    (c.argument? word).isSome = true ∨ c.literals.contains (Text.lower word) = true

namespace Engine

/-- A queue has begun the entry and runs its command, and the entries that were pending when the entry was
begun still are. -/
structure Executes (e : Engine) (q : QueueRef) (n : EntryRef) : Prop where
  queue : q < e.queues.size
  live : e.Live n
  residing : (e.entry n).residing = some q
  active : Drive.isActive e q = true
  began : ∃ before previous,
    Step.began q n before previous ∈ e.journal ∧ before.pending = (e.queue q).pending
  innermost : e.underway.head? = some (q, n)

namespace Executes

variable {e e' : Engine} {q : QueueRef} {n : EntryRef}

/-- An entry that is executed is there. -/
theorem entry (h : e.Executes q n) : n < e.entries.size :=
  h.live.1

/-- A queue that executes an entry runs. -/
theorem running (h : e.Executes q n) : (e.queue q).state = .running :=
  eq_of_beq (Bool.and_eq_true_iff.1 h.active).1

/-- A queue that executes an entry was not replaced. -/
theorem current (h : e.Executes q n) : (e.queue q).replacedBy = none :=
  Option.isNone_iff_eq_none.1 (Bool.and_eq_true_iff.1 h.active).2

/-- An entry that is executed is on the queue that executes it. -/
theorem residingQueue (h : e.Executes q n) : e.residingQueue n = some q := by
  unfold Engine.residingQueue
  rw [h.residing]
  exact congrArg some (e.follow_self h.current)

/-- A `wait` that is executed delays what follows. -/
theorem delays (h : e.Executes q n) (hw : e.IsWait n) : e.Delays := by
  intro x hx
  obtain rfl := Option.some.inj (h.innermost.symm.trans hx)
  exact hw

/-- The entry gets notes, and procedures run. -/
theorem apart {X : List EntryRef} (h : e.Executes q n) (ha : e.Apart X e') (hu : e'.underway = e.underway) :
    e'.Executes q n where
  queue := Nat.lt_of_lt_of_le h.queue ha.queues
  live := ha.live h.live
  residing := (ha.residing h.entry).trans h.residing
  active := by
    unfold Drive.isActive
    rw [ha.queue h.queue]
    exact h.active
  began := by
    obtain ⟨before, previous, hb, hp⟩ := h.began
    exact ⟨before, previous, ha.journal.mem hb, by rw [ha.queue h.queue, hp]⟩
  innermost := by rw [hu, h.innermost]

/-- A quiet change leaves an entry executed. -/
theorem quiet (h : e.Executes q n) (hq : e.Quiet e') (hg : e.Grows e') : e'.Executes q n where
  queue := Nat.lt_of_lt_of_eq h.queue hq.queues.symm
  live := hg.live h.live
  residing := (hq.residing h.entry).trans h.residing
  active := by
    unfold Drive.isActive
    rw [(hq.queue q).state, (hq.queue q).replacedBy]
    exact h.active
  began := by
    obtain ⟨before, previous, hb, hp⟩ := h.began
    exact ⟨before, previous, by rwa [hq.journal], by rw [(hq.queue q).pending, hp]⟩
  innermost := by rw [underway_congr hq.journal, h.innermost]

/-- An entry that an active queue begins is executed. -/
theorem begun {rest : List EntryRef} (ho : e.Orderly) (hq : q < e.queues.size)
    (hp : (e.queue q).pending = n :: rest) (ha : Drive.isActive e q = true) :
    (e.begun q n rest).Executes q n := by
  have hmem : n ∈ (e.queue q).pending := by
    rw [hp]
    exact List.mem_cons_self
  have here := e.queue_begun hq n rest
  refine ⟨?_, ho.healthy.tidy.pending q n hmem, ho.settled hmem, ?_, ?_, rfl⟩
  · unfold Engine.begun
    simpa using hq
  · unfold Drive.isActive at ha ⊢
    rw [here]
    exact ha
  · refine ⟨_, _, List.mem_cons_self, ?_⟩
    rw [here, e.queue_changeQueue_self hq]

end Executes

end Engine

end QueueScript
