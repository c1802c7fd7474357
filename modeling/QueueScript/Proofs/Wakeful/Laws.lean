import QueueScript.Proofs.Wakeful.Still

/-!
# The discipline of wakeful engines

Entries that are being run are not expected to be eased yet, so there is one discipline for every list
`X` of such entries; a queue that begins an entry goes from one of them to the next and back.  The
changes that do move something are taken as a whole: the end of a queue, which tells its listeners;
the replacement of a queue, whose listeners move; and the beat that takes all handoffs.
-/

namespace QueueScript

namespace Discipline

/-- Wakeful engines, apart from the entries `X` that are being run. -/
def wakeful (X : List EntryRef) : Discipline where
  inv e := e.Tidy ∧ e.Wakeful X
  le e e' := e.Grows e' ∧ e.Minds e'
  cut _ := True
  own e n := e.Live n
  mine e q := q < e.queues.size
  fresh e q := q < e.queues.size ∧ Listener.Quiet (e.queue q).listeners
  placed e _ n := e.Live n
  fits c := c.Sound
  cared e n := n < e.entries.size ∧ e.Eases n
  marked e n := n < e.entries.size ∧ (e.entry n).isFinished = true
  refl e := ⟨.refl e, (Engine.Unmoved.refl e).minds⟩
  trans h h' := ⟨h.1.trans h'.1, h.2.trans h'.2 h.1.queues⟩
  own_mono h hn := h.1.live hn
  mine_mono h hq := Nat.lt_of_lt_of_le hq h.1.queues
  fresh_mono h hq := ⟨Nat.lt_of_lt_of_le hq.1 h.1.queues, h.2.quiet hq.1 hq.2⟩
  placed_mono h hn := h.1.live hn
  placed_own h := h
  cared_mono h hn := ⟨Nat.lt_of_lt_of_le hn.1 h.1.entries, h.2.eases hn.1 hn.2⟩
  marked_mono h hn := ⟨Nat.lt_of_lt_of_le hn.1 h.1.entries, h.2.marked hn.1 hn.2⟩
  marked_cared h := by
    refine ⟨h.1, fun ha => ?_⟩
    simp [Entry.isAwaited, h.2] at ha

instance (X : List EntryRef) : (wakeful X).Lenient :=
  ⟨fun _ => trivial⟩

instance (X : List EntryRef) : (wakeful X).Open :=
  ⟨fun _ => trivial, fun _ _ => trivial, fun _ _ _ => trivial⟩

namespace Wakeful

variable {α : Type} {X : List EntryRef} {e₀ e e' : Engine} {q : QueueRef}

/-- Tidy engines, whatever their history. -/
abbrev anyTidy : Discipline :=
  tidy fun _ _ => True

/-- Beats leave an engine tidy. -/
theorem anyTidy_beating : anyTidy.Beating :=
  Tidy.beating (R := fun _ => True)

/-! ## Changes that move nothing -/

/-- What keeps an engine tidy and wakeful is a step. -/
theorem join (ht : anyTidy.Step e e') (hw : e'.Wakeful X) (hm : e.Minds e') :
    (wakeful X).Step e e' :=
  ⟨⟨ht.1.1, hw⟩, ht.2, hm⟩

/-- An engine in which nothing has moved is wakeful. -/
theorem still (he : (wakeful X).inv e) (ht : anyTidy.Step e e') (hu : e.Unmoved e') :
    (wakeful X).Step e e' :=
  join ht (hu.wakeful he.1 he.2) hu.minds

/-- An action that keeps engines tidy keeps them wakeful if what it leaves behind is so. -/
theorem leaves {Q : α → Engine → Prop} {r : Except Failure α × Engine}
    (ht : anyTidy.Leaves e Q r)
    (hw : r.1 ≠ .error .exhausted → r.2.Wakeful X ∧ e.Minds r.2) :
    (wakeful X).Leaves e Q r := by
  obtain ⟨r, e'⟩ := r
  cases r with
  | ok a =>
    obtain ⟨hwake, hminds⟩ := hw nofun
    exact ⟨join ht.1 hwake hminds, ht.2⟩
  | error f =>
    cases f with
    | exhausted => trivial
    | _ =>
      obtain ⟨hwake, hminds⟩ := hw nofun
      exact join ht hwake hminds

/-- An action that keeps engines tidy and moves nothing. -/
theorem gives_still {a : Action α} {Q : α → Engine → Prop} (ht : anyTidy.Gives e₀ a Q)
    (hs : Action.Still a) : (wakeful X).Gives e₀ a Q := by
  refine ⟨fun e he hl => leaves (ht.run e ⟨he.1, trivial⟩ hl.1) fun _ => ?_⟩
  exact ⟨(hs.run e).wakeful he.1 he.2, (hs.run e).minds⟩

/-- The change of an entry leaves an engine wakeful, unless it unmarks the entry. -/
theorem entry (n : EntryRef) {f : Entry → Entry} (he : (wakeful X).inv e)
    (ht : anyTidy.Step e (e.changeEntry n f)) (hs : Entry.Steadies f)
    (hf : ∀ x, (f x).isFinished = x.isFinished) : (wakeful X).Step e (e.changeEntry n f) :=
  still he ht (e.unmoved_changeEntry n hs fun x h => (hf x).trans h)

/-- What every command does leaves an engine wakeful. -/
theorem bookkeeping : (wakeful X).Bookkeeping where
  emit event s he := still he (Tidy.emit event s ⟨he.1, trivial⟩) ((Action.still_emit event s).run _)
  jot {e n f} he hn hf := by
    refine entry n he (Tidy.bookkeeping.jot ⟨he.1, trivial⟩ hn hf) hf.steadies fun x => ?_
    obtain ⟨_, _, _, h⟩ := hf x
    rw [h]
  finish {e n} he hn := by
    have step : (wakeful X).Step e (e.changeEntry n ({ · with isFinished := true })) :=
      still he (Tidy.bookkeeping.finish ⟨he.1, trivial⟩ hn).1 ((Action.still_finish n).run e)
    refine ⟨step, ((wakeful X).own_mono step.2 hn).1, ?_⟩
    exact congrArg Entry.isFinished (e.entry_changeEntry_self hn.1 _)
  memory f he hq := by
    refine still he (Tidy.bookkeeping.memory f ⟨he.1, trivial⟩ hq) ?_
    exact Engine.unmoved_of_tables rfl rfl rfl rfl (fun _ h => h) fun _ h => h
  residing he _ h := he.1.residingQueue_lt h
  eased_mono h hn he := by
    refine he.imp (fun hc => (wakeful X).cared_mono h hc) fun hh => ?_
    rw [h.2.code hn.1]
    exact hh

/-! ## The ends of a queue -/

/-- The second engine has dropped the listeners of a queue, which may have ended; nothing else was
moved. -/
structure Dropped (e : Engine) (q : QueueRef) (e' : Engine) : Prop extends Engine.Keeps e e' where
  last (p : QueueRef) : (e'.queue p).last = (e.queue p).last
  listeners : (e'.queue q).listeners = []
  other {p : QueueRef} : p ≠ q → (e'.queue p).listeners = (e.queue p).listeners
  alive {p : QueueRef} : p ≠ q → (e.queue p).state.isEnd = false → (e'.queue p).state.isEnd = false
  inFlight : ∀ w ∈ e.inFlight, w ∈ e'.inFlight
  handoffs : ∀ h ∈ e.handoffs, h ∈ e'.handoffs
  journal : e'.journal = e.journal

/-- A queue that was changed in other ways and then loses its listeners has dropped them. -/
theorem dropped {f : Queue → Queue} {x : Engine} (hl : ∀ y, (f y).last = y.last)
    (hs : ∀ y, (f y).listeners = y.listeners) (h : (e.changeQueue q f).Unmoved x) :
    Dropped e q (x.changeQueue q ({ · with listeners := [] })) where
  toKeeps := ((e.keeps_changeQueue q f).trans h.toKeeps).trans (x.keeps_changeQueue q _)
  last p := by
    have hx : ((x.changeQueue q ({ · with listeners := [] })).queue p).last = (x.queue p).last :=
      x.queue_changeQueue_keep (f := ({ · with listeners := [] })) (g := Queue.last) (fun _ => rfl) q p
    rw [hx, h.last]
    exact e.queue_changeQueue_keep hl q p
  listeners := by
    rw [Engine.queue_changeQueue]
    split
    · rfl
    · rename_i hq
      rw [x.queue_of_size_le (Nat.le_of_not_lt fun hlt => hq ⟨rfl, hlt⟩)]
      rfl
  other {p} hp := by
    rw [x.queue_changeQueue_of_ne (Ne.symm hp), h.listeners]
    exact e.queue_changeQueue_keep hs q p
  alive hp ha := by
    rw [x.queue_changeQueue_of_ne (Ne.symm hp)]
    refine h.not_ended ?_
    rwa [e.queue_changeQueue_of_ne (Ne.symm hp)]
  inFlight := h.inFlight
  handoffs := h.handoffs
  journal := h.journal

/-- What is done before the listeners of a queue are told. -/
theorem complete_eq (e : Engine) (q : QueueRef) :
    ∃ x, e.Unmoved x ∧ Queues.complete q e =
      Action.each (Queues.tell q) (e.queue q).listeners
        (x.changeQueue q ({ · with listeners := [] })) := by
  let x := (Queues.unregister q e).2
  have hx : e.Unmoved x := (Action.still_unregister q).run e
  let s : Scope := { queue := some (x.queue q).id }
  let event := Event.trace
    ("Completed queue '" ++ (x.queue q).id ++ "' (" ++ (x.queue q).state.name ++ ")") s
  refine ⟨x.emit event s, hx.trans ((Action.still_emit event s).run x), ?_⟩
  rw [← hx.listeners]
  rfl

/-- A queue that ends marks the entries that waited for it, so nothing that was eased is lost. -/
theorem told_minds (hw : e.Wakeful X) {x y : Engine} (h : Dropped e q x)
    (hy : y = (Action.each (Queues.tell q) (e.queue q).listeners x).2) : e.Minds y := by
  have hmarked := (Queues.told q (hw.listeners q) x).2
  have later : x.Unmoved (Action.each (Queues.tell q) (e.queue q).listeners x).2 :=
    (Action.still_each (Action.still_tell q)).run x
  rw [← hy] at hmarked later
  refine ⟨h.toKeeps.trans later.toKeeps, fun {n} hn heases ha => ?_, fun {p} _ hp => ?_⟩
  · have hn₁ : n < x.entries.size := Nat.lt_of_lt_of_le hn h.size
    rcases heases (h.awaited hn (later.awaited hn₁ ha)) with ⟨w, hwork, rfl⟩ | ⟨o, ho⟩ | ⟨p, hp, hend⟩
    · exact later.settles (.inl ⟨w, h.inFlight w hwork, rfl⟩)
    · exact later.settles (.inr (.inl ⟨o, h.handoffs _ ho⟩))
    · by_cases hpq : p = q
      · rw [hpq] at hp
        simp [Entry.isAwaited, hmarked n hp hn₁] at ha
      · exact later.settles (.inr (.inr ⟨p, by rwa [h.other hpq], h.alive hpq hend⟩))
  · rw [later.listeners]
    by_cases hpq : p = q
    · rw [hpq, h.listeners]
      exact fun l hl => absurd hl List.not_mem_nil
    · rwa [h.other hpq]

/-- An engine is wakeful when all listeners of a queue were told. -/
theorem told_wakeful (he : (wakeful X).inv e) {x y : Engine} (h : Dropped e q x)
    (hy : y = (Action.each (Queues.tell q) (e.queue q).listeners x).2) : y.Wakeful X := by
  have later : x.Unmoved y := by
    rw [hy]
    exact (Action.still_each (Action.still_tell q)).run x
  refine (told_minds he.2 h hy).wakeful he.1 he.2 (later.journal.trans h.journal)
    (fun p n hn => ⟨p, ?_⟩) fun p => ?_
  · rwa [later.last, h.last] at hn
  · rw [later.listeners]
    by_cases hpq : p = q
    · rw [hpq, h.listeners]
      exact List.Pairwise.nil
    · rw [h.other hpq]
      exact he.2.listeners p

/-- A queue is ended in either way. -/
theorem safe_end {f : Queue → Queue} (hl : ∀ x, (f x).last = x.last)
    (hs : ∀ x, (f x).listeners = x.listeners)
    (ht : anyTidy.Safe e₀ (do
      unless (← Action.queue q).state.isEnd do
        Action.changeQueue q f
        Queues.complete q)) :
    (wakeful X).Safe e₀ (do
      unless (← Action.queue q).state.isEnd do
        Action.changeQueue q f
        Queues.complete q) := by
  refine ⟨fun e he hle => leaves (ht.run e ⟨he.1, trivial⟩ hle.1) fun _ => ?_⟩
  by_cases hend : (e.queue q).state.isEnd = true
  · have heq : (do
        unless (← Action.queue q).state.isEnd do
          Action.changeQueue q f
          Queues.complete q : Action Unit) e = (.ok (), e) := by
      show (if (e.queue q).state.isEnd then pure () else _ : Action Unit) e = _
      rw [if_pos hend]
      rfl
    rw [heq]
    exact ⟨he.2, (Engine.Unmoved.refl e).minds⟩
  · obtain ⟨x, hx, hcomplete⟩ := complete_eq (e.changeQueue q f) q
    have heq : (do
        unless (← Action.queue q).state.isEnd do
          Action.changeQueue q f
          Queues.complete q : Action Unit) e = Queues.complete q (e.changeQueue q f) := by
      show (if (e.queue q).state.isEnd then pure () else _ : Action Unit) e = _
      rw [if_neg hend]
      rfl
    have hlisteners : ((e.changeQueue q f).queue q).listeners = (e.queue q).listeners :=
      e.queue_changeQueue_keep hs q q
    rw [heq, hcomplete, hlisteners]
    exact ⟨told_wakeful he (dropped hl hs hx) rfl, told_minds he.2 (dropped hl hs hx) rfl⟩

/-- An engine is wakeful when a queue was stopped. -/
theorem safe_stop : (wakeful X).Safe e₀ (Queues.stop q) :=
  safe_end (fun _ => rfl) (fun _ => rfl) Tidy.closing.safe_stop

/-- An engine is wakeful when a queue has ended by itself. -/
theorem safe_finish : (wakeful X).Safe e₀ (Queues.finish q) :=
  safe_end (fun _ => rfl) (fun _ => rfl) Tidy.closing.safe_finish

/-! ## Listeners -/

/-- A listener is added at the end, where it may stand. -/
theorem heard (he : (wakeful X).inv e) (l : Listener)
    (hl : l.isFinish = true → Listener.Quiet (e.queue q).listeners) :
    let e' := e.changeQueue q fun x => { x with listeners := x.listeners ++ [l] }
    e'.Wakeful X ∧ (l.isFinish = true → e.Minds e') := by
  intro e'
  have listeners (p : QueueRef) : (e'.queue p).listeners = (e.queue p).listeners ∨
      p = q ∧ (e'.queue p).listeners = (e.queue p).listeners ++ [l] := by
    simp only [e', Engine.queue_changeQueue]
    split
    · rename_i h
      exact .inr ⟨h.1.symm, rfl⟩
    · exact .inl rfl
  have last (p : QueueRef) : (e'.queue p).last = (e.queue p).last :=
    e.queue_changeQueue_keep (f := fun x => { x with listeners := x.listeners ++ [l] })
      (g := Queue.last) (fun _ => rfl) q p
  have state (p : QueueRef) : (e'.queue p).state = (e.queue p).state :=
    e.queue_changeQueue_keep (f := fun x => { x with listeners := x.listeners ++ [l] })
      (g := Queue.state) (fun _ => rfl) q p
  have keeps : e.Keeps e' := e.keeps_changeQueue q _
  have eases {n : EntryRef} (hn : n < e.entries.size) (h : e.Eases n) : e'.Eases n := by
    intro ha
    refine (h (keeps.awaited hn ha)).imp id fun h => h.imp id fun ⟨p, hp, hend⟩ => ⟨p, ?_, ?_⟩
    · rcases listeners p with h | ⟨-, h⟩
      · rwa [h]
      · rw [h]
        exact List.mem_append_left _ hp
    · rwa [state]
  refine ⟨⟨fun hn => ?_, fun p => ?_, he.2.code, he.2.catalogue, he.2.returned⟩,
    fun hfinish => ⟨keeps, eases, fun {p} _ hp => ?_⟩⟩
  · rw [last] at hn
    exact (he.2.last hn).imp id fun h => eases (he.1.last hn).1 h
  · rcases listeners p with h | ⟨rfl, h⟩
    · rw [h]
      exact he.2.listeners p
    · rw [h]
      refine List.pairwise_append.2 ⟨he.2.listeners p, List.pairwise_singleton _ _, ?_⟩
      intro a ha b hb hf
      rw [List.mem_singleton.1 hb] at hf
      exact hl hf a ha
  · rcases listeners p with h | ⟨-, h⟩
    · rwa [h]
    · rw [h]
      intro a ha
      rcases List.mem_append.1 ha with ha | ha
      · exact hp a ha
      · rw [List.mem_singleton.1 ha]
        exact hfinish

/-- An entry that waits for a queue is eased: the queue has a listener for it, or has ended. -/
theorem gives_listen {n : EntryRef} (hq : (wakeful X).fresh e₀ q) (hn : (wakeful X).own e₀ n) :
    (wakeful X).Gives e₀ (Queues.onComplete q (.finish n)) fun _ e => (wakeful X).cared e n := by
  refine ⟨fun e he hle => ?_⟩
  obtain ⟨hsize, hquiet⟩ := (wakeful X).fresh_mono hle hq
  have hown : e.Live n := (wakeful X).own_mono hle hn
  show (wakeful X).Leaves e _ ((if (e.queue q).state.isEnd then Entries.finish n else _ :
    Action Unit) e)
  split
  · exact (gives_finishEntry bookkeeping.toNoting hown).run e he ((wakeful X).refl e)
  · rename_i hend
    let e' := e.changeQueue q fun x => { x with listeners := x.listeners ++ [.finish n] }
    obtain ⟨hw, hm⟩ := heard he (.finish n) fun _ => hquiet
    have ht : anyTidy.Step e e' :=
      Tidy.closing.hear q ⟨he.1, trivial⟩ fun m hm => by cases hm; exact hown
    have hqueue : e'.queue q = { e.queue q with listeners := (e.queue q).listeners ++ [.finish n] } :=
      e.queue_changeQueue_self hsize _
    refine ⟨join ht hw (hm rfl), hown.1, fun _ => .inr (.inr ⟨q, ?_, ?_⟩)⟩
    · show _ ∈ (e'.queue q).listeners
      rw [hqueue]
      simp
    · show (e'.queue q).state.isEnd = false
      rw [hqueue]
      simpa using hend

/-- The host asks to be told when a queue ends. -/
theorem kept_hear (he : (wakeful X).inv e) (label : String) (error : Option String) :
    (wakeful X).Kept (Queues.onComplete q (.notify label error) e) := by
  by_cases hend : (e.queue q).state.isEnd = true
  · have heq : Queues.onComplete q (.notify label error) e = Queues.tell q (.notify label error) e := by
      show (if (e.queue q).state.isEnd then _ else _ : Action Unit) e = _
      rw [if_pos hend]
    rw [heq]
    exact (gives_still (Tidy.closing.safe_tell fun _ h => by cases h) (Action.still_tell q _)).kept he
  · have heq : Queues.onComplete q (.notify label error) e =
        (.ok (), e.changeQueue q fun x => { x with listeners := x.listeners ++ [.notify label error] }) := by
      show (if (e.queue q).state.isEnd then _ else _ : Action Unit) e = _
      rw [if_neg hend]
      rfl
    rw [heq]
    have ht := Tidy.closing.hear (D := anyTidy) q (l := .notify label error) ⟨he.1, trivial⟩
      fun _ h => by cases h
    exact ⟨fun _ => ⟨ht.1.1, (heard he (.notify label error) nofun).1⟩, trivial⟩

/-! ## Replacement -/

/-- What moves when the queue `q` is replaced by `t`: the entry that ran last and the listeners. -/
def swapped (e : Engine) (q t : QueueRef) : Engine :=
  let o := e.queue q
  (e.changeQueue t ({ · with
    memory := o.memory, determinations := o.determinations, isProcedural := o.isProcedural,
    script := o.script, last := o.last, listeners := o.listeners })).changeQueue q ({ · with
    pending := [], listeners := [], replacedBy := some t, state := .stopped })

/-- What is left to do when the queue `t` has taken the place of `q`. -/
def conclude (q t : QueueRef) (id : String) (d : Option Delay) : Action QueueRef := do
  if d.isSome then Action.changeQueue t ({ · with delay := d })
  Action.trace ("Converted instant queue '" ++ id ++ "' to a timed queue") (← Queues.scope q)
  pure t

/-- Nothing moves when a replacement is reported. -/
theorem still_conclude (q t : QueueRef) (id : String) (d : Option Delay) :
    Action.Still (conclude q t id d) := by
  have trace : Action.Still (do
      Action.trace ("Converted instant queue '" ++ id ++ "' to a timed queue") (← Queues.scope q)
      pure t : Action QueueRef) := by
    refine Action.still_bind ?_ fun s => ?_
    · exact Action.still_bind (Action.still_look _) fun _ => Action.still_pure _
    · exact Action.still_bind (Action.still_emit _ s) fun _ => Action.still_pure _
  show Action.Still (if d.isSome then _ else _)
  split
  · refine Action.still_bind ⟨fun e => ?_⟩ fun _ => trace
    exact e.unmoved_changeQueue t (fun _ => rfl) (fun _ => rfl) fun _ h => h
  · exact trace

/-- The queue that is to take the place of another one, as it is made. -/
def replacement (e : Engine) (q : QueueRef) : Queue :=
  { id := (e.queue q).id, name := (e.queue q).name, pace := .timed, memory := e.memories.size }

/-- The replacement of a queue is a new queue. -/
theorem replacement_isNew (e : Engine) (q : QueueRef) : (replacement e q).IsNew :=
  ⟨rfl, rfl, rfl, rfl, rfl, rfl, rfl⟩

/-- A queue is replaced in three parts: its entries are placed on a new one, what it shares is swapped,
and the delay is set. -/
theorem replaceByTimed_parts (d : Option Delay) (e : Engine) (q : QueueRef) :
    ∃ y, Queues.append e.queues.size ((e.withQueue (replacement e q)).queue q).pending
        (e.withQueue (replacement e q)) = (.ok (), y) ∧
      Queues.replaceByTimed q d e =
        conclude q e.queues.size (e.queue q).id d (swapped y q e.queues.size) := by
  let t := e.queues.size
  let z := e.withQueue (replacement e q)
  obtain ⟨y, hy⟩ : ∃ y, Queues.append t (z.queue q).pending z = (.ok (), y) := by
    have hok : (Action.each (Entries.place · (some t)) (z.queue q).pending z).1 = .ok () :=
      Action.each_ok (fun _ _ => rfl) _ z
    show ∃ y, Action.andThen (Action.each _ _) _ z = _
    unfold Action.andThen
    match hr : Action.each (Entries.place · (some t)) (z.queue q).pending z with
    | (.ok _, y) => exact ⟨_, rfl⟩
    | (.error err, y) =>
      rw [hr] at hok
      cases hok
  have hadopt : Queues.adopt t q z = (.ok (), swapped y q t) := by
    show Action.andThen (Queues.append t (z.queue q).pending) _ z = _
    simp only [Action.andThen, hy]
    rfl
  refine ⟨y, hy, ?_⟩
  show Action.andThen (Queues.adopt t q) _ z = _
  simp only [Action.andThen, hadopt]
  rfl

/-- A queue is replaced by making another one and swapping what they hold. -/
theorem replaceByTimed_eq (d : Option Delay) (he : e.Tidy) (q : QueueRef) :
    ∃ y, e.Unmoved y ∧ e.queues.size < y.queues.size ∧
      (swapped y q e.queues.size).Unmoved (Queues.replaceByTimed q d e).2 := by
  obtain ⟨y, hy, heq⟩ := replaceByTimed_parts d e q
  let x := replacement e q
  have hx : x.IsNew := replacement_isNew e q
  have hz : (e.withQueue x).Tidy := he.withQueue hx
  have htz : e.queues.size < (e.withQueue x).queues.size := by simp
  have appended : anyTidy.Safe (e.withQueue x)
      (Queues.append e.queues.size ((e.withQueue x).queue q).pending) :=
    safe_append Tidy.blocks htz fun n hn => hz.pending q n hn
  have still := (Action.still_append e.queues.size ((e.withQueue x).queue q).pending).run
    (e.withQueue x)
  have grown := appended.run _ ⟨hz, trivial⟩ (Engine.Grows.refl _)
  rw [hy] at still grown
  refine ⟨y, (e.unmoved_withQueue hx).trans still, Nat.lt_of_lt_of_le htz grown.1.2.queues, ?_⟩
  rw [heq]
  exact (still_conclude q e.queues.size (e.queue q).id d).run _

/-- The replacement holds the last entry and the listeners. -/
theorem queue_swapped_new {t : QueueRef} (hqt : q ≠ t) (ht : t < e.queues.size) :
    ((swapped e q t).queue t).last = (e.queue q).last ∧
      ((swapped e q t).queue t).listeners = (e.queue q).listeners ∧
      ((swapped e q t).queue t).state = (e.queue t).state := by
  unfold swapped
  rw [Engine.queue_changeQueue_of_ne _ hqt, Engine.queue_changeQueue_self _ ht]
  exact ⟨rfl, rfl, rfl⟩

/-- The queue that was replaced has no listeners left. -/
theorem queue_swapped_old {t : QueueRef} (hqt : q ≠ t) (hq : q < e.queues.size) :
    ((swapped e q t).queue q).last = (e.queue q).last ∧
      ((swapped e q t).queue q).listeners = [] := by
  unfold swapped
  rw [Engine.queue_changeQueue_self _ (by simpa using hq),
    Engine.queue_changeQueue_of_ne _ (Ne.symm hqt)]
  exact ⟨rfl, rfl⟩

/-- Other queues stay as they are. -/
theorem queue_swapped_other {t p : QueueRef} (hq : p ≠ q) (ht : p ≠ t) :
    (swapped e q t).queue p = e.queue p := by
  unfold swapped
  rw [Engine.queue_changeQueue_of_ne _ (Ne.symm hq), Engine.queue_changeQueue_of_ne _ (Ne.symm ht)]

/-- When a queue is replaced, its listeners go on listening to the new one. -/
theorem replaced_wakeful (he : (wakeful X).inv e) (hq : q < e.queues.size) {y z : Engine}
    (hy : e.Unmoved y) (hsize : e.queues.size < y.queues.size)
    (hz : (swapped y q e.queues.size).Unmoved z) : z.Wakeful X ∧ e.Minds z := by
  have hqt : q ≠ e.queues.size := Nat.ne_of_lt hq
  obtain ⟨newLast, newListeners, newState⟩ := queue_swapped_new hqt hsize
  obtain ⟨oldLast, oldListeners⟩ := queue_swapped_old hqt (Nat.lt_trans hq hsize)
  -- The new number stood for no queue before, so nothing that listened there is lost.
  have hnew : e.queue e.queues.size = default := e.queue_of_size_le (Nat.le_refl _)
  have keeps : e.Keeps z := by
    refine hy.toKeeps.trans (Engine.Keeps.trans ?_ hz.toKeeps)
    exact (y.keeps_changeQueue _ _).trans (Engine.keeps_changeQueue _ _ _)
  have minds : e.Minds z := by
    refine ⟨keeps, fun {n} hn heases ha => ?_, fun {p} hp hquiet => ?_⟩
    · rcases heases (keeps.awaited hn ha) with ⟨w, hw, rfl⟩ | ⟨o, ho⟩ | ⟨p, hp, hend⟩
      · exact .inl ⟨w, hz.inFlight w (hy.inFlight w hw), rfl⟩
      · exact .inr (.inl ⟨o, hz.handoffs _ (hy.handoffs _ ho)⟩)
      · refine hz.settles (.inr (.inr ?_))
        by_cases hpq : p = q
        · refine ⟨e.queues.size, ?_, ?_⟩
          · rwa [newListeners, hy.listeners, ← hpq]
          · rw [newState]
            exact hy.not_ended (by rw [hnew]; rfl)
        · have hpt : p ≠ e.queues.size := by
            rintro rfl
            rw [hnew] at hp
            cases hp
          refine ⟨p, ?_, ?_⟩
          · rwa [queue_swapped_other hpq hpt, hy.listeners]
          · rw [queue_swapped_other hpq hpt]
            exact hy.not_ended hend
    · rw [hz.listeners]
      by_cases hpq : p = q
      · rw [hpq, oldListeners]
        exact fun l hl => absurd hl List.not_mem_nil
      · rwa [queue_swapped_other hpq (Nat.ne_of_lt hp), hy.listeners]
  refine ⟨minds.wakeful he.1 he.2 (hz.journal.trans hy.journal) (fun p n hn => ?_) fun p => ?_, minds⟩
  · rw [hz.last] at hn
    by_cases hpq : p = q
    · rw [hpq, oldLast, hy.last] at hn
      exact ⟨q, hn⟩
    · by_cases hpt : p = e.queues.size
      · rw [hpt, newLast, hy.last] at hn
        exact ⟨q, hn⟩
      · rw [queue_swapped_other hpq hpt, hy.last] at hn
        exact ⟨p, hn⟩
  · rw [hz.listeners]
    by_cases hpq : p = q
    · rw [hpq, oldListeners]
      exact List.Pairwise.nil
    · by_cases hpt : p = e.queues.size
      · rw [hpt, newListeners, hy.listeners]
        exact he.2.listeners q
      · rw [queue_swapped_other hpq hpt, hy.listeners]
        exact he.2.listeners p

/-- An engine is wakeful when a queue was replaced. -/
theorem gives_replace (d : Option Delay) (hq : (wakeful X).mine e₀ q) :
    (wakeful X).Gives e₀ (Queues.replaceByTimed q d) fun t e => (wakeful X).mine e t := by
  refine ⟨fun e he hle => ?_⟩
  have ht := (Tidy.gives_replaceByTimed (P := fun _ _ => True) d hq).run e ⟨he.1, trivial⟩ hle.1
  obtain ⟨y, hy, hsize, hz⟩ := replaceByTimed_eq d he.1 q
  exact leaves ht fun _ => replaced_wakeful he ((wakeful X).mine_mono hle hq) hy hsize hz

/-! ## The laws -/

/-- The commands that run blocks leave an engine wakeful. -/
theorem blocks : (wakeful X).Blocks where
  toBookkeeping := bookkeeping
  based he := he.1.based
  stock_mono h hn := hn.mono h.1 (h.2.code hn.lt)
  grow {e xs ns} he hx hc := by
    obtain ⟨step, live⟩ := (Tidy.blocks (P := fun _ _ => True)).grow ⟨he.1, trivial⟩ hx fun _ _ => trivial
    exact ⟨still he step (e.unmoved_grown hc), live⟩
  place he hn hr hq := by
    obtain ⟨step, put⟩ := (Tidy.blocks (P := fun _ _ => True)).place ⟨he.1, trivial⟩ hn hr hq
    exact ⟨entry _ he step ⟨fun _ => rfl, fun _ => rfl⟩ fun _ => rfl, put⟩
  belong he hn ho :=
    entry _ he (Tidy.blocks.belong ⟨he.1, trivial⟩ hn ho) ⟨fun _ => rfl, fun _ => rfl⟩ fun _ => rfl
  loop s he hn := entry _ he (Tidy.blocks.loop s ⟨he.1, trivial⟩ hn) ⟨fun _ => rfl, fun _ => rfl⟩ fun _ => rfl
  hurry b he hn := entry _ he (Tidy.blocks.hurry b ⟨he.1, trivial⟩ hn) ⟨fun _ => rfl, fun _ => rfl⟩ fun _ => rfl
  owner he _ h := he.1.owner h
  pending f he hq h := by
    refine still he (Tidy.blocks.pending f ⟨he.1, trivial⟩ hq h) ?_
    exact Engine.unmoved_changeQueue _ _ (fun _ => rfl) (fun _ => rfl) fun _ h => h
  determine v _ := gives_still (Tidy.closing.safe_determine v) (Action.still_determine _ v)
  stop _ := safe_stop
  fits_code he hn := he.2.code hn.1
  fits_branch hc h := hc.enclosed h
  fits_mark script number he := he.2.catalogue.buildFlat script _ _ number

/-- Turns of queues leave an engine wakeful. -/
theorem turns : (wakeful X).Turns where
  toFilling := blocks.filling
  stop hq := blocks.stop hq
  counters t he := by
    refine still he (Tidy.turns.counters t ⟨he.1, trivial⟩) ?_
    exact Engine.unmoved_of_tables rfl rfl rfl rfl (fun _ h => h) fun _ h => h
  make {e x} he hx hm := by
    have step : (wakeful X).Step e (e.withQueue x) :=
      still he (Tidy.turns.make ⟨he.1, trivial⟩ hx hm).1 (e.unmoved_withQueue hx)
    have size : e.queues.size < (e.withQueue x).queues.size := by simp
    refine ⟨step, size, size, ?_⟩
    rw [Engine.queue_withQueue, if_pos rfl, hx.listeners]
    exact fun l hl => absurd hl List.not_mem_nil
  keep {e n xs ys} he hnone ready hc :=
    still he (Tidy.turns.keep ⟨he.1, trivial⟩ hnone ready fun _ _ => trivial)
      ((e.unmoved_grown (ready.handed_down .enclosed hc)).trans (Engine.unmoved_keepBase _ _ _))
  fits_base he h _ hm := he.2.code (he.1.based.lt (.inl ⟨_, _, h, hm⟩))
  launch {e _} he hq _ := (gives_still (Tidy.safe_launch hq) (Action.still_launch _)).run e he ((wakeful X).refl e)
  finishQueue _ := safe_finish
  delay d he hq := by
    refine still he (Tidy.turns.delay d ⟨he.1, trivial⟩ hq) ?_
    exact Engine.unmoved_changeQueue _ _ (fun _ => rfl) (fun _ => rfl) fun _ h => h
  waiting he _ h := he.1.pending _ _ h
  pace hl hq := ⟨Nat.lt_of_lt_of_le hq hl.1.queues, hl.1.pace hq⟩
  fits_source script _ he _ := he.2.catalogue.buildLines script _
  reads_script _ _ := trivial

/-- The commands that reach beyond their queue leave an engine wakeful. -/
theorem outreach : (wakeful X).Outreach where
  toTurns := turns
  replace d hq := gives_replace d hq
  work {e n} job he hn := by
    refine ⟨still he (Tidy.outreach.work job ⟨he.1, trivial⟩ hn).1 ?_, hn.1, fun _ => ?_⟩
    · exact Engine.unmoved_of_tables rfl rfl rfl rfl (fun _ h => List.mem_append_left _ h)
        fun _ h => h
    · exact .inl ⟨⟨n, job⟩, List.mem_concat_self, rfl⟩
  perform {e} job he := by
    refine still he (Tidy.outreach.perform job ⟨he.1, trivial⟩) ?_
    obtain ⟨files, clock, webPlans, webCalls, h⟩ := Background.perform_eq e job
    rw [h]
    exact Engine.unmoved_of_tables rfl rfl rfl rfl (fun _ h => h) fun _ h => h
  listen hq hn := gives_listen hq hn
  registered he h := he.1.registered?_lt h
  unheld {e n} he hn hb := by
    refine .inr ?_
    cases hh : (e.entry n).code.handler.isHoldable with
    | false => rfl
    | true => exact absurd (hb.symm.trans ((he.2.code hn.1).handler.1 hh)) nofun

end Wakeful

end Discipline

end QueueScript
