import QueueScript.Proofs.Upkeep.Lines

/-!
# Properties that are kept up

A property of orderly engines is *kept up* when it survives quiet changes and each of the moments in
which a queue is filled, made, launched, ended, replaced, begins an entry or drops entries (`Upkeep`).
This is all that has to be shown of it: every command keeps it then.

Some of these moments may ask for more.  `S` says that commands and hosts start queues only under ids that
are free, `T` that hosts, too, fill only queues that were not replaced, and `C` says which queues may be
replaced.

There are two disciplines.  Most actions leave alone which queue came in the place of which
(`Discipline.steady`), so that a queue that is about to be filled is still the last one of its line.
Running an entry may replace queues (`Discipline.upheld`).
-/

namespace QueueScript

/-- What has to be shown of a property of engines for every command to keep it. -/
structure Upkeep (S T : Prop) (C : Engine → QueueRef → Prop) (J : Engine → Prop) : Prop where
  quiet {e e' : Engine} : e.Orderly → J e → e.Quiet e' → e.Grows e' → J e'
  fill {e : Engine} {q : QueueRef} {xs ys : List Entry} {f : List EntryRef → List EntryRef} :
    e.Orderly → J e → q < e.queues.size → (T → (e.queue q).replacedBy = none) →
      e.Fills q xs ys f → J ((e.grown xs).put q ys f)
  drop {e : Engine} {q : QueueRef} {n : EntryRef} (count : Nat) : e.Orderly → J e → e.Executes q n →
    (e.entry n).code.LeavesLoop →
      J (e.changeQueue q fun x => { x with pending := x.pending.drop count })
  make {e : Engine} {x : Queue} : e.Orderly → J e → x.IsNew → J (e.withQueue x)
  launch {e : Engine} {q : QueueRef} : e.Orderly → J e → q < e.queues.size →
    (e.queue q).state = .idle → (S → e.registered? (e.queue q).id = none) → J (e.launched q)
  close {e e' : Engine} {q : QueueRef} {s : QueueState} : e.Orderly → J e → q < e.queues.size →
    (e.queue q).state.isEnd = false → s.isEnd = true → e.Closes q s e' → e.Grows e' → J e'
  convert {e e' : Engine} {q : QueueRef} : e.Orderly → J e → q < e.queues.size → C e q →
    e.Converts q e' → e.Grows e' → J e'
  begins {e : Engine} {q : QueueRef} {n : EntryRef} {rest : List EntryRef} : e.Orderly → J e →
    e.Free q → (e.queue q).pending = n :: rest → Drive.isActive e q = true → J (e.begun q n rest)
  back {e : Engine} (q : QueueRef) (n : EntryRef) (ran : Bool) :
    J e → J { e with journal := .returned q n ran :: e.journal }
  listen {e : Engine} {q : QueueRef} (n : EntryRef) : J e → (e.queue q).state.isEnd = false →
    J (e.changeQueue q fun x => { x with listeners := x.listeners ++ [.finish n] })
  active {e : Engine} {q : QueueRef} : e.Orderly → J e → Drive.isActive e q = true →
    (e.queue q).pace = .instant → C e q
  registered {e : Engine} {q : QueueRef} {id : String} : e.Orderly → J e →
    e.registered? id = some q → (e.queue q).pace = .instant → C e q

/-- The action puts entries that were just made on a queue, and `f` says where. -/
structure Queues.Feeds (q : QueueRef) (feed : List EntryRef → Action Unit)
    (f : List EntryRef → List EntryRef → List EntryRef) : Prop where
  grown (e : Engine) (xs : List Entry) : feed (List.range' e.entries.size xs.length) (e.grown xs) =
    (.ok (), e.put q (xs.map (e.placed q)) (f (List.range' e.entries.size xs.length)))
  perm (ns ms : List EntryRef) : (f ns ms).Perm (ms ++ ns)
  safe {e₀ : Engine} {ns : List EntryRef} : q < e₀.queues.size → (∀ n ∈ ns, e₀.Live n) →
    Discipline.healthy.Safe e₀ (feed ns)

/-- Entries are put behind the pending ones. -/
theorem Queues.Feeds.append (q : QueueRef) : Feeds q (Queues.append q) fun ns ms => ms ++ ns :=
  ⟨fun e => e.append_grown q, fun _ _ => .refl _, Discipline.safe_append Discipline.Healthy.blocks⟩

/-- Entries are put in front of the pending ones. -/
theorem Queues.Feeds.inject (q : QueueRef) : Feeds q (Queues.inject q) fun ns ms => ns ++ ms :=
  ⟨fun e => e.inject_grown q, fun _ _ => List.perm_append_comm,
    Discipline.safe_inject Discipline.Healthy.blocks⟩

/-- Entries that were just made are put on a queue. -/
theorem Queues.Feeds.fills {q : QueueRef} {feed : List EntryRef → Action Unit}
    {f : List EntryRef → List EntryRef → List EntryRef} (h : Feeds q feed f) {e : Engine} {xs ys : List Entry}
    (he : e.Healthy) (hq : q < e.queues.size)
    (hb : e.Brings (xs ++ ys) (List.range' (e.grown xs).entries.size ys.length))
    (hs : ∀ x ∈ xs ++ ys, x.code.Sound) :
    let ns := List.range' (e.grown xs).entries.size ys.length
    let filled := (e.grown xs).put q (ys.map ((e.grown xs).placed q)) (f ns)
    feed ns (e.grown (xs ++ ys)) = (.ok (), filled) ∧ Discipline.healthy.Step e filled ∧
      e.Fills q xs (ys.map ((e.grown xs).placed q)) (f ns) := by
  intro ns filled
  obtain ⟨made, live⟩ := Discipline.Healthy.blocks.grow he hb hs
  have fed := (h.safe (Discipline.healthy.mine_mono made.2 hq) live).run _ made.1
    (Discipline.healthy.refl _)
  have eq := h.grown (e.grown xs) ys
  rw [Engine.grown_grown] at eq
  rw [eq] at fed
  refine ⟨eq, made.trans fed.1, fun y hy => ?_, ?_, fun {n} hle hn => ?_⟩
  · obtain ⟨z, -, rfl⟩ := List.mem_map.1 hy
    rfl
  · rw [List.length_map]
    exact h.perm _ _
  · -- An entry in a block is a base entry since the entries were made.
    have size : n < (e.grown (xs ++ ys)).entries.size := by
      have lt := hn.1
      rwa [Engine.size_put, List.length_map, ← Engine.size_grown, Engine.grown_grown] at lt
    have listed := hb.mem_of_live hle ⟨size, fun h => hn.2 (fed.1.2.1.kept h)⟩
    exact (List.mem_range'_1.1 listed).1

namespace Discipline

/-- Orderly engines with a property, whose lines of queues stay as they are.  Only the last queue of a
line is given to actions. -/
def steady (J : Engine → Prop) : Discipline where
  inv e := e.Orderly ∧ J e
  le e e' := healthy.le e e' ∧ e.SameLines e'
  cut _ := True
  own e n := e.Live n
  mine e q := q < e.queues.size ∧ (e.queue q).replacedBy = none
  fresh e q := e.Free q
  placed e _ n := e.Live n
  fits c := c.Sound
  cared _ _ := True
  marked _ _ := True
  refl e := ⟨healthy.refl e, .refl e⟩
  trans h h' := ⟨healthy.trans h.1 h'.1, h.2.trans h'.2 h.1.1.queues⟩
  own_mono h hn := h.1.1.live hn
  mine_mono h hq := ⟨Nat.lt_of_lt_of_le hq.1 h.1.1.queues, (h.2.replacedBy hq.1).trans hq.2⟩
  fresh_mono h hq := hq.later h.2.toOnward h.1.1 h.1.2
  placed_mono h hn := h.1.1.live hn
  placed_own h := h
  cared_mono _ _ := trivial
  marked_mono _ _ := trivial
  marked_cared _ := trivial

/-- Orderly engines with a property, whose lines of queues grow by new queues. -/
def upheld (J : Engine → Prop) : Discipline where
  inv e := e.Orderly ∧ J e
  le e e' := healthy.le e e' ∧ e.Onward e'
  cut _ := True
  own e n := e.Live n
  mine e q := q < e.queues.size
  fresh e q := e.Free q
  placed e _ n := e.Live n
  fits c := c.Sound
  cared _ _ := True
  marked _ _ := True
  refl e := ⟨healthy.refl e, .refl e⟩
  trans h h' := ⟨healthy.trans h.1 h'.1, h.2.trans h'.2 h.1.1.queues⟩
  own_mono h hn := h.1.1.live hn
  mine_mono h hq := Nat.lt_of_lt_of_le hq h.1.1.queues
  fresh_mono h hq := hq.later h.2 h.1.1 h.1.2
  placed_mono h hn := h.1.1.live hn
  placed_own h := h
  cared_mono _ _ := trivial
  marked_mono _ _ := trivial
  marked_cared _ := trivial

instance (J : Engine → Prop) : (steady J).Lenient :=
  ⟨fun _ => trivial⟩

instance (J : Engine → Prop) : (upheld J).Lenient :=
  ⟨fun _ => trivial⟩

namespace Upheld

variable {α : Type} {S T : Prop} {C : Engine → QueueRef → Prop} {J : Engine → Prop}
  {e₀ e e' : Engine} {q : QueueRef} {n : EntryRef}

/-- What leaves lines alone lets them grow. -/
theorem step (h : (steady J).Step e e') : (upheld J).Step e e' :=
  ⟨h.1, h.2.1, h.2.2.toOnward⟩

/-- What keeps the lines of queues lets them grow. -/
theorem leaves {Q : α → Engine → Prop} {r : Except Failure α × Engine} (h : (steady J).Leaves e Q r) :
    (upheld J).Leaves e Q r := by
  obtain ⟨r, e'⟩ := r
  cases r with
  | ok a => exact ⟨step h.1, h.2⟩
  | error f =>
    cases f with
    | exhausted => trivial
    | _ => exact step h

end Upheld

namespace Steady

variable {α : Type} {S T : Prop} {C : Engine → QueueRef → Prop} {J : Engine → Prop}
  {e₀ e e' : Engine} {q : QueueRef} {n : EntryRef}

/-- What leaves an engine healthy keeps an invariant where it can be shown to. -/
theorem leaves {Q : α → Engine → Prop} {r : Except Failure α × Engine} (hh : healthy.Leaves e Q r)
    (h : healthy.Step e r.2 → (r.2.Orderly ∧ J r.2) ∧ e.SameLines r.2) : (steady J).Leaves e Q r := by
  obtain ⟨r, e'⟩ := r
  cases r with
  | ok a =>
    obtain ⟨inv, same⟩ := h hh.1
    exact ⟨⟨inv, hh.1.2, same⟩, hh.2⟩
  | error f =>
    cases f with
    | exhausted => trivial
    | _ =>
      obtain ⟨inv, same⟩ := h hh
      exact ⟨inv, hh.2, same⟩

/-- An action that keeps engines healthy keeps up a property if what it leaves behind has it. -/
theorem gives {a : Action α} {Q : α → Engine → Prop} (hh : healthy.Gives e₀ a Q)
    (h : ∀ e, (steady J).inv e → healthy.le e₀ e → healthy.Step e (a e).2 →
      ((a e).2.Orderly ∧ J (a e).2) ∧ e.SameLines (a e).2) : (steady J).Gives e₀ a Q :=
  ⟨fun e he hl => leaves (hh.run e he.1.healthy hl.1) fun step => h e he hl.1 step⟩

variable (hJ : Upkeep S T C J)

include hJ

/-- A quiet change is a step. -/
theorem quiet (he : (steady J).inv e) (hh : healthy.Step e e') (hq : e.Quiet e') :
    (steady J).Step e e' :=
  ⟨⟨he.1.quiet hh.1 hq, hJ.quiet he.1 he.2 hq hh.2.1⟩, hh.2, .of_quiet hq⟩

/-- An action that keeps engines healthy and is quiet. -/
theorem gives_quiet {a : Action α} {Q : α → Engine → Prop} (hh : healthy.Gives e₀ a Q)
    (hq : ∀ e : Engine, e.Quiet (a e).2) : (steady J).Gives e₀ a Q :=
  gives hh fun e he _ step =>
    ⟨⟨he.1.quiet step.1 (hq e), hJ.quiet he.1 he.2 (hq e) step.2.1⟩, .of_quiet (hq e)⟩

/-- New entries are put on a queue. -/
theorem put (he : (steady J).inv e) (hq : q < e.queues.size)
    (hlast : T → (e.queue q).replacedBy = none) {xs ys : List Entry} {f : List EntryRef → List EntryRef}
    (hh : ((e.grown xs).put q ys f).Healthy) (hf : e.Fills q xs ys f) :
    (((e.grown xs).put q ys f).Orderly ∧ J ((e.grown xs).put q ys f)) ∧
      e.SameLines ((e.grown xs).put q ys f) :=
  ⟨⟨he.1.put hh hf, hJ.fill he.1 he.2 hq hlast hf⟩,
    .of_same rfl ((e.grown xs).queue_put_keep q ys f fun _ _ => rfl)⟩

/-- New entries, without blocks that were made with them, are put at the head of a queue. -/
theorem putFirst (he : (steady J).inv e) (hq : (steady J).mine e q) {ys : List Entry}
    (hy : ∀ y ∈ ys, y.residing = some q)
    (hh : (e.put q ys (List.range' e.entries.size ys.length ++ ·)).Healthy) :
    ((e.put q ys (List.range' e.entries.size ys.length ++ ·)).Orderly ∧
        J (e.put q ys (List.range' e.entries.size ys.length ++ ·))) ∧
      e.SameLines (e.put q ys (List.range' e.entries.size ys.length ++ ·)) := by
  have fills : e.Fills q [] ys (List.range' e.entries.size ys.length ++ ·) := by
    refine ⟨hy, ?_, fun hle _ => ?_⟩ <;> rw [e.grown_nil]
    · exact List.perm_append_comm
    · exact hle
  have filled := put hJ (T := T) he hq.1 (fun _ => hq.2) (e.grown_nil.symm ▸ hh) fills
  rwa [e.grown_nil] at filled

/-- What every command does keeps the invariant. -/
theorem bookkeeping : (steady J).Bookkeeping where
  emit event s he := quiet hJ he (Healthy.bookkeeping.emit event s he.1.healthy) (.emit _ event s)
  jot {e n f} he hn hf := by
    refine quiet hJ he (Healthy.bookkeeping.jot he.1.healthy hn hf)
      (.changeEntry _ _ (fun x => ?_) fun x => ?_)
    all_goals
      obtain ⟨_, _, _, h⟩ := hf x
      rw [h]
  finish {e n} he hn := ⟨quiet hJ he (Healthy.bookkeeping.finish he.1.healthy hn).1
    (.changeEntry e n (f := ({ · with isFinished := true })) (fun _ => rfl) fun _ => rfl), trivial⟩
  memory f he hq := quiet hJ he (Healthy.bookkeeping.memory f he.1.healthy hq.1)
    (.of_tables rfl rfl rfl rfl rfl)
  residing he _ h := ⟨he.1.healthy.tidy.residingQueue_lt h, he.1.healthy.tidy.residingQueue_end h⟩
  eased_mono _ _ _ := .inl trivial

/-! ## Blocks -/

omit hJ in
/-- Base entries may be cloned. -/
theorem clonable {D : Discipline} {ms : List EntryRef} (he : (steady J).inv e) (hl : (steady J).le e₀ e)
    (hm : ∀ m ∈ ms, D.Stock e₀ m) : e.Clonable ms :=
  he.1.healthy.tidy.based.clonable fun m h => hl.1.1.kept (hm m h).base

/-- The entries of a block are put at the head of a queue. -/
theorem block {ms : List EntryRef} (hn : e₀.Live n) (hq : (steady J).mine e₀ q)
    (hm : ∀ m ∈ ms, (steady J).Stock e₀ m) :
    (steady J).Safe e₀ (do Queues.inject q (← Entries.spawn n ms)) := by
  refine ⟨fun e he hl => ?_⟩
  have stock : ∀ m ∈ ms, healthy.Stock e₀ m := fun m h => ⟨(hm m h).lt, (hm m h).base, (hm m h).fits⟩
  have safe := (safe_injectBlock Healthy.blocks hn hq.1 stock).run e he.1.healthy hl.1
  refine leaves safe fun step => ?_
  have eq : (do Queues.inject q (← Entries.spawn n ms) : Action Unit) e =
      (.ok (), e.injected n q false (ms.map e.entry)) :=
    e.inject_spawn n q (clonable he hl hm)
  rw [eq] at step ⊢
  let ys := (ms.map e.entry).map fun x => { e.placed q (e.child n x) with forcedInstant := false }
  have resides : ∀ y ∈ ys, y.residing = some q := fun y hy => by
    obtain ⟨x, -, rfl⟩ := List.mem_map.1 hy
    rfl
  have put := putFirst hJ he ((steady J).mine_mono hl hq) resides
  rw [List.length_map] at put
  exact put step.1

/-- The entries of a round are put at the head of a queue. -/
theorem round {owner : EntryRef} {body : List EntryRef} (ho : e₀.Live owner)
    (hq : (steady J).mine e₀ q) (hm : ∀ m ∈ body, (steady J).Stock e₀ m) :
    (steady J).Safe e₀ (Commands.Loop.injectIteration owner q body) := by
  refine ⟨fun e he hl => ?_⟩
  have stock : ∀ m ∈ body, healthy.Stock e₀ m := fun m h => ⟨(hm m h).lt, (hm m h).base, (hm m h).fits⟩
  have safe := (safe_injectIteration Healthy.blocks ho hq.1 stock).run e he.1.healthy hl.1
  refine leaves safe fun step => ?_
  obtain ⟨events, xs, eq, residing⟩ :=
    Commands.Loop.injectIteration_put e owner q (clonable he hl hm)
  rw [eq] at step ⊢
  have noted : (steady J).Step e { e with events } := by
    refine quiet hJ he (Healthy.step he.1.healthy ?_ (Engine.keeps_of_tables rfl rfl))
      (.of_tables rfl rfl rfl rfl rfl)
    exact Tidy.aside ⟨he.1.healthy.tidy, trivial⟩
      ⟨rfl, rfl, fun _ h => .inl h, rfl, rfl, rfl, fun _ => rfl⟩
  obtain ⟨inv, lines⟩ := putFirst hJ noted.1 ((steady J).mine_mono ((steady J).trans hl noted.2) hq)
    residing step.1
  exact ⟨inv, noted.2.2.trans lines (Nat.le_refl _)⟩

/-- Commands that run blocks keep the invariant. -/
theorem weaving : (steady J).Weaving where
  toBookkeeping := bookkeeping hJ
  based he := he.1.healthy.tidy.based
  stock_mono h hn := hn.mono h.1.1 (h.1.2.code hn.lt)
  loop s he hn := quiet hJ he (Healthy.blocks.loop s he.1.healthy hn)
    (.changeEntry _ _ (f := ({ · with loop := some s })) (fun _ => rfl) fun _ => rfl)
  owner he hn h := Healthy.blocks.owner he.1.healthy hn h
  block hn hq hm := block hJ hn hq hm
  round ho hq hm := round hJ ho hq hm
  fits_code he hn := he.1.healthy.code hn.1
  fits_branch hc h := hc.enclosed h

/-! ## Queues that are filled and run -/

/-- A queue that has not ended is ended in either way. -/
theorem closed {a : Action Unit} (he : (steady J).inv e) (hh : healthy.Leaves e (fun _ _ => True) (a e))
    {s : QueueState} (hs : s.isEnd = true) (hq : q < e.queues.size)
    (hend : (e.queue q).state.isEnd = false) (hc : e.Closes q s (a e).2) :
    (steady J).Leaves e (fun _ _ => True) (a e) :=
  leaves hh fun step => ⟨⟨hc.orderly hs he.1 step.1, hJ.close he.1 he.2 hq hend hs hc step.2.1⟩,
    .of_same hc.journal hc.replaced⟩

/-- A queue that is stopped leaves the invariant. -/
theorem leaves_stop (he : (steady J).inv e) (hq : q < e.queues.size) :
    (steady J).Leaves e (fun _ _ => True) (Queues.stop q e) := by
  cases hend : (e.queue q).state.isEnd with
  | false =>
    have hh := (Healthy.blocks.stop hq).run e he.1.healthy (healthy.refl e)
    exact closed hJ he hh rfl hq hend (.of_stop hq hend)
  | true =>
    show (steady J).Leaves e _ ((if (e.queue q).state.isEnd then pure () else _ : Action Unit) e)
    rw [if_pos hend]
    exact ⟨Step.refl he, trivial⟩

/-- A queue that ends by itself leaves the invariant. -/
theorem leaves_finish (he : (steady J).inv e) (hq : q < e.queues.size) :
    (steady J).Leaves e (fun _ _ => True) (Queues.finish q e) := by
  cases hend : (e.queue q).state.isEnd with
  | false =>
    have hh := (Healthy.running.finishQueue hq).run e he.1.healthy (healthy.refl e)
    exact closed hJ he hh rfl hq hend (.of_finish hq hend)
  | true =>
    show (steady J).Leaves e _ ((if (e.queue q).state.isEnd then pure () else _ : Action Unit) e)
    rw [if_pos hend]
    exact ⟨Step.refl he, trivial⟩

/-- A queue may be delayed. -/
theorem step_delay (d : Option Delay) (he : (steady J).inv e) (hq : q < e.queues.size) :
    (steady J).Step e (e.changeQueue q ({ · with delay := d })) :=
  quiet hJ he (Healthy.running.delay d he.1.healthy hq)
    (.changeQueue _ q fun _ => ⟨rfl, rfl, rfl, rfl, rfl, rfl⟩)

/-- An outcome keeps the invariant. -/
theorem safe_determine (hq : q < e₀.queues.size) (v : Value) :
    (steady J).Safe e₀ (Queues.determine q v) :=
  gives_quiet hJ (Healthy.blocks.determine v hq) fun e => .determine e q v

/-- Entries that were just made are put on a queue. -/
theorem leaves_put {feed : List EntryRef → Action Unit} {f : List EntryRef → List EntryRef → List EntryRef}
    {xs ys : List Entry} (hfeed : Queues.Feeds q feed f) (he : (steady J).inv e) (hq : q < e.queues.size)
    (hlast : T → (e.queue q).replacedBy = none)
    (hb : e.Brings (xs ++ ys) (List.range' (e.grown xs).entries.size ys.length))
    (hs : ∀ x ∈ xs ++ ys, x.code.Sound) :
    (steady J).Leaves e (fun _ _ => True)
      (feed (List.range' (e.grown xs).entries.size ys.length) (e.grown (xs ++ ys))) := by
  obtain ⟨eq, step, fills⟩ := hfeed.fills he.1.healthy hq hb hs
  rw [eq]
  exact leaves (Q := fun _ _ => True) (r := (.ok (), _)) ⟨step, trivial⟩ fun _ => put hJ he hq hlast step.1 fills

/-- Entries of commands are put on a queue. -/
theorem leaves_feed {feed : List EntryRef → Action Unit} {f : List EntryRef → List EntryRef → List EntryRef}
    {codes : List Compiled} (hfeed : Queues.Feeds q feed f) (he : (steady J).inv e)
    (hq : q < e.queues.size) (hlast : T → (e.queue q).replacedBy = none) (hc : ∀ c ∈ codes, c.Sound) :
    (steady J).Leaves e (fun _ _ => True) ((do feed (← Entries.createAll codes) : Action Unit) e) := by
  obtain ⟨xs, ys, run, ready⟩ := Entries.createAll_eq e codes
  rw [Action.bind_ok run]
  exact leaves_put hJ hfeed he hq hlast ready.brings (ready.handed_down .enclosed hc)

/-- Lines of a source are loaded and the invariant is kept. -/
theorem load {codes : List Compiled} (hq : (steady J).mine e₀ q) (hc : ∀ c ∈ codes, c.Sound) :
    (steady J).Safe e₀ (do Queues.append q (← Entries.createAll codes)) := by
  refine ⟨fun e he hl => ?_⟩
  obtain ⟨hqe, hlast⟩ := (steady J).mine_mono hl hq
  exact leaves_feed hJ (.append q) he hqe (fun _ => hlast) hc

/-- The entries of a script are cloned. -/
theorem loadBase {ms : List EntryRef} (hq : (steady J).mine e₀ q) (hm : ∀ m ∈ ms, (steady J).Stock e₀ m) :
    (steady J).Safe e₀ (do Queues.append q (← Entries.cloneAll ms)) := by
  refine ⟨fun e he hl => ?_⟩
  obtain ⟨hqe, hlast⟩ := (steady J).mine_mono hl hq
  have based := he.1.healthy.tidy.based
  have base : ∀ m ∈ ms, e.IsBase m := fun m h => hl.1.1.kept (hm m h).base
  rw [Action.bind_ok (based.cloneAll base)]
  have sound : ∀ x ∈ [] ++ ms.map e.entry, x.code.Sound := fun x hx => by
    obtain ⟨m, h, rfl⟩ := List.mem_map.1 hx
    exact he.1.healthy.code (based.lt (base m h))
  have cloned := leaves_put hJ (.append q) he hqe (fun _ => hlast) (based.brings_clones base) sound
  rwa [Engine.grown_nil, List.length_map, List.nil_append] at cloned

/-- Queues are prepared and the invariant is kept. -/
theorem preparing : (steady J).Preparing where
  toBookkeeping := bookkeeping hJ
  based he := he.1.healthy.tidy.based
  stock_mono h hn := hn.mono h.1.1 (h.1.2.code hn.lt)
  load hq hc := load hJ hq hc
  loadBase hq hm := loadBase hJ hq hm
  determine v hq := safe_determine hJ hq.1 v
  keep he hnone ready hc :=
    quiet hJ he (Healthy.running.keep he.1.healthy hnone ready hc) (.keepBase hnone ready)
  finishQueue hq := ⟨fun _ he hl => leaves_finish hJ he ((steady J).mine_mono hl hq).1⟩
  delay d he hq := step_delay hJ d he hq.1
  waiting he hq h := Healthy.running.waiting he.1.healthy hq.1 h
  pace hl hq := Healthy.running.pace hl.1 hq
  fits_source script _ he hs := Healthy.running.fits_source script he.1.healthy hs
  reads_script n he := Healthy.running.reads_script n he.1.healthy
  fits_base he h := Healthy.running.fits_base he.1.healthy h
  counters t he := quiet hJ he (Healthy.turns.counters t he.1.healthy) (.of_tables rfl rfl rfl rfl rfl)
  make {e x} he hx hm := by
    obtain ⟨hh, -, -⟩ := Healthy.turns.make he.1.healthy hx hm
    have orderly := he.1.make hh.1 hx
    have last : ((e.withQueue x).queue e.queues.size).replacedBy = none := by
      rw [e.queue_withQueue, if_pos rfl, hx.replacedBy]
    refine ⟨⟨⟨orderly, hJ.make he.1 he.2 hx⟩, hh.2, ?_⟩, ⟨by simp, last⟩, .make he.1 hx orderly⟩
    refine .of_tidy hh.1.tidy rfl fun p hp => ?_
    rw [e.queue_withQueue_of_lt hp]

/-! ## Other queues and work -/

/-- An entry may wait for the end of a queue. -/
theorem gives_listen (hn : e₀.Live n) (hq : q < e₀.queues.size) :
    (steady J).Gives e₀ (Queues.onComplete q (.finish n)) fun _ _ => True := by
  refine gives (Healthy.outreach.listen hq hn) fun e he _ step => ?_
  have eq : (Queues.onComplete q (.finish n) e).2 = if (e.queue q).state.isEnd
      then e.changeEntry n ({ · with isFinished := true })
      else e.changeQueue q fun x => { x with listeners := x.listeners ++ [.finish n] } := by
    show ((if (e.queue q).state.isEnd then _ else _ : Action Unit) e).2 = _
    split <;> rfl
  rw [eq] at step ⊢
  split at step
  · rename_i hend
    rw [if_pos hend]
    have noted : e.Quiet (e.changeEntry n ({ · with isFinished := true })) :=
      .changeEntry e n (f := ({ · with isFinished := true })) (fun _ => rfl) fun _ => rfl
    exact ⟨⟨he.1.quiet step.1 noted, hJ.quiet he.1 he.2 noted step.2.1⟩, .of_quiet noted⟩
  · rename_i hend
    rw [if_neg hend]
    let f : Queue → Queue := fun x => { x with listeners := x.listeners ++ [.finish n] }
    have heard : (e.changeQueue q f).Orderly :=
      he.1.changeQueue step.1 (e.queue_changeQueue_keep (g := Queue.pending) (f := f) (fun _ => rfl) q)
    exact ⟨⟨heard, hJ.listen n he.2 (by simpa using hend)⟩,
      .of_same rfl (e.queue_changeQueue_keep (g := Queue.replacedBy) (f := f) (fun _ => rfl) q)⟩

/-- Commands that reach beyond their queue keep the invariant. -/
theorem reaching : (steady J).Reaching where
  toPreparing := preparing hJ
  work job he hn := ⟨quiet hJ he (Healthy.outreach.work job he.1.healthy hn).1
    (.of_tables rfl rfl rfl rfl rfl), trivial⟩
  perform {e} job he := by
    refine quiet hJ he (Healthy.outreach.perform job he.1.healthy) ?_
    obtain ⟨files, clock, webPlans, webCalls, h⟩ := Background.perform_eq e job
    rw [h]
    exact .of_tables rfl rfl rfl rfl rfl
  listen hq hn := gives_listen hJ hn hq.here
  unheld _ _ _ := .inl trivial

end Steady

namespace Upheld

variable {S T : Prop} {C : Engine → QueueRef → Prop} {J : Engine → Prop}

/-- What every command does keeps the invariant, and lines may grow. -/
theorem bookkeeping (hJ : Upkeep S T C J) : (upheld J).Bookkeeping where
  emit event s he := step ((Steady.bookkeeping hJ).emit event s he)
  jot he hn hf := step ((Steady.bookkeeping hJ).jot he hn hf)
  finish he hn := ⟨step ((Steady.bookkeeping hJ).finish he hn).1, trivial⟩
  memory f he hq := step (Steady.quiet hJ he (Healthy.bookkeeping.memory f he.1.healthy hq)
    (.of_tables rfl rfl rfl rfl rfl))
  residing he _ h := he.1.healthy.tidy.residingQueue_lt h
  eased_mono _ _ _ := .inl trivial

end Upheld

end Discipline

end QueueScript
