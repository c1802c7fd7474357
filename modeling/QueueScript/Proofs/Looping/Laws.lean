import QueueScript.Proofs.Looping.Basic

/-!
# The discipline of loops and their turns

What commands do besides starting loops leaves all loops alone.  So does the host, and so do heartbeats.
-/

namespace QueueScript

namespace Engine.Calm

variable {e e' : Engine} {q : QueueRef}

/-- A level change is calm. -/
theorem of_level (h : e.Level e') : e.Calm e' where
  size := Nat.le_of_eq h.size.symm
  code _ := h.code _
  owner _ := h.owner _
  loop _ := h.loop _
  idle hn hn' := absurd (Nat.lt_of_lt_of_eq hn' h.size) (Nat.not_lt.2 hn)
  plain hn hn' := absurd (Nat.lt_of_lt_of_eq hn'.1 h.size) (Nat.not_lt.2 hn)
  loose hn hn' := absurd (Nat.lt_of_lt_of_eq hn' h.size) (Nat.not_lt.2 hn)
  pending {q n} hn := by
    rcases h.pending q with hp | hp
    · exact .inl ⟨q, hp ▸ hn⟩
    · rw [hp] at hn
      cases hn
  nodup hn q := by
    rcases h.pending q with hp | hp
    · rw [hp]
      exact hn q
    · rw [hp]
      exact List.nodup_nil
  catalogue := h.catalogue
  journal := h.journal

/-- Some of the pending entries of a queue are left. -/
theorem fewer {f : List EntryRef → List EntryRef}
    (hs : (f (e.queue q).pending).Sublist (e.queue q).pending) :
    e.Calm (e.changeQueue q fun x => { x with pending := f x.pending }) := by
  have sub (p : QueueRef) : ((e.changeQueue q fun x => { x with pending := f x.pending }).queue p).pending.Sublist
      (e.queue p).pending := by
    rw [e.queue_changeQueue]
    split
    · rename_i hp
      rw [← hp.1]
      exact hs
    · exact .refl _
  exact {
    size := Nat.le_refl _
    code := fun _ => rfl
    owner := fun _ => rfl
    loop := fun _ => rfl
    idle := fun hn hn' => absurd hn' (Nat.not_lt.2 hn)
    plain := fun hn hn' => absurd hn'.1 (Nat.not_lt.2 hn)
    loose := fun hn hn' => absurd hn' (Nat.not_lt.2 hn)
    pending := fun {p n} hn => .inl ⟨p, (sub p).subset hn⟩
    nodup := fun hn p => (hn p).sublist (sub p)
    catalogue := rfl
    journal := rfl }

/-- Entries are made and put on a queue that belong to no loop, after those of their blocks. -/
theorem filled (ht : e.Tidy) (hq : q < e.queues.size) {xs ys : List Entry} {f : List EntryRef → List EntryRef}
    (hf : e.Fills q xs ys f) (hx : ∀ x ∈ xs, x.IsBlank)
    (hy : ∀ y ∈ ys, y.loop = none ∧ y.isLoopMark = false ∧
      ∀ m, y.owner = some m → m < e.entries.size ∧ e.isLoop m = false) :
    e.Calm ((e.grown xs).put q ys f) := by
  let e' := (e.grown xs).put q ys f
  have here : (e'.queue q).pending = f (e.queue q).pending :=
    congrArg Queue.pending ((e.grown xs).queue_put q ys f hq)
  have there {p : QueueRef} (hp : q ≠ p) : (e'.queue p).pending = (e.queue p).pending :=
    congrArg Queue.pending ((e.grown xs).queue_put_of_ne q ys f hp)
  have old {n : EntryRef} (hn : n < e.entries.size) : e'.entry n = e.entry n := Engine.Fills.entry_old xs ys f hn
  have put {n : EntryRef} (hn : (e.grown xs).entries.size ≤ n) (hn' : n < e'.entries.size) : e'.entry n ∈ ys := by
    obtain ⟨i, rfl⟩ := Nat.exists_eq_add_of_le hn
    have hi : i < ys.length := Nat.lt_of_add_lt_add_left ((e.grown xs).size_put q ys f ▸ hn')
    rw [(e.grown xs).entry_put q ys f (List.getElem?_eq_getElem hi)]
    exact List.getElem_mem hi
  have made {n : EntryRef} (hn : e.entries.size ≤ n) (hn' : n < e'.entries.size) :
      (e'.entry n).IsBlank ∨ e'.entry n ∈ ys := by
    rcases Nat.lt_or_ge n (e.grown xs).entries.size with hlt | hge
    · rw [(e.grown xs).entry_put_of_lt q ys f hlt]
      exact .inl (hx _ (Adds.mem ⟨hn, hlt⟩))
    · exact .inr (put hge hn')
  refine {
    size := Engine.Fills.entries q xs ys f
    code := fun hn => congrArg Entry.code (old hn)
    owner := fun hn => congrArg Entry.owner (old hn)
    loop := fun hn => congrArg Entry.loop (old hn)
    idle := fun hn hn' => (made hn hn').elim Entry.IsBlank.loop fun h => (hy _ h).1
    plain := fun hn live => (hy _ (put (hf.stock hn live) live.1)).2.1
    loose := fun {n m} hn hn' ho => ?_
    pending := fun {p n} hn => ?_
    nodup := fun hn p => ?_
    catalogue := rfl
    journal := rfl }
  · rcases made hn hn' with blank | mem
    · cases blank.owner.symm.trans ho
    · obtain ⟨hm, hl⟩ := (hy _ mem).2.2 m ho
      unfold Engine.isLoop
      rw [old hm]
      exact hl
  · by_cases hp : q = p
    · rw [← hp, here] at hn
      refine (hf.mem hn).imp (fun hn => ⟨q, hn⟩) fun ⟨i, _, hi, _⟩ => ?_
      rw [hi, e.size_grown, Nat.add_assoc]
      exact Nat.le_add_right _ _
    · exact .inl ⟨p, there hp ▸ hn⟩
  · by_cases hp : q = p
    · rw [← hp, here]
      refine hf.perm.nodup_iff.2 (List.Nodup.append (hn q) List.nodup_range' fun n hold hnew => ?_)
      have low := (List.mem_range'_1.1 hnew).1
      rw [e.size_grown] at low
      exact Nat.not_lt.2 (Nat.le_of_add_right_le low) (ht.pending q n hold).1
    · rw [there hp]
      exact hn p

/-- A script is made into entries, and none of them is put on a queue. -/
theorem kept {i : Nat} {xs ys : List Entry} (hnone : (e.script i).base = none)
    (ready : e.Prepares (e.compiled i) xs ys) :
    e.Calm ((e.grown (xs ++ ys)).keepBase i (List.range' (e.grown xs).entries.size ys.length)) where
  size := (e.size_grown _).symm ▸ Nat.le_add_right _ _
  code hn := congrArg Entry.code (e.entry_grown_of_lt hn)
  owner hn := congrArg Entry.owner (e.entry_grown_of_lt hn)
  loop hn := congrArg Entry.loop (e.entry_grown_of_lt hn)
  idle hn hn' := (ready.brings.blank _ (Adds.mem ⟨hn, hn'⟩)).loop
  plain hn live := absurd live ((Quiet.keepBase hnone ready).made hn)
  loose hn hn' ho := by
    cases (ready.brings.blank _ (Adds.mem ⟨hn, hn'⟩)).owner.symm.trans ho
  pending {p _} hn := .inl ⟨p, hn⟩
  nodup h := h
  catalogue := rfl
  journal := rfl

/-- A queue hands its entries to the queue that replaces it. -/
theorem of_replaces {d : Option Delay} (h : e.Replaces q d e') : e.Calm e' where
  size := Nat.le_of_eq h.moved.size.symm
  code _ := h.moved.code _
  owner _ := h.moved.owner _
  loop _ := h.moved.loop _
  idle hn hn' := absurd (Nat.lt_of_lt_of_eq hn' h.moved.size) (Nat.not_lt.2 hn)
  plain hn hn' := absurd (Nat.lt_of_lt_of_eq hn'.1 h.moved.size) (Nat.not_lt.2 hn)
  loose hn hn' := absurd (Nat.lt_of_lt_of_eq hn' h.moved.size) (Nat.not_lt.2 hn)
  pending {p n} hn := by
    rw [Discipline.Nest.pending_replaces h] at hn
    split at hn
    · exact .inl ⟨q, hn⟩
    · split at hn
      · cases hn
      · exact .inl ⟨p, hn⟩
  nodup hn p := by
    rw [Discipline.Nest.pending_replaces h]
    split
    · exact hn q
    · split
      · exact List.nodup_nil
      · exact hn p
  catalogue := h.books.catalogue
  journal := h.books.journal

/-- Diagnostics are no matter of loops. -/
theorem of_shown {events : List Event} (h : Calm { e with events } e') : e.Calm e' :=
  ⟨h.size, h.code, h.owner, h.loop, h.idle, h.plain, h.loose, h.pending, h.nodup, h.catalogue, h.journal⟩

/-- Scripts are registered calmly. -/
theorem of_scripts (e : Engine) (scripts : Array ScriptRecord) (scriptNames : Keyed Nat) :
    e.Calm { e with scripts, scriptNames } where
  size := Nat.le_refl _
  code _ := rfl
  owner _ := rfl
  loop _ := rfl
  idle hn hn' := absurd hn' (Nat.not_lt.2 hn)
  plain hn hn' := absurd hn'.1 (Nat.not_lt.2 hn)
  loose hn hn' := absurd hn' (Nat.not_lt.2 hn)
  pending {q _} hn := .inl ⟨q, hn⟩
  nodup h := h
  catalogue := rfl
  journal := rfl

end Engine.Calm

namespace Discipline

open Discipline.Furnished (furnished)

/-- Engines whose pending entries are nested, and in which every loop that has begun has had its turns. -/
def looping (K : Catalogue) : Discipline :=
  (nest K).also (Engine.Rounding none)

instance (K : Catalogue) : (looping K).Lenient :=
  inferInstanceAs ((nest K).also (Engine.Rounding none)).Lenient

namespace Looping

variable {α : Type} {K : Catalogue} (hK : K.Native) {e₀ e e' : Engine} {q : QueueRef}

include hK

omit hK in
/-- Queues are furnished while loops have their turns. -/
theorem furnished_inv (he : (looping K).inv e) : furnished.inv e :=
  ⟨he.1.1, he.2.furnished⟩

omit hK in
/-- A calm step gives no loop a turn. -/
theorem step_calm (he : (looping K).inv e) (hn : (nest K).Step e e') (hc : e.Calm e') (hf : furnished.Step e e') :
    (looping K).Step e e' :=
  hn.also (he.2.calm he.1.1 (Nest.step_healthy hn) hc hf.1.2)

omit hK in
/-- A level step gives no loop a turn. -/
theorem step_level (he : (looping K).inv e) (hn : (nest K).Step e e') (hl : e.Level e')
    (hf : furnished.inv e → furnished.Step e e') : (looping K).Step e e' :=
  step_calm he hn (.of_level hl) (hf (furnished_inv he))

omit hK in
/-- An action that leaves all loops alone. -/
theorem gives_calm {a : Action α} {Q : α → Engine → Prop} (hn : (nest K).Gives e₀ a Q)
    (hc : ∀ e, (nest K).inv e → (nest K).le e₀ e → (a e).1 ≠ .error .exhausted → e.Calm (a e).2)
    (hf : ∀ e, (nest K).le e₀ e → ∃ R, furnished.Gives e a R) : (looping K).Gives e₀ a Q := by
  refine hn.also fun e he hl hS hx => ?_
  obtain ⟨R, gives⟩ := hf e hl
  refine hS.calm he.1 (Nest.step_healthy ((hn.run e he hl).step hx)) (hc e he hl hx) ?_
  exact ((gives.run e (furnished_inv ⟨he, hS⟩) (furnished.refl e)).step hx).1.2

omit hK in
/-- An action on the level gives no loop a turn. -/
theorem gives_level {a : Action α} {Q : α → Engine → Prop} (hn : (nest K).Gives e₀ a Q)
    (hs : ∀ e, e₀.Grows e → level.Safe e a) (hf : ∀ e, (nest K).le e₀ e → ∃ R, furnished.Gives e a R) :
    (looping K).Gives e₀ a Q :=
  gives_calm hn (fun e _ hl _ => .of_level (Level.run (hs e hl.1.1))) hf

/-! ## The laws -/

omit hK in
/-- What every command does keeps the turns that loops have had. -/
theorem bookkeeping : (looping K).Bookkeeping where
  emit event s he := step_level he (Nest.bookkeeping.emit event s he.1) (Level.closing.emit event s trivial).2
    (Furnished.enduring.beating.emit event s)
  jot he hn hf := step_level he (Nest.bookkeeping.jot he.1 hn hf) (Level.closing.jot trivial trivial hf).2
    fun h => Furnished.enduring.beating.jot h hn hf
  finish he hn := ⟨step_level he (Nest.bookkeeping.finish he.1 hn).1 (Level.closing.finish trivial trivial).1.2
    fun h => (Furnished.enduring.beating.finish h hn).1, trivial⟩
  memory f he hq := step_level he (Nest.bookkeeping.memory f he.1 hq) (Level.closing.memory f trivial trivial).2
    fun h => Furnished.enduring.beating.memory f h hq
  residing he hn h := Nest.bookkeeping.residing he.1 hn h
  eased_mono _ _ _ := .inl trivial

omit hK in
/-- A queue may lose pending entries without a turn of any loop. -/
theorem step_fewer {f : List EntryRef → List EntryRef} (he : (looping K).inv e)
    (hn : (nest K).Step e (e.changeQueue q fun x => { x with pending := f x.pending }))
    (hs : (f (e.queue q).pending).Sublist (e.queue q).pending) :
    (looping K).Step e (e.changeQueue q fun x => { x with pending := f x.pending }) :=
  hn.also (he.2.calm he.1.1 (Nest.step_healthy hn) (.fewer hs)
    (he.2.furnished.changeQueue q (fun _ => rfl) fun _ => rfl))

omit hK in
/-- An entry may be taken off a queue without a turn of any loop. -/
theorem take {n : EntryRef} {rest : List EntryRef} (he : (looping K).inv e) (hq : q < e.queues.size)
    (hp : (e.queue q).pending = n :: rest) :
    (looping K).Step e (e.changeQueue q ({ · with pending := rest })) ∧
      (looping K).taken (e.changeQueue q ({ · with pending := rest })) q n := by
  obtain ⟨step, taken⟩ := Nest.take he.1 hq hp
  refine ⟨step_fewer (f := fun _ => rest) he step ?_, taken⟩
  rw [hp]
  exact List.sublist_cons_self n rest

omit hK in
/-- Queues are emptied and loops have had their turns. -/
theorem emptying : (looping K).Emptying where
  take he hq hp := take he hq hp
  clear he hq := step_fewer (f := fun _ => []) he (Nest.emptying.clear he.1 hq) (List.nil_sublist _)
  drop count hq := gives_calm (Nest.emptying.drop count hq)
    (fun _ _ _ _ => Engine.Calm.fewer (f := List.drop count) (List.drop_sublist _ _))
    fun _ hl => ⟨_, Furnished.enduring.blocks.emptying.drop count ((nest K).mine_mono hl hq)⟩
  stop hq := gives_level (Nest.emptying.stop hq) (fun _ _ => Level.closing.safe_stop)
    fun _ hl => ⟨_, Furnished.enduring.blocks.emptying.stop ((nest K).mine_mono hl hq)⟩

/-- Lines of a source are no entries of a loop. -/
theorem calm_lines {feed : List EntryRef → Action Unit} {f : List EntryRef → List EntryRef → List EntryRef}
    (hfeed : Queues.Feeds q feed f) (he : e.Healthy) (hq : q < e.queues.size) {xs ys : List Entry}
    (hb : e.Brings (xs ++ ys) (List.range' (e.grown xs).entries.size ys.length))
    (hs : ∀ x ∈ xs ++ ys, x.code.Sound) (hy : ∀ y ∈ ys, K.Lists y.code) :
    e.Calm (feed (List.range' (e.grown xs).entries.size ys.length) (e.grown (xs ++ ys))).2 := by
  obtain ⟨eq, -, fills⟩ := hfeed.fills he hq hb hs
  rw [eq]
  refine .filled he.tidy hq fills (fun x hx => hb.blank x (List.mem_append_left _ hx)) fun z hz => ?_
  obtain ⟨y, mem, rfl⟩ := List.mem_map.1 hz
  have blank := hb.blank y (List.mem_append_right _ mem)
  obtain ⟨script, source, hsource, lists⟩ := hy y mem
  refine ⟨blank.loop, (hK.buildLines script hsource _ lists).isMark, fun m hm => ?_⟩
  cases blank.owner.symm.trans hm

/-- Lines of a source are loaded and no loop has begun. -/
theorem load {codes : List Compiled} (hq : (looping K).mine e₀ q) (hc : ∀ c ∈ codes, K.Lists c) :
    (looping K).Safe e₀ (do Queues.append q (← Entries.createAll codes)) := by
  have sound : ∀ c ∈ codes, c.Sound := fun c h => Nest.sound_of_lists hK (hc c h)
  refine gives_calm (Nest.load hK hc hq) (fun e he hl _ => ?_)
    fun _ hl => ⟨_, Furnished.enduring.beating.load ((nest K).mine_mono hl hq) sound⟩
  obtain ⟨xs, ys, run, ready⟩ := Entries.createAll_eq e codes
  rw [Action.bind_ok run]
  exact calm_lines hK (.append q) he.1 ((nest K).mine_mono hl hq) ready.brings
    (ready.handed_down .enclosed sound) fun y hy => (Nest.lists_prepared hc ready y hy).2

/-- The entries of a script are cloned. -/
theorem loadBase {ms : List EntryRef} (hq : (looping K).mine e₀ q) (hm : ∀ m ∈ ms, (looping K).Stock e₀ m) :
    (looping K).Safe e₀ (do Queues.append q (← Entries.cloneAll ms)) := by
  have stock : ∀ m ∈ ms, (nest K).Stock e₀ m := fun m h => ⟨(hm m h).lt, (hm m h).base, (hm m h).fits⟩
  refine gives_calm (Nest.loadBase hK stock hq) (fun e he hl _ => ?_) fun e hl => ?_
  · have stock : ∀ m ∈ ms, (nest K).Stock e m := fun m h => Nest.basing.stock_mono hl (stock m h)
    have base : ∀ m ∈ ms, e.IsBase m := fun m h => (stock m h).base
    have lists : ∀ y ∈ ms.map e.entry, K.Lists y.code := fun y hy => by
      obtain ⟨m, mem, rfl⟩ := List.mem_map.1 hy
      exact (stock m mem).fits
    rw [Action.bind_ok (he.1.tidy.based.cloneAll base)]
    have calm := calm_lines hK (.append q) he.1 ((nest K).mine_mono hl hq) (he.1.tidy.based.brings_clones base)
      (fun y hy => Nest.sound_of_lists hK (lists y hy)) lists
    rwa [Engine.grown_nil, List.length_map, List.nil_append] at calm
  · refine ⟨_, Furnished.enduring.beating.loadBase ((nest K).mine_mono hl hq) fun m h => ?_⟩
    have here := Nest.basing.stock_mono hl (stock m h)
    exact ⟨here.lt, here.base, Nest.sound_of_lists hK here.fits⟩

/-- Queues have their turns and loops have had theirs. -/
theorem turns : (looping K).Turns where
  toBookkeeping := bookkeeping
  based he := he.1.1.tidy.based
  stock_mono h hn := { Nest.basing.stock_mono h ⟨hn.lt, hn.base, hn.fits⟩ with }
  load hq hc := load hK hq hc
  loadBase hq hm := loadBase hK hq hm
  determine v hq := gives_level ((Nest.turns hK).determine v hq) (fun _ _ => Level.closing.safe_determine v)
    fun _ hl => ⟨_, Furnished.enduring.beating.determine v ((nest K).mine_mono hl hq)⟩
  stop hq := emptying.stop hq
  keep he hnone ready hc := step_calm he ((Nest.turns hK).keep he.1 hnone ready hc) (.kept hnone ready)
    (Furnished.enduring.beating.keep (furnished_inv he) hnone ready fun c h => Nest.sound_of_lists hK (hc c h))
  launch {e q} he hq hidle := by
    have launched := (Nest.turns hK).launch he.1 hq hidle
    refine launched.also fun hx => ?_
    have moved : level.Safe e (Queues.launch q) := Level.closing.safe_launch fun _ hl =>
      Nat.lt_of_lt_of_le hq hl.queues
    exact he.2.calm he.1.1 (Nest.step_healthy (launched.step hx)) (.of_level (Level.run moved))
      ((Furnished.enduring.beating.launch (furnished_inv he) hq hidle).step hx).1.2
  finishQueue hq := gives_level ((Nest.turns hK).finishQueue hq) (fun _ _ => Level.closing.safe_finish)
    fun _ hl => ⟨_, Furnished.enduring.beating.finishQueue ((nest K).mine_mono hl hq)⟩
  delay d he hq := step_level he ((Nest.turns hK).delay d he.1 hq) (.changeQueue _ _ fun _ => .inl rfl)
    fun h => Furnished.enduring.beating.delay d h hq
  waiting he hq h := (Nest.turns hK).waiting he.1 hq h
  pace hl hq := (Nest.turns hK).pace hl hq
  fits_source script source he hs := (Nest.turns hK).fits_source script he.1 hs
  reads_script n he := (Nest.turns hK).reads_script n he.1
  fits_base he h := (Nest.turns hK).fits_base he.1 h
  counters t he := step_level he ((Nest.turns hK).counters t he.1) (.of_tables rfl rfl rfl rfl rfl)
    (Furnished.enduring.beating.counters t)
  make he hx hm := by
    obtain ⟨step, mine, fresh⟩ := (Nest.turns hK).make he.1 hx hm
    exact ⟨step_level he step (.withQueue _ hx.pending) fun h => (Furnished.enduring.beating.make h hx hm).1,
      mine, fresh⟩

/-- Commands reach beyond their queue and loops have had their turns. -/
theorem outreach : (looping K).Outreach where
  toTurns := turns hK
  replace {e₀ q} d hq := by
    refine gives_calm ((Nest.outreach hK).replace d hq) (fun e _ hl _ => ?_)
      fun _ hl => ⟨_, Furnished.enduring.beating.replace d ((nest K).mine_mono hl hq)⟩
    obtain ⟨y, replace, replaces⟩ := e.replaceByTimed_replaces d ((nest K).mine_mono hl hq)
    rw [replace]
    exact .of_replaces replaces
  work job he hn := ⟨step_level he ((Nest.outreach hK).work job he.1 hn).1 (.of_tables rfl rfl rfl rfl rfl)
    fun h => (Furnished.enduring.beating.work job h hn).1, trivial⟩
  perform {e} job he := by
    refine step_level he ((Nest.outreach hK).perform job he.1) ?_ (Furnished.enduring.beating.perform job)
    obtain ⟨files, clock, webPlans, webCalls, h⟩ := Background.perform_eq e job
    rw [h]
    exact .of_tables rfl rfl rfl rfl rfl
  listen hq hn := gives_level ((Nest.outreach hK).listen hq hn)
    (fun _ _ => Level.closing.safe_onComplete fun _ _ => trivial)
    fun _ hl => ⟨_, Furnished.enduring.beating.listen ((nest K).fresh_mono hl hq) ((nest K).own_mono hl hn)⟩
  registered he h := (Nest.outreach hK).registered he.1 h
  unheld _ _ _ := .inl trivial

/-- Whatever the host does, loops have had their turns. -/
theorem hosting : (looping K).Hosting where
  toOutreach := outreach hK
  mine_iff := Iff.rfl
  register he hb hs := step_calm he ((Nest.hosting hK).register he.1 hb hs) (.of_scripts _ _ _)
    (Furnished.enduring.beating.register (furnished_inv he) hb trivial)
  world files webPlans clock bases attributes heartbeatTime beats he := step_level he
    ((Nest.hosting hK).world files webPlans clock bases attributes heartbeatTime beats he.1)
    (.of_tables rfl rfl rfl rfl rfl)
    (Furnished.enduring.beating.world files webPlans clock bases attributes heartbeatTime beats)
  pause q he := by
    refine step_level he ((Nest.hosting hK).pause q he.1) (.changeQueue _ q fun x => .inl ?_)
      (Furnished.enduring.beating.pause q)
    split <;> rfl
  resume q he := by
    refine step_level he ((Nest.hosting hK).resume q he.1) (.changeQueue _ q fun x => .inl ?_)
      (Furnished.enduring.beating.resume q)
    split <;> rfl
  live he hp := (Nest.hosting hK).live he.1 hp
  hear {e} q label error he := by
    have kept := (Nest.hosting hK).hear q label error he.1
    have moved : level.Safe e (Queues.onComplete q (.notify label error)) :=
      Level.closing.safe_onComplete fun _ _ => trivial
    have heard := (Healthy.safe_notify (q := q) label error).run e he.1.1 (healthy.refl e)
    refine ⟨fun hx => ⟨kept.inv hx, he.2.calm he.1.1 (heard.step hx) (.of_level (Level.run moved)) ?_⟩, kept.cut⟩
    exact ((Furnished.enduring.beating.hear q label error (furnished_inv he)).inv hx).2
  inject {e q source} he hq hs hy := by
    have kept := (Nest.hosting hK).inject he.1 hq hs hy
    obtain ⟨events, compiled⟩ := Scripts.compile_eq source none e
    let x : Engine := { e with events }
    have shown : healthy.Step e x := Healthy.step he.1.1
      (Tidy.aside ⟨he.1.1.tidy, trivial⟩ ⟨rfl, rfl, fun _ h => .inl h, rfl, rfl, rfl, fun _ => rfl⟩)
      (Engine.keeps_of_tables rfl rfl)
    have lists := (Nest.turns hK).fits_source none he.1 hs
    obtain ⟨xs, ys, run, ready⟩ := Entries.createAll_eq x (buildLines e.catalogue none (Source.parse source).lines).1
    have sound := ready.handed_down .enclosed fun c h => Nest.sound_of_lists hK (lists c h)
    have injected : Host.injectSource q source none e =
        Queues.inject q (List.range' (x.grown xs).entries.size ys.length) (x.grown (xs ++ ys)) := by
      show ((Scripts.compile source none >>= Entries.createAll) >>= Queues.inject q) e = _
      rw [bind_assoc]
      exact (Action.bind_ok compiled).trans (Action.bind_ok run)
    have calm := calm_lines hK (.inject q) shown.1 hq ready.brings sound fun y hy =>
      (Nest.lists_prepared lists ready y hy).2
    obtain ⟨eq, filled, -⟩ := (Queues.Feeds.inject q).fills shown.1 hq ready.brings sound
    refine ⟨fun hx => ⟨kept.inv hx, ?_⟩, kept.cut⟩
    have furnished := ((Furnished.enduring.beating.inject (furnished_inv he) hq trivial trivial).inv hx).2
    rw [injected] at furnished ⊢
    rw [eq] at calm furnished ⊢
    exact he.2.calm he.1.1 (shown.trans filled) (.of_shown calm) furnished

/-- After a beat loops have had their turns. -/
theorem beating : (looping K).Beating where
  toHosting := hosting hK
  schedule label error again he := step_level he ((Nest.beating hK).schedule label error again he.1)
    (.of_tables rfl rfl rfl rfl rfl) (Furnished.enduring.beating.schedule label error again)
  settle {e w i} he hw := by
    refine step_level he ((Nest.beating hK).settle he.1 hw) ?_ fun h => Furnished.enduring.beating.settle h hw
    obtain ⟨files, clock, webPlans, webCalls, h⟩ :=
      Background.perform_eq { e with inFlight := e.inFlight.eraseIdx i } w.job
    simp only [Background.settleOne, h]
    exact .of_tables rfl rfl rfl rfl rfl
  takeOver e₀ := gives_level ((Nest.beating hK).takeOver e₀) (fun _ _ => Level.safe_takeOverAll)
    fun e _ => ⟨_, Furnished.enduring.beating.takeOver e⟩

end Looping

end Discipline

end QueueScript
