import QueueScript.Proofs.Nesting.Basic
import QueueScript.Proofs.Replacement

/-!
# The discipline of nested entries

Most of what commands do moves no entry: it is `level`, a discipline that every engine satisfies.  What
does move entries is taken one by one: lines of a source are put on a queue, the first entry is taken
off, a queue is replaced by another one.  Conditions and loops are left for later, since they need to
know which entry runs.
-/

namespace QueueScript

namespace Discipline

/-! ## Changes that move no entry -/

/-- Engines in which no entry moves. -/
def level : Discipline where
  inv _ := True
  le e e' := e.Level e'
  cut _ := False
  own _ _ := True
  mine _ _ := True
  fresh _ _ := True
  placed _ _ _ := True
  fits _ := True
  cared _ _ := True
  marked _ _ := True
  refl := Engine.Level.refl
  trans h h' := h.trans h'
  own_mono _ _ := trivial
  mine_mono _ _ := trivial
  fresh_mono _ _ := trivial
  placed_mono _ _ := trivial
  placed_own _ := trivial
  cared_mono _ _ := trivial
  marked_mono _ _ := trivial
  marked_cared _ := trivial

namespace Level

variable {e₀ e e' : Engine} {q : QueueRef}

/-- A level change is a step. -/
theorem step (h : e.Level e') : level.Step e e' :=
  ⟨trivial, h⟩

/-- Queues end on the level. -/
theorem closing : level.Closing where
  emit {e} event s _ := by
    obtain ⟨events, h⟩ := e.emit_eq event s
    rw [h]
    exact step (.of_tables rfl rfl rfl rfl rfl)
  jot {e n f} _ _ hf := by
    refine step (.changeEntry e n (fun x => ?_) (fun x => ?_) (fun x => ?_) fun x => ?_)
    all_goals
      obtain ⟨_, _, _, h⟩ := hf x
      rw [h]
  finish {e n} _ _ := by
    refine ⟨step (.changeEntry e n ?_ ?_ ?_ ?_), trivial⟩
    all_goals exact fun _ => rfl
  memory _ _ _ := step (.of_tables rfl rfl rfl rfl rfl)
  residing _ _ _ := trivial
  eased_mono _ _ _ := .inl trivial
  soft {e} q _ _ hf := step (.changeQueue e q hf.pending)
  hear {e} q _ _ _ := step (.changeQueue e q fun _ => .inl rfl)
  heard {e _ n} _ _ x _ _ := step (.changeEntry x n (fun _ => rfl) (fun _ => rfl) (fun _ => rfl) fun _ => rfl)
  books _ _ _ := step (.of_tables rfl rfl rfl rfl rfl)
  setRegistry _ _ := step (.of_tables rfl rfl rfl rfl rfl)

/-- An action that moves no entry leaves such an engine, whether it succeeds or fails. -/
theorem run {α : Type} {a : Action α} (h : level.Safe e a) : e.Level (a e).2 := by
  have hr := h.run e trivial (level.refl e)
  generalize a e = r at hr
  obtain ⟨r, e'⟩ := r
  cases r with
  | ok x => exact hr.1.2
  | error f =>
    cases f with
    | exhausted => exact hr.elim
    | _ => exact hr.2

/-- Outcomes are handed over on the level. -/
theorem safe_handOver (n : EntryRef) (outcome : Outcome) :
    level.Safe e₀ (Background.handOver n outcome) := by
  refine safe_ensuring ?_ (fun e _ _ => (closing.finish trivial trivial).1) fun _ h => h.elim
  refine safe_bind (safe_look _) fun stopped => ?_
  split
  · refine safe_bind (safe_entry n) fun _ => safe_bind (safe_queue _) fun _ => ?_
    exact safe_bind (safe_scope n) fun s => safe_trace closing.toBookkeeping _ s
  · exact safe_apply (D := level) trivial closing.toBookkeeping outcome

/-- Outcomes are taken over on the level. -/
theorem safe_takeOverAll : level.Safe e₀ Heartbeat.takeOverAll := by
  have tables {e e' : Engine} (h : e.Level e') : level.Step e e' := step h
  refine safe_bind (safe_look _) fun hs => safe_bind (safe_change fun e _ _ => ?_) fun _ => ?_
  · exact tables (.of_tables rfl rfl rfl rfl rfl)
  refine safe_each fun h _ => gives_orElse ?_ fun f => safe_error closing.toBookkeeping _ _ _
  cases h with
  | settle n o => exact safe_handOver n o
  | task label count error again =>
    refine safe_bind (safe_change fun e _ _ => ?_) fun _ => ?_
    · exact tables (.of_tables rfl rfl rfl rfl rfl)
    · cases error with
      | some message => exact gives_fail nofun
      | none =>
        refine safe_ite (safe_change fun e _ _ => ?_) (safe_pure _)
        exact tables (.of_tables rfl rfl rfl rfl rfl)

end Level

/-! ## The discipline -/

/-- Engines whose pending entries are nested.  A host may put entries at the head of a queue only where
no mark is pending. -/
def nest (K : Catalogue) : Discipline where
  inv e := e.Healthy ∧ e.Looped K
  le e e' := healthy.le e e' ∧ e.Roots e'
  cut e := e.Looped K
  own e n := e.Live n
  mine e q := q < e.queues.size
  fresh e q := q < e.queues.size
  placed e _ n := e.Live n
  fits c := K.Lists c
  reads source := Source.Unmarked K source
  yields e q := ∀ n ∈ (e.queue q).pending, (e.entry n).isLoopMark = false
  taken e q n := (e.entry n).residing = some q ∧ ∃ r, e.Nested r (n :: (e.queue q).pending)
  cared _ _ := True
  marked _ _ := True
  refl e := ⟨healthy.refl e, .refl e⟩
  trans h h' := ⟨healthy.trans h.1 h'.1, h.2.trans h'.2⟩
  own_mono h hn := healthy.own_mono h.1 hn
  mine_mono h hq := healthy.mine_mono h.1 hq
  fresh_mono h hq := healthy.fresh_mono h.1 hq
  placed_mono h hn := healthy.own_mono h.1 hn
  placed_own h := h
  cared_mono _ _ := trivial
  marked_mono _ _ := trivial
  marked_cared _ := trivial

instance (K : Catalogue) : (nest K).Lenient :=
  ⟨fun h => h.2⟩

namespace Nest

variable {α : Type} {K : Catalogue} {e₀ e e' : Engine} {q : QueueRef} {n : EntryRef}

/-- A step of nested loops is a step of healthy engines. -/
theorem step_healthy (h : (nest K).Step e e') : healthy.Step e e' :=
  ⟨h.1.1, h.2.1⟩

/-- A change that keeps an engine healthy and moves no entry. -/
theorem step_level (he : (nest K).inv e) (hh : healthy.Step e e') (hl : e.Level e') :
    (nest K).Step e e' :=
  ⟨⟨hh.1, hl.looped he.1.tidy hh.2.1 he.2⟩, hh.2, hl.roots⟩

/-- An action that keeps engines healthy and moves no entry. -/
theorem gives_level {a : Action α} {Q : α → Engine → Prop} (hh : healthy.Gives e₀ a Q)
    (hs : ∀ e, e₀.Grows e → level.Safe e a) : (nest K).Gives e₀ a Q := by
  refine ⟨fun e he hl => ?_⟩
  have ran := hh.run e he.1 hl.1
  have moved := (hs e hl.1.1).run e trivial (level.refl e)
  generalize a e = r at ran moved
  obtain ⟨r, e'⟩ := r
  cases r with
  | ok x => exact ⟨step_level he ran.1 moved.1.2, ran.2⟩
  | error f =>
    cases f with
    | exhausted => exact moved.elim
    | _ => exact step_level he ran moved.2

/-- What every command does keeps loops nested. -/
theorem bookkeeping : (nest K).Bookkeeping where
  emit event s he := step_level he (Healthy.bookkeeping.emit event s he.1)
    (Level.closing.emit event s trivial).2
  jot he hn hf := step_level he (Healthy.bookkeeping.jot he.1 hn hf)
    (Level.closing.jot trivial trivial hf).2
  finish he hn := ⟨step_level he (Healthy.bookkeeping.finish he.1 hn).1
    (Level.closing.finish trivial trivial).1.2, trivial⟩
  memory f he hq := step_level he (Healthy.bookkeeping.memory f he.1 hq)
    (Level.closing.memory f trivial trivial).2
  residing he _ h := he.1.tidy.residingQueue_lt h
  eased_mono _ _ _ := .inl trivial

/-! ## Fewer pending entries -/

/-- Some of the pending entries of a queue are left, and they are nested. -/
theorem step_fewer {f : List EntryRef → List EntryRef} (he : (nest K).inv e)
    (hq : q < e.queues.size) (hsub : ∀ n ∈ f (e.queue q).pending, n ∈ (e.queue q).pending)
    (hn : ∃ r, e.Nested r (f (e.queue q).pending)) :
    (nest K).Step e (e.changeQueue q fun x => { x with pending := f x.pending }) := by
  have kept : healthy.Step e (e.changeQueue q fun x => { x with pending := f x.pending }) :=
    Healthy.blocks.pending f he.1 hq fun n h => .inl (hsub n h)
  have roots : e.Roots (e.changeQueue q fun x => { x with pending := f x.pending }) :=
    ⟨Nat.le_refl _, fun _ => rfl, fun _ => rfl, fun _ h => h⟩
  refine ⟨⟨kept.1, ?_⟩, kept.2, roots⟩
  refine he.2.moved he.1.tidy kept.2.1 roots rfl rfl rfl (fun h h' => absurd h'.1 (Nat.not_lt.2 h))
    (fun p => ?_) fun {p n} hp => ?_
  · rw [e.queue_changeQueue]
    split
    · rename_i hqp
      obtain ⟨rfl, -⟩ := hqp
      obtain ⟨r, hr⟩ := hn
      exact ⟨r, roots.nested he.1.tidy hr⟩
    · obtain ⟨r, hr⟩ := he.2.pending p
      exact ⟨r, roots.nested he.1.tidy hr⟩
  · rw [e.queue_changeQueue] at hp
    split at hp
    · rename_i hqp
      obtain ⟨rfl, -⟩ := hqp
      exact he.2.residing (hsub n hp)
    · exact he.2.residing hp

/-- An entry that is taken off a queue leaves the others nested. -/
theorem take {rest : List EntryRef} (he : (nest K).inv e) (hq : q < e.queues.size)
    (hp : (e.queue q).pending = n :: rest) :
    (nest K).Step e (e.changeQueue q ({ · with pending := rest })) ∧
      (nest K).taken (e.changeQueue q ({ · with pending := rest })) q n := by
  obtain ⟨r, hr⟩ := he.2.pending q
  rw [hp] at hr
  have step : (nest K).Step e (e.changeQueue q ({ · with pending := rest })) := by
    refine step_fewer (f := fun _ => rest) he hq (fun m hm => ?_) hr.tail
    rw [hp]
    exact List.mem_cons_of_mem _ hm
  refine ⟨step, he.2.residing (hp ▸ List.mem_cons_self), r, ?_⟩
  rw [e.queue_changeQueue_self hq]
  exact step.2.2.nested he.1.tidy hr

/-! ## More pending entries -/

/-- Further entries are made and put on a queue with the pending ones. -/
theorem step_more {f : List EntryRef → List EntryRef} (he : (nest K).inv e) (hq : q < e.queues.size)
    (hh : healthy.Step e e') (hr : e.Roots e') (hc : e'.catalogue = e.catalogue)
    (hs : e'.scripts = e.scripts) (hj : e'.journal = e.journal)
    (here : (e'.queue q).pending = f (e.queue q).pending)
    (other : ∀ p, p ≠ q → (e'.queue p).pending = (e.queue p).pending)
    (same : ∀ m, m < e.entries.size → (e'.entry m).residing = (e.entry m).residing)
    (hf : ∀ n ∈ f (e.queue q).pending, n ∈ (e.queue q).pending ∨ (e'.entry n).residing = some q)
    (hnew : ∀ {m}, e.entries.size ≤ m → e'.Live m → Engine.Origin K e' m)
    (hn : ∃ r, e'.Nested r (f (e.queue q).pending)) : (nest K).Step e e' := by
  have stays {p : QueueRef} {m : EntryRef} (hm : m ∈ (e.queue p).pending) :
      (e'.entry m).residing = some p :=
    (same m (he.1.tidy.pending p m hm).1).trans (he.2.residing hm)
  refine ⟨⟨hh.1, he.2.moved he.1.tidy hh.2.1 hr hc hs hj hnew (fun p => ?_) fun {p m} hm => ?_⟩, hh.2, hr⟩
  · by_cases hp : p = q
    · rw [hp, here]
      exact hn
    · rw [other p hp]
      obtain ⟨r, nested⟩ := he.2.pending p
      exact ⟨r, hr.nested he.1.tidy nested⟩
  · by_cases hp : p = q
    · subst hp
      rw [here] at hm
      exact (hf m hm).elim stays id
    · rw [other p hp] at hm
      exact stays hm

/-! ## Lines of a source -/

/-- The engine with lines of a source as entries of a queue, after the entries of their blocks. -/
def lined (e : Engine) (q : QueueRef) (xs ys : List Entry) (f : List EntryRef → List EntryRef) : Engine :=
  (e.grown xs).put q (ys.map ((e.grown xs).placed q)) f

section Lines

variable {xs ys : List Entry} {ns : List EntryRef} {f : List EntryRef → List EntryRef}
  (hns : ns = List.range' (e.grown xs).entries.size ys.length)

include hns

/-- The lines of a source are among the new entries. -/
theorem entry_lined {m : EntryRef} (hm : m ∈ ns) : m < (lined e q xs ys f).entries.size ∧
    ∃ y ∈ ys, (lined e q xs ys f).entry m = (e.grown xs).placed q y := by
  rw [hns] at hm
  obtain ⟨hge, hlt⟩ := List.mem_range'_1.1 hm
  obtain ⟨i, rfl⟩ := Nat.exists_eq_add_of_le hge
  have hi : i < ys.length := Nat.lt_of_add_lt_add_left hlt
  refine ⟨?_, ys[i], List.getElem_mem hi, (e.grown xs).entry_put q _ f (by simp [hi])⟩
  unfold lined
  rw [Engine.size_put, List.length_map]
  exact hlt

/-- Lines of a source belong to no loop, and are no marks. -/
theorem unlooped_lined (hK : K.Native) (hy : ∀ y ∈ ys, y.IsBlank ∧ K.Lists y.code) {m : EntryRef}
    (hm : m ∈ ns) : m < (lined e q xs ys f).entries.size ∧
      ((lined e q xs ys f).entry m).isLoopMark = false ∧ (lined e q xs ys f).NearestLoop m none := by
  obtain ⟨size, y, mem, here⟩ := entry_lined (q := q) (f := f) hns hm
  obtain ⟨blank, script, source, hsource, hmem⟩ := hy y mem
  refine ⟨size, ?_, .top ?_⟩
  · rw [here]
    exact (hK.buildLines script hsource _ hmem).isMark
  · rw [here]
    exact blank.owner

omit hns in
/-- Lines of a source leave the roots as they are. -/
theorem roots_lined (e : Engine) (q : QueueRef) (xs ys : List Entry) (f : List EntryRef → List EntryRef) :
    e.Roots (lined e q xs ys f) :=
  (e.roots_grown xs).trans ((e.grown xs).roots_put q _ f)

/-- Lines of a source are put on a queue so that all pending entries are nested. -/
theorem step_lined (he : (nest K).inv e) (hq : q < e.queues.size) (hb : e.Brings (xs ++ ys) ns)
    (hh : healthy.Step e (e.grown (xs ++ ys)))
    (hput : healthy.Step (e.grown (xs ++ ys)) (lined e q xs ys f))
    (hy : ∀ y ∈ ys, y.IsBlank ∧ K.Lists y.code) (hf : ∀ ms, ∀ n ∈ f ms, n ∈ ms ∨ n ∈ ns)
    (hn : ∃ r, (lined e q xs ys f).Nested r (f (e.queue q).pending)) :
    (nest K).Step e (lined e q xs ys f) := by
  refine step_more he hq (hh.trans hput) (roots_lined e q xs ys f) rfl rfl rfl
    (congrArg Queue.pending ((e.grown xs).queue_put q _ f hq)) (fun p hp => ?_) (fun m hm => ?_)
    (fun n hn => ?_) (fun {m} hm live => ?_) hn
  · exact congrArg Queue.pending ((e.grown xs).queue_put_of_ne q _ f (Ne.symm hp))
  · unfold lined
    rw [(e.grown xs).entry_put_of_lt q _ f (by rw [Engine.size_grown]; exact Nat.lt_add_right _ hm),
      e.entry_grown_of_lt hm]
  · refine (hf _ n hn).imp id fun hn => ?_
    obtain ⟨-, y, -, here⟩ := entry_lined (q := q) (f := f) hns hn
    rw [here]
    rfl
  · -- The entries of blocks are base entries, so only the lines are left.
    have size : (lined e q xs ys f).entries.size = (e.grown (xs ++ ys)).entries.size := by
      unfold lined
      rw [Engine.size_put, List.length_map, ← Engine.grown_grown, Engine.size_grown _ ys]
    have live' : (e.grown (xs ++ ys)).Live m := ⟨size ▸ live.1, fun h => live.2 (hput.2.1.kept h)⟩
    obtain ⟨-, y, mem, here⟩ := entry_lined (q := q) (f := f) hns (hb.mem_of_live hm live')
    obtain ⟨blank, lists⟩ := hy y mem
    refine .line ?_ ?_
    · rw [here]
      exact blank.owner
    · rw [here]
      exact lists

variable (hK : K.Native) (he : (nest K).inv e) (hq : q < e.queues.size) (hb : e.Brings (xs ++ ys) ns)
  (hs : ∀ x ∈ xs ++ ys, x.code.Sound) (hy : ∀ y ∈ ys, y.IsBlank ∧ K.Lists y.code)

include hK he hq hb hs hy

/-- Lines of a source are put behind a queue, which leaves its entries nested. -/
theorem leaves_append : (nest K).Leaves e (fun _ _ => True) (Queues.append q ns (e.grown (xs ++ ys))) := by
  obtain ⟨made, live⟩ := Healthy.blocks.grow he.1 hb hs
  have put := (safe_append Healthy.blocks (healthy.mine_mono made.2 hq) live).run _ made.1 (healthy.refl _)
  have eq : Queues.append q ns (e.grown (xs ++ ys)) = (.ok (), lined e q xs ys (· ++ ns)) := by
    rw [← Engine.grown_grown, hns]
    exact (e.grown xs).append_grown q ys
  rw [eq] at put ⊢
  refine ⟨step_lined hns he hq hb made put.1 hy (fun _ _ hn => List.mem_append.1 hn) ?_, trivial⟩
  obtain ⟨r, hr⟩ := he.2.pending q
  exact ⟨r, ((roots_lined e q xs ys _).nested he.1.tidy hr).concat fun m hm => unlooped_lined hns hK hy hm⟩

/-- Where no mark is pending, lines may be put at the head of a queue. -/
theorem leaves_inject (hm : ∀ n ∈ (e.queue q).pending, (e.entry n).isLoopMark = false) :
    (nest K).Leaves e (fun _ _ => True) (Queues.inject q ns (e.grown (xs ++ ys))) := by
  obtain ⟨made, live⟩ := Healthy.blocks.grow he.1 hb hs
  have put := (safe_inject Healthy.blocks (healthy.mine_mono made.2 hq) live).run _ made.1 (healthy.refl _)
  have eq : Queues.inject q ns (e.grown (xs ++ ys)) = (.ok (), lined e q xs ys (ns ++ ·)) := by
    rw [← Engine.grown_grown, hns]
    exact (e.grown xs).inject_grown q ys
  rw [eq] at put ⊢
  refine ⟨step_lined hns he hq hb made put.1 hy (fun _ _ hn => (List.mem_append.1 hn).symm) ?_, trivial⟩
  obtain ⟨r, hr⟩ := he.2.pending q
  obtain rfl := hr.eq_none_of_unmarked hm
  exact ⟨none, ((roots_lined e q xs ys _).nested he.1.tidy hr).append fun m hm =>
    unlooped_lined hns hK hy hm⟩

end Lines

section Loading

variable {codes : List Compiled}

/-- What a catalogue lists is sound. -/
theorem sound_of_lists (hK : K.Native) {c : Compiled} (h : K.Lists c) : c.Sound := by
  obtain ⟨script, source, -, hmem⟩ := h
  exact hK.toSound.buildLines script _ _ hmem

/-- The entries of lines of a source. -/
theorem lists_prepared {xs ys : List Entry} (hc : ∀ c ∈ codes, K.Lists c) (ready : e.Prepares codes xs ys) :
    ∀ y ∈ ys, y.IsBlank ∧ K.Lists y.code :=
  fun y hy => ⟨ready.blank y hy, hc _ (ready.codes_eq ▸ List.mem_map_of_mem hy)⟩

/-- Lines of a source are loaded onto a queue, which leaves its entries nested. -/
theorem load (hK : K.Native) (hc : ∀ c ∈ codes, K.Lists c) (hq : (nest K).mine e₀ q) :
    (nest K).Safe e₀ (do Queues.append q (← Entries.createAll codes)) := by
  refine ⟨fun e he hl => ?_⟩
  obtain ⟨xs, ys, run, ready⟩ := Entries.createAll_eq e codes
  have sound := ready.handed_down .enclosed fun c h => sound_of_lists hK (hc c h)
  rw [Action.bind_ok run]
  exact leaves_append rfl hK he ((nest K).mine_mono hl hq) ready.brings sound (lists_prepared hc ready)

/-- The entries of a script are cloned. -/
theorem loadBase (hK : K.Native) {ms : List EntryRef} (hm : ∀ m ∈ ms, (nest K).Stock e₀ m)
    (hq : (nest K).mine e₀ q) : (nest K).Safe e₀ (do Queues.append q (← Entries.cloneAll ms)) := by
  refine ⟨fun e he hl => ?_⟩
  have stock : ∀ m ∈ ms, (nest K).Stock e m := fun m h => (hm m h).mono hl.1.1 (hl.2.code (hm m h).lt)
  have base : ∀ m ∈ ms, e.IsBase m := fun m h => (stock m h).base
  have lists : ∀ y ∈ ms.map e.entry, y.IsBlank ∧ K.Lists y.code := fun y hy => by
    obtain ⟨m, mem, rfl⟩ := List.mem_map.1 hy
    exact ⟨he.1.tidy.based.blank (base m mem), (stock m mem).fits⟩
  rw [Action.bind_ok (he.1.tidy.based.cloneAll base)]
  have cloned := leaves_append rfl hK he ((nest K).mine_mono hl hq) (he.1.tidy.based.brings_clones base)
    (fun y hy => sound_of_lists hK (lists y hy).2) lists
  rwa [Engine.grown_nil, List.length_map, List.nil_append] at cloned

end Loading

/-! ## Replacement -/

/-- The pending entries when a queue was replaced. -/
theorem pending_replaces {d : Option Delay} {e' : Engine} (h : e.Replaces q d e') (p : QueueRef) :
    (e'.queue p).pending = if p = e.queues.size then (e.queue q).pending
      else if p = q then [] else (e.queue p).pending := by
  split
  · rename_i hp
    rw [hp, h.new]
  · split
    · rename_i hp
      rw [hp, h.old]
    · rename_i ht hp
      rw [h.other hp ht]

/-- A queue hands its pending entries to the queue that replaces it. -/
theorem looped_replaced {d : Option Delay} (he : (nest K).inv e) (hg : e.Grows e')
    (h : e.Replaces q d e') :
    e'.Looped K ∧ e.Roots e' := by
  have roots : e.Roots e' :=
    ⟨Nat.le_of_eq h.moved.size.symm, fun _ => h.moved.code _, fun _ => h.moved.owner _,
      fun _ hl => by rwa [h.moved.loop]⟩
  refine ⟨he.2.moved he.1.tidy hg roots h.books.catalogue h.books.scripts h.books.journal
    (fun hn hn' => ?_) (fun p => ?_) fun {p n} hn => ?_, roots⟩
  · exact absurd (h.moved.size ▸ hn'.1) (Nat.not_lt.2 hn)
  · have nested (p : QueueRef) : ∃ r, e'.Nested r (e.queue p).pending := by
      obtain ⟨r, hr⟩ := he.2.pending p
      exact ⟨r, roots.nested he.1.tidy hr⟩
    rw [pending_replaces h]
    split
    · exact nested q
    · split
      · exact ⟨none, .nil⟩
      · exact nested p
  · rw [pending_replaces h] at hn
    split at hn
    · rename_i hp
      rw [hp]
      exact h.moved.residing hn (he.1.tidy.pending q n hn).1
    · split at hn
      · cases hn
      · rename_i hpq
        have hres := he.2.residing hn
        rw [h.moved.other fun hm => hpq (Option.some.inj (hres.symm.trans (he.2.residing hm)))]
        exact hres

/-- The replacement of a queue has its entries nested. -/
theorem replace (d : Option Delay) (hq : (nest K).mine e₀ q) :
    (nest K).Gives e₀ (Queues.replaceByTimed q d) fun t e => (nest K).mine e t := by
  refine ⟨fun e he hl => ?_⟩
  have hqe := (nest K).mine_mono hl hq
  have kept := (Healthy.gives_replace d hqe).run e he.1 (healthy.refl e)
  obtain ⟨e', heq, replaces⟩ := e.replaceByTimed_replaces d hqe
  rw [heq] at kept ⊢
  obtain ⟨looped, roots⟩ := looped_replaced he kept.1.2.1 replaces
  exact ⟨⟨⟨kept.1.1, looped⟩, kept.1.2, roots⟩, kept.2⟩

/-! ## Scripts -/

/-- Scripts keep their sources, and their entries are lines of a source. -/
theorem step_scripts (he : (nest K).inv e) (hh : healthy.Step e e') (hr : e.Roots e')
    (hc : e'.catalogue = e.catalogue) (hq : e'.queues = e.queues) (hj : e'.journal = e.journal)
    (hs : ∀ i, Source.Unmarked K (e'.script i).source)
    (hb : ∀ {i ns}, (e'.script i).base = some ns → (e.script i).base = some ns ∨
      ∀ m ∈ ns, K.Lists (e'.entry m).code)
    (same : ∀ m, m < e.entries.size → e'.entry m = e.entry m)
    (hnew : ∀ m, e.entries.size ≤ m → ¬ e'.Live m) : (nest K).Step e e' := by
  refine ⟨⟨hh.1, he.2.later he.1.tidy hh.2.1 hr hc hs hj hb (fun hm live => absurd live (hnew _ hm))
    (fun q => ?_) fun {q n} hn => ?_⟩, hh.2, hr⟩
  · obtain ⟨r, nested⟩ := he.2.pending q
    rw [Engine.queue_congr hq]
    exact ⟨r, hr.nested he.1.tidy nested⟩
  · rw [Engine.queue_congr hq] at hn
    rw [same n (he.1.tidy.pending q n hn).1]
    exact he.2.residing hn

/-- A script keeps the base entries that were made of it, and loops stay nested. -/
theorem keep {i : Nat} {xs ys : List Entry} (hK : K.Native) (he : (nest K).inv e)
    (hnone : (e.script i).base = none) (ready : e.Prepares (e.compiled i) xs ys)
    (hc : ∀ c ∈ e.compiled i, K.Lists c) : (nest K).Step e
      ((e.grown (xs ++ ys)).keepBase i (List.range' (e.grown xs).entries.size ys.length)) := by
  have kept := Healthy.running.keep he.1 hnone ready fun c h => sound_of_lists hK (hc c h)
  let ns := List.range' (e.grown xs).entries.size ys.length
  let e' := (e.grown (xs ++ ys)).keepBase i ns
  have source (j : Nat) : (e'.script j).source = (e.script j).source := by
    obtain ⟨base, h⟩ := (e.grown (xs ++ ys)).script_keepBase i j ns
    show (((e.grown (xs ++ ys)).keepBase i ns).script j).source = _
    rw [h]
    rfl
  have roots : e.Roots e' := by
    obtain ⟨size, code, owner, loop⟩ := e.roots_grown (xs ++ ys)
    exact ⟨size, code, owner, loop⟩
  refine step_scripts he kept roots rfl rfl rfl (fun j => ?_) (fun {j ms} hj => ?_)
    (fun m hm => e.entry_grown_of_lt hm) fun m hm live => ?_
  · rw [source]
    exact he.2.source j
  · rw [Engine.base_keepBase] at hj
    split at hj
    · cases hj
      refine .inr fun m hm => ?_
      have made := (Engine.Adds.of_mem_range hm).mem
      rw [Engine.grown_grown] at made
      exact (lists_prepared hc ready _ made).2
    · exact .inl hj
  · -- The lines are base entries of the script, and all others are in their blocks.
    have live' : (e.grown (xs ++ ys)).Live m := ⟨live.1, fun hb => live.2 (hb.keepBase hnone)⟩
    exact live.2 (ready.isBase_kept m (ready.brings.mem_of_live hm live'))

/-- A script with no mark in its source is registered, and loops stay nested. -/
theorem register {record : ScriptRecord} (he : (nest K).inv e) (hb : record.base = none)
    (hs : Source.Unmarked K record.source) :
    (nest K).Step e { e with
      scripts := e.scripts.push record
      scriptNames := e.scriptNames.put (Text.lower record.name) e.scripts.size } := by
  have kept : healthy.Step e _ := @Hosting.register healthy Healthy.hosting e record he.1 hb trivial
  have script (k : Nat) : (e.scripts.push record).getD k default = e.script k ∨
      (e.scripts.push record).getD k default = record := by
    simp only [Engine.script, Array.getD_eq_getD_getElem?, Array.getElem?_push]
    split
    · exact .inr rfl
    · exact .inl rfl
  refine step_scripts he kept ⟨Nat.le_refl _, fun _ => rfl, fun _ => rfl, fun _ h => h⟩ rfl rfl rfl
    (fun k => ?_) (fun {k ns} hbase => .inl ?_) (fun _ _ => rfl) fun m hm live =>
      absurd live.1 (Nat.not_lt.2 hm)
  · show Source.Unmarked K ((e.scripts.push record).getD k default).source
    rcases script k with hk | hk
    · rw [hk]
      exact he.2.source k
    · rw [hk]
      exact hs
  · rwa [← Engine.base_push e hb k]

/-! ## The laws -/

section Laws

variable (hK : K.Native)

include hK

omit hK in
/-- Queues are emptied and loops stay nested. -/
theorem emptying : (nest K).Emptying where
  take he hq hp := take he hq hp
  clear he hq := step_level he (Healthy.blocks.emptying.clear he.1 hq)
    (.changeQueue _ _ fun _ => .inr rfl)
  drop count hq := safe_change fun e he hl => by
    obtain ⟨r, hr⟩ := he.2.pending _
    exact step_fewer (f := List.drop count) he ((nest K).mine_mono hl hq)
      (fun _ hk => List.mem_of_mem_drop hk) (hr.drop count)
  stop hq := gives_level (Healthy.blocks.stop hq) fun _ _ => Level.closing.safe_stop

omit hK in
/-- Base entries are made and loops stay nested. -/
theorem basing : (nest K).Basing where
  based he := he.1.tidy.based
  stock_mono h hn := hn.mono h.1.1 (h.2.code hn.lt)

/-- Queues have their turns and loops stay nested. -/
theorem turns : (nest K).Turns where
  toBookkeeping := bookkeeping
  toBasing := basing
  load hq hc := load hK hc hq
  loadBase hq hm := loadBase hK hm hq
  determine v hq := gives_level (Healthy.blocks.determine v hq) fun _ _ =>
    Level.closing.safe_determine v
  stop hq := emptying.stop hq
  keep he hnone ready hc := keep hK he hnone ready hc
  launch {e _} he hq _ := (gives_level (Healthy.safe_launch hq) fun _ hl => Level.closing.safe_launch
    fun _ hl' => Nat.lt_of_lt_of_le hq (Nat.le_trans hl.queues hl'.queues)).run e he ((nest K).refl e)
  finishQueue hq := gives_level (Healthy.running.finishQueue hq) fun _ _ => Level.closing.safe_finish
  delay d he hq := step_level he (Healthy.running.delay d he.1 hq)
    (.changeQueue _ _ fun _ => .inl rfl)
  waiting he hq h := Healthy.running.waiting he.1 hq h
  pace hl hq := Healthy.running.pace hl.1 hq
  fits_source script source he hs c hc := by
    rw [he.2.catalogue] at hc
    exact ⟨script, source, hs, hc⟩
  reads_script n he := he.2.source n
  fits_base he h := he.2.base h
  counters t he := step_level he (Healthy.turns.counters t he.1)
    (.of_tables rfl rfl rfl rfl rfl)
  make he hx hm := by
    refine ⟨step_level he (Healthy.turns.make he.1 hx hm).1 (.withQueue _ hx.pending), ?_, ?_⟩
    · simp [nest]
    · simp [nest]

/-- Commands reach beyond their queue and loops stay nested. -/
theorem outreach : (nest K).Outreach where
  toTurns := turns hK
  replace d hq := replace d hq
  work job he hn := ⟨step_level he (Healthy.outreach.work job he.1 hn).1
    (.of_tables rfl rfl rfl rfl rfl), trivial⟩
  perform {e} job he := by
    refine step_level he (Healthy.outreach.perform job he.1) ?_
    obtain ⟨files, clock, webPlans, webCalls, h⟩ := Background.perform_eq e job
    rw [h]
    exact .of_tables rfl rfl rfl rfl rfl
  listen hq hn := (gives_level (Healthy.outreach.listen hq hn) fun _ _ =>
    Level.closing.safe_onComplete fun _ _ => trivial).mono fun _ _ _ _ _ => trivial
  registered he h := he.1.tidy.registered?_lt h
  unheld _ _ _ := .inl trivial

/-- The host keeps loops nested. -/
theorem hosting : (nest K).Hosting where
  toOutreach := outreach hK
  mine_iff := Iff.rfl
  register he hb hs := register he hb hs
  world files webPlans clock bases attributes heartbeatTime beats he := step_level he
    (Healthy.hosting.world files webPlans clock bases attributes heartbeatTime beats he.1)
    (.of_tables rfl rfl rfl rfl rfl)
  pause q he := by
    refine step_level he (Healthy.hosting.pause q he.1) (.changeQueue _ q fun x => .inl ?_)
    split <;> rfl
  resume q he := by
    refine step_level he (Healthy.hosting.resume q he.1) (.changeQueue _ q fun x => .inl ?_)
    split <;> rfl
  live he hp := he.1.tidy.registry hp
  hear {e} q label error he := by
    have heard : (nest K).Safe e (Queues.onComplete q (.notify label error)) :=
      gives_level (Healthy.safe_notify label error) fun _ _ =>
        Level.closing.safe_onComplete fun _ _ => trivial
    exact heard.kept he
  inject {e q source} he hq hs hy := by
    have compiled := (gives_compile (turns hK).toTurning hs none).run e he ((nest K).refl e)
    have compiling : level.Safe e (Scripts.compile source none) :=
      safe_compile Level.closing.toBookkeeping source none
    have moved := Level.run compiling
    have put : (nest K).Leaves e (fun _ _ => True) ((Scripts.compile source none >>= fun codes => do
        Queues.inject q (← Entries.createAll codes)) e) := by
      match hr : Scripts.compile source none e with
      | (.error f, e₁) =>
        rw [hr] at compiled
        rw [Action.bind_error hr]
        exact leaves_error_of compiled
      | (.ok codes, e₁) =>
        rw [hr] at compiled moved
        rw [Action.bind_ok hr]
        obtain ⟨xs, ys, run, ready⟩ := Entries.createAll_eq e₁ codes
        have sound := ready.handed_down .enclosed fun c h => sound_of_lists hK (compiled.2 c h)
        rw [Action.bind_ok run]
        refine (leaves_inject rfl hK compiled.1.1 ((nest K).mine_mono compiled.1.2 hq) ready.brings
          sound (lists_prepared compiled.2 ready) fun n hn => ?_).from compiled.1.2
        -- What is wrong with the source was reported; the pending entries are those of before.
        have code : (e₁.entry n).isLoopMark = (e.entry n).isLoopMark := by
          unfold Entry.isLoopMark
          rw [moved.code]
        rw [code]
        rcases moved.pending q with hp | hp
        · exact hy n (hp ▸ hn)
        · rw [hp] at hn
          cases hn
    rw [← bind_assoc] at put
    exact put.kept

/-- Beats keep loops nested. -/
theorem beating : (nest K).Beating where
  toHosting := hosting hK
  schedule label error again he := step_level he
    (Healthy.beating.schedule label error again he.1)
    (.of_tables rfl rfl rfl rfl rfl)
  settle {e w i} he hw := by
    refine step_level he (Healthy.beating.settle he.1 hw) ?_
    obtain ⟨files, clock, webPlans, webCalls, h⟩ :=
      Background.perform_eq { e with inFlight := e.inFlight.eraseIdx i } w.job
    simp only [Background.settleOne, h]
    exact .of_tables rfl rfl rfl rfl rfl
  takeOver _ := gives_level Healthy.safe_takeOverAll fun _ _ => Level.safe_takeOverAll

end Laws

end Nest

end Discipline

end QueueScript
