import QueueScript.Proofs.Bases
import QueueScript.Proofs.Discipline.Parse

/-!
# Blocks and loops keep a discipline

A block is run by cloning its entries and putting the clones at the head of the queue, and a loop by
doing so again and again.  The entries are placed on the queue of the entry that owns them,
which may belong to an earlier command: a mark changes the loop of its owner.  So a discipline that
allows blocks has to let owners be changed along with the entries they own.
-/

namespace QueueScript

namespace Discipline

/-- The entry is a base entry of a command that may run. -/
structure Stock (D : Discipline) (e : Engine) (n : EntryRef) : Prop where
  lt : n < e.entries.size
  base : e.IsBase n
  fits : D.fits (e.entry n).code

/-- Base entries stay base entries, and clones may be made of those whose commands may run. -/
structure Basing (D : Discipline) : Prop where
  based {e : Engine} : D.inv e → e.Based
  stock_mono {e e' : Engine} {n : EntryRef} : D.le e e' → D.Stock e n → D.Stock e' n

/-- What is put on a queue besides blocks, and what it determines. -/
structure Filling (D : Discipline) : Prop extends Bookkeeping D, Basing D where
  load {e₀ : Engine} {q : QueueRef} {codes : List Compiled} :
    D.mine e₀ q → (∀ c ∈ codes, D.fits c) →
      D.Safe e₀ (do Queues.append q (← Entries.createAll codes))
  loadBase {e₀ : Engine} {q : QueueRef} {ms : List EntryRef} :
    D.mine e₀ q → (∀ m ∈ ms, D.Stock e₀ m) → D.Safe e₀ (do Queues.append q (← Entries.cloneAll ms))
  determine {e₀ : Engine} {q : QueueRef} (v : Value) :
    D.mine e₀ q → D.Safe e₀ (Queues.determine q v)

/-- Pending entries may be taken off a queue at any time, and it may be stopped. -/
structure Emptying (D : Discipline) : Prop where
  take {e : Engine} {q : QueueRef} {n : EntryRef} {rest : List EntryRef} :
    D.inv e → D.mine e q → (e.queue q).pending = n :: rest →
      D.Step e (e.changeQueue q ({ · with pending := rest })) ∧
        D.taken (e.changeQueue q ({ · with pending := rest })) q n
  clear {e : Engine} {q : QueueRef} : D.inv e → D.mine e q →
    D.Step e (e.changeQueue q ({ · with pending := [] }))
  drop {e₀ : Engine} {q : QueueRef} (count : Nat) :
    D.mine e₀ q → D.Safe e₀ (Queues.dropFirst q count)
  stop {e₀ : Engine} {q : QueueRef} : D.mine e₀ q → D.Safe e₀ (Queues.stop q)

/-- What the commands that run blocks and end queues do, whatever the order of pending entries. -/
structure Blocks (D : Discipline) : Prop extends Bookkeeping D, Basing D where
  grow {e : Engine} {xs : List Entry} {ns : List EntryRef} : D.inv e → e.Brings xs ns →
    (∀ x ∈ xs, D.fits x.code) → D.Step e (e.grown xs) ∧ ∀ n ∈ ns, D.own (e.grown xs) n
  place {e : Engine} {n : EntryRef} {q : Option QueueRef} :
    D.inv e → D.own e n → (q = none → (e.entry n).residing = none) →
      (∀ p, q = some p → D.mine e p) →
      D.Step e (e.changeEntry n ({ · with residing := q })) ∧
        ∀ p, q = some p → D.placed (e.changeEntry n ({ · with residing := q })) p n
  belong {e : Engine} {n owner : EntryRef} : D.inv e → D.own e n → D.own e owner →
    D.Step e (e.changeEntry n ({ · with owner := some owner }))
  loop {e : Engine} {n : EntryRef} (s : LoopState) : D.inv e → D.own e n →
    D.Step e (e.changeEntry n ({ · with loop := some s }))
  hurry {e : Engine} {n : EntryRef} (b : Bool) : D.inv e → D.own e n →
    D.Step e (e.changeEntry n ({ · with forcedInstant := b }))
  owner {e : Engine} {n m : EntryRef} :
    D.inv e → D.own e n → (e.entry n).owner = some m → D.own e m
  pending {e : Engine} {q : QueueRef} (f : List EntryRef → List EntryRef) : D.inv e → D.mine e q →
    (∀ n ∈ f (e.queue q).pending, n ∈ (e.queue q).pending ∨ D.placed e q n) →
      D.Step e (e.changeQueue q fun x => { x with pending := f x.pending })
  determine {e₀ : Engine} {q : QueueRef} (v : Value) :
    D.mine e₀ q → D.Safe e₀ (Queues.determine q v)
  stop {e₀ : Engine} {q : QueueRef} : D.mine e₀ q → D.Safe e₀ (Queues.stop q)
  fits_code {e : Engine} {n : EntryRef} : D.inv e → D.own e n → D.fits (e.entry n).code
  fits_branch {c c' : Compiled} : D.fits c → c.Encloses c' → D.fits c'
  fits_mark {e : Engine} (script : Option ScriptRef) (number : Int) : D.inv e →
    D.fits (buildFlat e.catalogue script "repeat" [Builtin.loopMark] number).1

/-- What the commands that run blocks do, with every block taken as a whole. -/
structure Weaving (D : Discipline) : Prop extends Bookkeeping D, Basing D where
  loop {e : Engine} {n : EntryRef} (s : LoopState) : D.inv e → D.own e n →
    D.Step e (e.changeEntry n ({ · with loop := some s }))
  owner {e : Engine} {n m : EntryRef} :
    D.inv e → D.own e n → (e.entry n).owner = some m → D.own e m
  block {e₀ : Engine} {n : EntryRef} {q : QueueRef} {ms : List EntryRef} : D.own e₀ n →
    D.mine e₀ q → (∀ m ∈ ms, D.Stock e₀ m) →
      D.Safe e₀ (do Queues.inject q (← Entries.spawn n ms))
  round {e₀ : Engine} {owner : EntryRef} {q : QueueRef} {body : List EntryRef} : D.own e₀ owner →
    D.mine e₀ q → (∀ m ∈ body, D.Stock e₀ m) →
      D.Safe e₀ (Commands.Loop.injectIteration owner q body)
  fits_code {e : Engine} {n : EntryRef} : D.inv e → D.own e n → D.fits (e.entry n).code
  fits_branch {c c' : Compiled} : D.fits c → c.Encloses c' → D.fits c'

variable {D : Discipline} {e₀ : Engine} {calls : Calls} {n : EntryRef} {q : QueueRef}

/-! ## Definitions -/

section Definitions

variable (hb : D.Bookkeeping) (hq : D.mine e₀ q)

include hb hq

/-- A definition is made on a queue. -/
theorem safe_define (name : String) (v : Value) : D.Safe e₀ (Queues.define q name v) :=
  safe_change fun _ he hl => hb.memory _ he (D.mine_mono hl hq)

/-- A definition is removed from a queue. -/
theorem safe_undefine (name : String) : D.Safe e₀ (Queues.undefine q name) :=
  safe_change fun _ he hl => hb.memory _ he (D.mine_mono hl hq)

/-- Definitions are made one after another. -/
theorem safe_defineAll (pairs : List (String × Value)) : D.Safe e₀ (Queues.defineAll q pairs) :=
  safe_each fun p _ => safe_define hb hq p.1 p.2

/-- An entry is saved under a name. -/
theorem safe_hold (name : String) (n : EntryRef) : D.Safe e₀ (Queues.hold q name n) :=
  safe_change fun _ he hl => hb.memory _ he (D.mine_mono hl hq)

end Definitions

/-! ## Commands that only keep notes and definitions -/

section Notes

variable (hb : D.Bookkeeping) (hn : D.own e₀ n)

include hb

/-- What `debug` does. -/
theorem safe_debugExecute : D.Safe e₀ (Commands.Debug.execute n) := by
  refine safe_bind (safe_element? n _) fun _ => safe_bind (safe_scope n) fun scope => ?_
  refine safe_bind (safe_element? n _) fun kind => ?_
  split
  · exact safe_trace hb _ scope
  · exact safe_error hb _ scope none
  · exact safe_log hb _ scope

include hn

/-- What `define` does. -/
theorem safe_defineExecute : D.Safe e₀ (Commands.Define.execute n) := by
  refine gives_bind (gives_requireQueue hb hn) fun q e₁ _ hl hq => ?_
  refine safe_bind (safe_element? n _) fun name => safe_bind (safe_object? n _) fun found => ?_
  split
  · exact safe_bind (safe_reportParsed hb n _) fun _ => safe_undefine hb hq _
  · refine safe_bind (safe_describe _) fun _ => ?_
    exact safe_bind (safe_reportParsed hb n _) fun _ => safe_define hb hq _ _

end Notes

/-! ## Entries of blocks -/

section Entries

variable (hf : D.Blocks)

include hf

/-- Entries are created from a list of compiled lines, and are the engine's own. -/
theorem gives_createAll {codes : List Compiled} (hc : ∀ c ∈ codes, D.fits c) :
    D.Gives e₀ (Entries.createAll codes) fun ns e => ∀ n ∈ ns, D.own e n := by
  refine ⟨fun e he _ => ?_⟩
  obtain ⟨xs, ys, run, ready⟩ := Entries.createAll_eq e codes
  rw [run]
  exact hf.grow he ready.brings (ready.handed_down hf.fits_branch hc)

/-- An entry is created from a compiled line, and is the engine's own. -/
theorem gives_create {code : Compiled} (hc : D.fits code) :
    D.Gives e₀ (Entries.create code) fun n e => D.own e n := by
  refine ⟨fun e he _ => ?_⟩
  obtain ⟨xs, y, run, ready⟩ := Entries.create_eq e code
  have fits := ready.handed_down hf.fits_branch fun c h => List.mem_singleton.1 h ▸ hc
  obtain ⟨step, own⟩ := hf.grow he ready.brings fits
  rw [run]
  exact ⟨step, own _ (List.mem_singleton_self _)⟩

/-- A clone of a base entry is a new entry that may be put on a queue. -/
theorem gives_clone {m : EntryRef} (hm : D.Stock e₀ m) :
    D.Gives e₀ (Entries.clone m) fun n e => D.own e n ∧ (e.entry n).residing = none := by
  refine ⟨fun e he hl => ?_⟩
  obtain ⟨-, base, fits⟩ := hf.stock_mono hl hm
  have blank := (hf.based he).blank base
  have brings := (hf.based he).clones (fun k hk => List.mem_singleton.1 hk ▸ base : ∀ k ∈ [m], e.IsBase k)
  obtain ⟨step, own⟩ := hf.grow he brings fun x hx => by
    rw [List.mem_singleton.1 hx]
    exact fits
  rw [Entries.clone_eq blank, ← Engine.grown_singleton]
  refine ⟨step, own _ (List.mem_singleton_self _), ?_⟩
  rw [Engine.grown_singleton, Engine.entry_withEntry, if_pos rfl]
  exact blank.residing

/-- Base entries are cloned, and their clones are the engine's own. -/
theorem gives_cloneAll {ms : List EntryRef} (hm : ∀ m ∈ ms, D.Stock e₀ m) :
    D.Gives e₀ (Entries.cloneAll ms) fun ns e => ∀ n ∈ ns, D.own e n :=
  gives_collect D.own_mono fun m h => (gives_clone hf (hm m h)).mono fun _ _ _ _ hn => hn.1

/-- An entry is put on a queue, or a fresh one on none. -/
theorem leaves_place {e : Engine} {q : Option QueueRef} (he : D.inv e) (hn : D.own e n)
    (hnone : q = none → (e.entry n).residing = none) (hq : ∀ p, q = some p → D.mine e p) :
    D.Leaves e (fun _ e => ∀ p, q = some p → D.placed e p n) (Entries.place n q e) := by
  obtain ⟨step, put⟩ := hf.place he hn hnone hq
  have refreshed := (safe_refresh hf.toBookkeeping (D.own_mono step.2 hn)).run _ step.1 (D.refl _)
  exact (refreshed.mono fun _ _ hs _ p hp => D.placed_mono hs.2 (put p hp)).from step.2

/-- An entry of its own is placed on a queue of its own. -/
theorem gives_place (hn : D.own e₀ n) (hq : D.mine e₀ q) :
    D.Gives e₀ (Entries.place n (some q)) fun _ e => D.placed e q n := by
  refine ⟨fun e he hl => ?_⟩
  have placed := leaves_place hf he (D.own_mono hl hn) (q := some q) nofun fun p hp => by
    cases hp
    exact D.mine_mono hl hq
  exact placed.mono fun _ _ _ h => h q rfl

/-- An entry is made to run at once. -/
theorem safe_forceInstant (hn : D.own e₀ n) (instant : Bool) :
    D.Safe e₀ (Entries.forceInstant n instant) :=
  safe_change fun _ he hl => hf.hurry instant he (D.own_mono hl hn)

/-- An entry is given the entry that it belongs to. -/
theorem safe_belong {owner : EntryRef} (hn : D.own e₀ n) (ho : D.own e₀ owner) :
    D.Safe e₀ (Action.changeEntry n ({ · with owner := some owner })) :=
  safe_change fun _ he hl => hf.belong he (D.own_mono hl hn) (D.own_mono hl ho)

/-- The entries of a block are spawned and are the engine's own. -/
theorem gives_spawn {owner : EntryRef} {ms : List EntryRef} (ho : D.own e₀ owner)
    (hm : ∀ m ∈ ms, D.Stock e₀ m) :
    D.Gives e₀ (Entries.spawn owner ms) fun ns e => ∀ n ∈ ns, D.own e n := by
  refine look_bind fun e₁ he hl => ?_
  have ho₁ := D.own_mono hl ho
  refine gives_collect D.own_mono fun m h => ?_
  refine gives_bindAt (gives_clone hf (hf.stock_mono hl (hm m h))) fun n e₂ he₂ hl₂ hn => ?_
  have owned := hf.belong he₂ hn.1 (D.own_mono hl₂ ho₁)
  have placed := leaves_place hf owned.1 (D.own_mono owned.2 hn.1) (q := e₁.residingQueue owner)
    (fun _ => ?_) fun p hp => ?_
  · have safe : D.Leaves _ (fun m e => D.own e m) ((do
        Entries.place n (e₁.residingQueue owner)
        pure n : Action EntryRef) (e₂.changeEntry n ({ · with owner := some owner }))) :=
      leaves_bind placed fun _ e₃ he₃ hl₃ _ =>
        ⟨Step.refl he₃, D.own_mono hl₃ (D.own_mono owned.2 hn.1)⟩
    exact safe.from owned.2
  · exact (Engine.entry_changeEntry_keep _ (f := ({ · with owner := some owner }))
      (g := Entry.residing) (fun _ => rfl) n n).trans hn.2
  · exact D.mine_mono (D.trans hl₂ owned.2) (hf.residing he ho₁ hp)

/-- Entries are put on a queue in front of the pending ones or behind them. -/
theorem safe_putOn {f : List EntryRef → List EntryRef} {entries : List EntryRef}
    (hq : D.mine e₀ q) (hn : ∀ n ∈ entries, D.own e₀ n)
    (hfe : ∀ ns, ∀ n ∈ f ns, n ∈ ns ∨ n ∈ entries) :
    D.Safe e₀ (Action.each (Entries.place · (some q)) entries >>= fun _ =>
      Action.changeQueue q fun x => { x with pending := f x.pending }) := by
  have put : D.Gives e₀ (Action.each (Entries.place · (some q)) entries)
      fun _ e => ∀ n ∈ entries, D.placed e q n := by
    exact gives_each (fun hl h => D.placed_mono hl h) fun n h => gives_place hf (hn n h) hq
  refine gives_bind put fun _ e₁ _ hl hput => safe_change fun e he hl₂ => ?_
  refine hf.pending f he (D.mine_mono hl₂ (D.mine_mono hl hq)) fun n h => ?_
  exact (hfe _ n h).imp id fun h => D.placed_mono hl₂ (hput n h)

/-- Entries are put in front of a queue. -/
theorem safe_inject {entries : List EntryRef} (hq : D.mine e₀ q) (hn : ∀ n ∈ entries, D.own e₀ n) :
    D.Safe e₀ (Queues.inject q entries) :=
  safe_putOn hf hq hn fun _ _ h => (List.mem_append.1 h).symm

/-- Entries are put behind a queue. -/
theorem safe_append {entries : List EntryRef} (hq : D.mine e₀ q) (hn : ∀ n ∈ entries, D.own e₀ n) :
    D.Safe e₀ (Queues.append q entries) :=
  safe_putOn hf hq hn fun _ _ h => List.mem_append.1 h

/-- Pending entries are taken off the front of a queue. -/
theorem safe_dropFirst (hq : D.mine e₀ q) (count : Nat) : D.Safe e₀ (Queues.dropFirst q count) :=
  safe_change fun _ he hl => hf.pending (List.drop count) he (D.mine_mono hl hq)
    fun _ h => .inl (List.mem_of_mem_drop h)

/-- A discipline that does not mind the order of pending entries lets queues be filled. -/
theorem Blocks.filling : D.Filling where
  toBookkeeping := hf.toBookkeeping
  toBasing := hf.toBasing
  load hq hc := gives_bind (gives_createAll hf hc) fun _ _ _ hl hns =>
    safe_append hf (D.mine_mono hl hq) hns
  loadBase hq hm := gives_bind (gives_cloneAll hf hm) fun _ _ _ hl hns =>
    safe_append hf (D.mine_mono hl hq) hns
  determine v hq := hf.determine v hq

/-- A discipline that does not mind the order of pending entries lets them be taken off. -/
theorem Blocks.emptying [D.Open] : D.Emptying where
  take he hq hp := by
    refine ⟨hf.pending (fun _ => _) he hq fun m hm => .inl ?_, Open.taken _ _ _⟩
    rw [hp]
    exact List.mem_cons_of_mem _ hm
  clear he hq := hf.pending (fun _ => []) he hq fun _ h => absurd h List.not_mem_nil
  drop count hq := safe_dropFirst hf hq count
  stop hq := hf.stop hq

/-- The entries of a block of an entry are put at the head of the queue. -/
theorem safe_injectBlock {ms : List EntryRef} (hn : D.own e₀ n) (hq : D.mine e₀ q)
    (hm : ∀ m ∈ ms, D.Stock e₀ m) :
    D.Safe e₀ (do Queues.inject q (← Entries.spawn n ms)) :=
  gives_bind (gives_spawn hf hn hm) fun _ _ _ hl hns => safe_inject hf (D.mine_mono hl hq) hns

/-- The mark of a loop is created and is the engine's own. -/
theorem gives_createMark {owner : EntryRef} (ho : D.own e₀ owner) :
    D.Gives e₀ (Commands.Loop.createMark owner) fun n e => D.own e n := by
  refine safe_bind (safe_entry owner) fun x => look_bind fun e₁ he hl => ?_
  dsimp only
  refine safe_bind (safe_noteAll hf.toBookkeeping _) fun _ => ?_
  refine gives_bind (gives_create hf (hf.fits_mark _ _ he)) fun mark e₂ _ hl₂ hm => ?_
  refine safe_bind (safe_belong hf hm (D.own_mono (D.trans hl hl₂) ho)) fun _ => ?_
  exact gives_pure fun _ _ hl₃ => D.own_mono hl₃ hm

/-- The entries of a round and the mark behind them are put in front of a queue. -/
theorem safe_injectIteration {owner : EntryRef} {body : List EntryRef} (ho : D.own e₀ owner)
    (hq : D.mine e₀ q) (hm : ∀ m ∈ body, D.Stock e₀ m) :
    D.Safe e₀ (Commands.Loop.injectIteration owner q body) := by
  refine gives_bind (gives_spawn hf ho hm) fun entries e₁ _ hl hes => ?_
  refine gives_bind (gives_createMark hf (D.own_mono hl ho)) fun mark e₂ _ hl₂ hm => ?_
  have hall : ∀ n ∈ entries ++ [mark], D.own e₂ n := by
    intro n hn
    rcases List.mem_append.1 hn with h | h
    · exact D.own_mono hl₂ (hes n h)
    · rw [List.mem_singleton.1 h]; exact hm
  refine safe_bind (safe_each fun n hn => safe_forceInstant hf (hall n hn) true) fun _ => ?_
  exact safe_inject hf (D.mine_mono (D.trans hl hl₂) hq) hall

/-- A discipline that does not mind the order of pending entries lets blocks be run. -/
theorem Blocks.weaving : D.Weaving where
  toBookkeeping := hf.toBookkeeping
  toBasing := hf.toBasing
  loop s he hn := hf.loop s he hn
  owner he hn h := hf.owner he hn h
  block hn hq hm := safe_injectBlock hf hn hq hm
  round ho hq hm := safe_injectIteration hf ho hq hm
  fits_code he hn := hf.fits_code he hn
  fits_branch hc h := hf.fits_branch hc h

end Entries

/-- The entries in the blocks of an entry that may run are base entries that may. -/
theorem gives_branches (hw : D.Weaving) (hn : D.own e₀ n) :
    D.Gives e₀ (Commands.branches n) fun bs e => ∀ b ∈ bs, ∀ m ∈ b.body, D.Stock e m := by
  refine look_bind fun e₁ he hl => gives_pure fun _ _ hl₂ b hb m hm => hw.stock_mono hl₂ ?_
  have inner := Entry.mem_inner hb hm
  have fits := hw.fits_branch (hw.fits_code he (D.own_mono hl hn)) (((hw.based he).furnished n).inner inner)
  exact ⟨(hw.based he).lt_of_inner inner, .inr ⟨n, inner⟩, fits⟩

/-! ## Conditions -/

section Conditions

variable (hb : D.Noting) (hp : D.ProcedureSafe calls)

include hb hp

/-- A condition is decided. -/
theorem safe_holds (words : List String) :
    D.Safe e₀ (Commands.Condition.holds calls n words) := by
  have clause (c : Commands.Condition.Clause) : D.Safe e₀ (c.holds calls n) := by
    unfold Commands.Condition.Clause.holds
    cases c with
    | truth text negated =>
      refine safe_bind (safe_resolveText hb hp text) fun v => ?_
      exact safe_bind (safe_reveal v) fun _ => safe_pure _
    | compare left c right =>
      refine safe_bind (safe_resolveText hb hp left) fun x => ?_
      refine safe_bind (safe_resolveText hb hp right) fun y => ?_
      exact safe_bind (safe_reveal x) fun _ => safe_bind (safe_reveal y) fun _ => safe_ofExcept _ nofun
  have part (words : List String) : D.Safe e₀ (Commands.Condition.partHolds calls n words) := by
    unfold Commands.Condition.partHolds
    split
    · exact clause _
    · exact gives_refuse _
  unfold Commands.Condition.holds
  refine safe_ite (gives_refuse _) ?_
  exact safe_someHolds fun group _ => safe_allHold fun words _ => part words

/-- The chosen block is one of the blocks. -/
theorem gives_choose (index : Nat) (branches : List (Branch EntryRef)) :
    D.Gives e₀ (Commands.Condition.choose calls n index branches)
      fun r _ => ∀ i b, r = some (i, b) → b ∈ branches := by
  induction branches generalizing index with
  | nil => exact gives_pure fun _ _ _ i b h => by cases h
  | cons branch rest ih =>
    have chosen : D.Safe e₀ (Commands.Condition.isChosen calls n index branch) := by
      unfold Commands.Condition.isChosen
      refine safe_ite (safe_holds hb hp _) (safe_bind (safe_ofExcept _ nofun) fun words => ?_)
      split
      · exact safe_pure _
      · exact safe_holds hb hp _
    refine safe_bind chosen fun c => ?_
    split
    · exact gives_pure fun _ _ _ i b h => by cases h; exact List.mem_cons_self
    · exact (ih _).mono fun r _ _ _ h i b hr => List.mem_cons_of_mem _ (h i b hr)

omit hb hp in
/-- What `if` does: the chosen block is put in front of the queue. -/
theorem safe_conditionExecute (hf : D.Weaving) (hp : D.ProcedureSafe calls) (hn : D.own e₀ n) :
    D.Safe e₀ (Commands.Condition.execute calls n) := by
  refine gives_bind (gives_requireQueue hf.toBookkeeping hn) fun q e₁ _ hl hq => ?_
  have hn₁ := D.own_mono hl hn
  refine gives_bind (gives_branches hf hn₁) fun branches e₂ _ hl₂ hbs => ?_
  refine gives_bind (gives_choose hf.toBookkeeping hp 0 branches) fun r e₃ _ hl₃ hr => ?_
  have hl₁₃ := D.trans hl₂ hl₃
  split
  · exact safe_reportParsed hf.toBookkeeping n _
  · refine safe_bind (safe_reportParsed hf.toBookkeeping n _) fun _ => ?_
    refine hf.block (D.own_mono hl₁₃ hn₁) (D.mine_mono hl₁₃ hq) fun m hm => ?_
    exact hf.stock_mono hl₃ (hbs _ (hr _ _ rfl) m hm)

end Conditions

/-! ## Loops -/

section Loops

/-- What a loop counter hid is defined again. -/
theorem safe_restore (hb : D.Bookkeeping) (hq : D.mine e₀ q) (loop : LoopState) :
    D.Safe e₀ (Commands.Loop.restore q loop) := by
  unfold Commands.Loop.restore
  split
  · exact safe_define hb hq _ _
  · exact safe_undefine hb hq _

/-- A loop that is ended early drops the entries up to its mark, when these may be dropped. -/
theorem leaves_endEarly {e : Engine} (hb : D.Bookkeeping) (he : D.inv e) (hq : D.mine e q)
    (hdrop : ∀ count, D.Leaves e (fun _ _ => True) (Queues.dropFirst q count e)) (n : EntryRef)
    (stop : Bool) : D.Leaves e (fun _ _ => True) (Commands.Loop.endEarly n q stop e) := by
  refine leaves_bind (Q := fun _ y => y = e) ⟨Step.refl he, rfl⟩ ?_
  rintro found _ - - rfl
  split
  · exact (gives_breakOff _).run _ he (D.refl _)
  · refine leaves_bind (hdrop _) fun _ y hy hl _ => ?_
    have hq := D.mine_mono hl hq
    have report (values : List (String × String)) : D.Safe y (Commands.report n values) :=
      safe_reportParsed hb n values
    dsimp only
    refine Gives.run ?_ y hy (D.refl y)
    split
    · refine safe_bind (safe_look _) fun loop => ?_
      split
      · exact safe_bind (safe_restore hb hq _) fun _ => report _
      · exact report _
    · exact report _

variable (hf : D.Weaving)

include hf

/-- The entries of a loop's block are in stock. -/
theorem gives_body {owner : EntryRef} (ho : D.own e₀ owner) :
    D.Gives e₀ (Commands.Loop.body owner) fun body e => ∀ m ∈ body, D.Stock e m := by
  refine gives_bind (gives_branches hf ho) fun bs _ _ _ hbs => gives_pure fun _ _ hl => ?_
  cases bs with
  | nil => exact fun m hm => absurd hm List.not_mem_nil
  | cons b rest => exact fun m hm => hf.stock_mono hl (hbs b List.mem_cons_self m hm)

/-- A loop keeps its state on its entry. -/
theorem safe_setLoop (hn : D.own e₀ n) (s : LoopState) :
    D.Safe e₀ (Action.changeEntry n ({ · with loop := some s })) :=
  safe_change fun _ he hl => hf.loop s he (D.own_mono hl hn)

/-- A loop is started. -/
theorem safe_startLoop (hn : D.own e₀ n) (hq : D.mine e₀ q) :
    D.Safe e₀ (Commands.Loop.start n q) := by
  refine safe_bind (safe_count n _) fun amount => safe_bind (safe_count n _) fun first => ?_
  refine safe_bind (safe_element? n _) fun name => ?_
  refine safe_bind (safe_reportParsed hf.toBookkeeping n _) fun _ => ?_
  refine safe_ite (safe_pure _) ?_
  refine gives_bind (gives_body hf hn) fun body e₁ _ hl hm => ?_
  have hn₁ := D.own_mono hl hn
  have hq₁ := D.mine_mono hl hq
  have rest : D.Safe e₁ (do
      let before ← Action.look (·.definition? q (name.getD "value"))
      let loop : LoopState :=
        { index := first, target := first + amount - 1.0, name := name.getD "value", before }
      Action.changeEntry n ({ · with loop := some loop })
      Queues.define q (name.getD "value") (.num first)
      Commands.Loop.injectIteration n q body) := by
    refine safe_bind (safe_look _) fun before => safe_bind (safe_setLoop hf hn₁ _) fun _ => ?_
    refine safe_bind (safe_define hf.toBookkeeping hq₁ _ _) fun _ => ?_
    exact hf.round hn₁ hq₁ hm
  exact safe_ite (safe_bind (gives_breakOff _) fun _ => rest) rest

/-- A loop goes into its next round or ends. -/
theorem safe_iterate (hn : D.own e₀ n) (hq : D.mine e₀ q) :
    D.Safe e₀ (Commands.Loop.iterate n q) := by
  refine look_bind fun e₁ he hl => ?_
  split
  · exact gives_breakOff _
  · rename_i owner loop h
    have ho : D.own e₁ owner := by
      obtain ⟨m, hm, hr⟩ := Option.bind_eq_some_iff.1 h
      obtain ⟨s, -, hs⟩ := Option.map_eq_some_iff.1 hr
      cases hs
      exact hf.owner he (D.own_mono hl hn) hm
    have hq₁ := D.mine_mono hl hq
    refine safe_bind (safe_setLoop hf ho _) fun _ => safe_ite ?_ (safe_restore hf.toBookkeeping hq₁ _)
    refine safe_bind (safe_define hf.toBookkeeping hq₁ _ _) fun _ => ?_
    refine gives_bind (gives_body hf ho) fun body e₂ _ hl₂ hm => ?_
    exact hf.round (D.own_mono hl₂ ho) (D.mine_mono hl₂ hq₁) hm

/-- What `repeat` does, in all of its forms. -/
theorem safe_loopExecute (hem : D.Emptying) (hp : D.ProcedureSafe calls) (hn : D.own e₀ n) :
    D.Safe e₀ (Commands.Loop.execute calls n) := by
  refine gives_bind (gives_requireQueue hf.toBookkeeping hn) fun q e₁ _ hl hq => ?_
  have hn₁ := D.own_mono hl hn
  have hend (stop : Bool) : D.Safe e₁ (Commands.Loop.endEarly n q stop) :=
    ⟨fun e he hl => leaves_endEarly hf.toBookkeeping he (D.mine_mono hl hq)
      (fun count => (hem.drop count hq).run e he hl) n stop⟩
  refine safe_bind (safe_flag hf.toBookkeeping hp _) fun _ => safe_ite (hend true) ?_
  refine safe_bind (safe_flag hf.toBookkeeping hp _) fun _ => safe_ite (hend false) ?_
  refine safe_bind (safe_flag hf.toBookkeeping hp _) fun _ => ?_
  exact safe_ite (safe_iterate hf hn₁ hq) (safe_startLoop hf hn₁ hq)

end Loops

/-! ## Determinations and the end of a queue -/

section Ends

/-- The outcome of `determine` is read. -/
theorem safe_determineOutcome (n : EntryRef) : D.Safe e₀ (Commands.Determine.outcome n) := by
  refine safe_bind (safe_object? n _) fun found => ?_
  split
  · exact safe_pure _
  · exact safe_pure _
  · exact safe_pure _

/-- A queue is emptied and stopped. -/
theorem safe_clearAndStop (hem : D.Emptying) (hq : D.mine e₀ q) :
    D.Safe e₀ (do Queues.clear q; Queues.stop q) := by
  refine safe_bind (safe_change fun _ he hl => ?_) fun _ => hem.stop hq
  exact hem.clear he (D.mine_mono hl hq)

variable (hf : D.Filling) (hem : D.Emptying)

include hf hem

/-- What `stop` does. -/
theorem safe_stopExecute (hn : D.own e₀ n) : D.Safe e₀ (Commands.Stop.execute n) :=
  gives_bind (gives_requireQueue hf.toBookkeeping hn) fun _ _ _ _ hq => safe_clearAndStop hem hq

/-- What `determine` does. -/
theorem safe_determineExecute (hn : D.own e₀ n) : D.Safe e₀ (Commands.Determine.execute n) := by
  refine gives_bind (gives_requireQueue hf.toBookkeeping hn) fun q e₁ _ hl hq => ?_
  refine safe_bind (safe_determineOutcome n) fun v => safe_bind (safe_isTrue n _) fun passively => ?_
  refine safe_bind (safe_describe v) fun _ => ?_
  refine safe_bind (safe_reportParsed hf.toBookkeeping n _) fun _ => ?_
  refine safe_bind (hf.determine v hq) fun _ => ?_
  exact safe_ite (safe_pure _) (safe_clearAndStop hem hq)

end Ends

end Discipline

end QueueScript
