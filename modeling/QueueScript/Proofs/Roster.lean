import Mathlib.Data.List.Chain
import Mathlib.Data.List.Nodup
import QueueScript.Proofs.Tidy.Reachable
import QueueScript.Proofs.Upkeep.Basic

/-!
# The registry along runs

The registry has every queue under its own id, so it has no queue twice, and a queue that it has was
started at some time (`Engine.Rostered`).  It only changes by a queue being put under its key or a key
being erased, so two keys that stay in it keep their order (`Engine.Later.sublist_iff`): putting a queue
under a key that is there, as happens when a queue is replaced, leaves all keys in their places.

All this is so whatever commands a host adds.
-/

namespace QueueScript

/-! ## Tables that change -/

namespace Keyed

variable {α : Type} {t t' : Keyed α} {k l : String}

/-- The second table comes from the first one by a key that is set or erased. -/
inductive Changes (t : Keyed α) : Keyed α → Prop where
  | put (k : String) (a : α) : Changes t (t.put k a)
  | erase (k : String) : Changes t (t.erase k)

/-- The keys of a table after one was erased. -/
theorem keys_erase (t : Keyed α) (k : String) : (t.erase k).keys = t.keys.filter (· != k) := by
  unfold erase keys
  rw [List.filter_map]
  rfl

/-- Where no key stands twice, what stands in a table is found. -/
theorem get?_of_mem (hn : t.keys.Nodup) {a : α} (h : (k, a) ∈ t) : t.get? k = some a := by
  induction t with
  | nil => cases h
  | cons p rest ih =>
    obtain ⟨hp, hrest⟩ := List.nodup_cons.1 hn
    rw [get?_cons]
    rcases List.mem_cons.1 h with rfl | h
    · simp
    · have ne : p.1 ≠ k := by
        rintro rfl
        exact hp (List.mem_map.2 ⟨_, h, rfl⟩)
      rw [if_neg (by simpa using ne)]
      exact ih hrest h

/-- What is found stands in the table under its key. -/
theorem pair_mem_of_get? {a : α} (h : t.get? k = some a) : (k, a) ∈ t := by
  obtain ⟨p, hp, rfl⟩ := Option.map_eq_some_iff.1 h
  have key : p.1 = k := by simpa using List.find?_some hp
  rw [← key]
  exact List.mem_of_find?_eq_some hp

/-- Of two keys, other ones may be left out of sight. -/
theorem pair_sublist_filter {p : String → Bool} {ks : List String} (hk : p k = true) (hl : p l = true) :
    [k, l].Sublist (ks.filter p) ↔ [k, l].Sublist ks := by
  refine ⟨fun h => h.trans List.filter_sublist, fun h => ?_⟩
  have kept := h.filter p
  rwa [List.filter_cons_of_pos hk, List.filter_cons_of_pos hl] at kept

namespace Changes

/-- A change keeps the keys of a table apart. -/
theorem nodup (h : t.Changes t') (hn : t.keys.Nodup) : t'.keys.Nodup := by
  cases h with
  | put k a =>
    rw [keys_put]
    split
    · exact hn
    · rename_i hk
      exact List.nodup_append.2 ⟨hn, List.nodup_singleton k, fun l hl m hm => by
        rw [List.mem_singleton.1 hm]
        rintro rfl
        exact hk ((has_iff_mem_keys _ _).2 hl)⟩
  | erase k =>
    rw [keys_erase]
    exact hn.filter _

/-- Two keys that stay keep their order. -/
theorem sublist_iff (h : t.Changes t') (hk : k ∈ t.keys) (hl : l ∈ t.keys) (hk' : k ∈ t'.keys)
    (hl' : l ∈ t'.keys) : [k, l].Sublist t'.keys ↔ [k, l].Sublist t.keys := by
  cases h with
  | put m a =>
    rw [keys_put]
    split
    · rfl
    · rename_i hm
      have other {j : String} (hj : j ∈ t.keys) : (j != m) = true := by
        rw [bne_iff_ne]
        rintro rfl
        exact hm ((has_iff_mem_keys _ _).2 hj)
      rw [← pair_sublist_filter (p := (· != m)) (other hk) (other hl), List.filter_append,
        List.filter_eq_self.2 fun j hj => other hj]
      simp
  | erase m =>
    rw [keys_erase] at hk' hl' ⊢
    exact pair_sublist_filter (List.mem_filter.1 hk').2 (List.mem_filter.1 hl').2

end Changes

/-- Two keys that are in all tables of a history, the latest first, have the same order in all of them. -/
theorem sublist_iff_of_history {recent old : List (Keyed α)}
    (h : (recent ++ t :: old).IsChain fun t' t => t.Changes t') (hk : ∀ s ∈ recent ++ [t], k ∈ s.keys)
    (hl : ∀ s ∈ recent ++ [t], l ∈ s.keys) :
    ∀ s ∈ recent ++ [t], ([k, l].Sublist s.keys ↔ [k, l].Sublist t.keys) := by
  induction recent with
  | nil =>
    intro s hs
    rw [List.mem_singleton.1 hs]
  | cons r rest ih =>
    have earlier := ih h.tail (fun s hs => hk s (List.mem_cons_of_mem r hs)) fun s hs =>
      hl s (List.mem_cons_of_mem r hs)
    obtain ⟨s, hs, changes⟩ : ∃ s ∈ rest ++ [t], s.Changes r := by
      cases rest with
      | nil => exact ⟨t, List.mem_singleton_self t, h.rel⟩
      | cons s rest => exact ⟨s, List.mem_cons_self, h.rel⟩
    have kept := changes.sublist_iff (hk s (List.mem_cons_of_mem r hs)) (hl s (List.mem_cons_of_mem r hs))
      (hk r List.mem_cons_self) (hl r List.mem_cons_self)
    intro u hu
    rcases List.mem_cons.1 hu with rfl | hu
    · exact kept.trans (earlier s hs)
    · exact earlier u hu

end Keyed

namespace Engine

/-! ## What the registry has been -/

/-- The registry as it is and as it was before, the latest first. -/
def roster (e : Engine) : List (Keyed QueueRef) :=
  e.registry :: e.registries

/-- The registry has queues that were started, each under its own id, and has changed key by key.  Queues
that were replaced have ended. -/
structure Rostered (e : Engine) : Prop where
  keys : e.registry.keys.Nodup
  id {k : String} {q : QueueRef} : (k, q) ∈ e.registry → Text.lower (e.queue q).id = k
  begun {k : String} {q : QueueRef} : (k, q) ∈ e.registry → (e.queue q).state ≠ .idle
  replaced {q p : QueueRef} : (e.queue q).replacedBy = some p → (e.queue q).state.isEnd = true
  changes : e.roster.IsChain fun t' t => t.Changes t'

/-- In the second engine no queue of the first one is gone or idle again, and the registry has only
changed since. -/
structure Later (x e : Engine) : Prop where
  queues : x.queues.size ≤ e.queues.size
  idle {q : QueueRef} : q < x.queues.size → (e.queue q).state = .idle → (x.queue q).state = .idle
  roster : x.roster <:+ e.roster

/-- The key was in the registry all the time between two engines. -/
def StaysListed (x e : Engine) (k : String) : Prop :=
  ∃ recent, e.roster = recent ++ x.roster ∧ ∀ t ∈ recent ++ [x.registry], t.has k = true

/-- An engine is no later than itself. -/
theorem Later.refl (e : Engine) : e.Later e :=
  ⟨Nat.le_refl _, fun _ => id, List.suffix_refl _⟩

/-- Later engines have later engines. -/
theorem Later.trans {x e e' : Engine} (h : x.Later e) (h' : e.Later e') : x.Later e' where
  queues := Nat.le_trans h.queues h'.queues
  idle hq he := h.idle hq (h'.idle (Nat.lt_of_lt_of_le hq h.queues) he)
  roster := h.roster.trans h'.roster

/-- All queues have the ids, states and replacements that they had, and so has the registry its queues. -/
structure SameRoster (e e' : Engine) : Prop where
  queues : e'.queues.size = e.queues.size
  id (q : QueueRef) : (e'.queue q).id = (e.queue q).id
  state (q : QueueRef) : (e'.queue q).state = (e.queue q).state
  replacedBy (q : QueueRef) : (e'.queue q).replacedBy = (e.queue q).replacedBy
  registry : e'.registry = e.registry
  registries : e'.registries = e.registries

/-- The roster is read off the queues and the registries only. -/
theorem SameRoster.of_tables {e e' : Engine} (hq : e'.queues = e.queues) (hr : e'.registry = e.registry)
    (hs : e'.registries = e.registries) : e.SameRoster e' := by
  refine ⟨by rw [hq], fun q => ?_, fun q => ?_, fun q => ?_, hr, hs⟩
  all_goals rw [queue_congr hq]

/-- A change that keeps id, state and replacement of a queue keeps the roster. -/
theorem SameRoster.changeQueue (e : Engine) (q : QueueRef) {f : Queue → Queue} (hi : ∀ z, (f z).id = z.id)
    (hs : ∀ z, (f z).state = z.state) (hr : ∀ z, (f z).replacedBy = z.replacedBy) :
    e.SameRoster (e.changeQueue q f) where
  queues := e.size_changeQueue q f
  id := e.queue_changeQueue_keep hi q
  state := e.queue_changeQueue_keep hs q
  replacedBy := e.queue_changeQueue_keep hr q
  registry := rfl
  registries := rfl

/-- A report keeps the roster. -/
theorem SameRoster.emit (e : Engine) (event : Event) (s : Scope) : e.SameRoster (e.emit event s) := by
  obtain ⟨events, h⟩ := e.emit_eq event s
  rw [h]
  exact .of_tables rfl rfl rfl

/-- Changes that keep the roster follow one another. -/
theorem SameRoster.trans {e e' e'' : Engine} (h : e.SameRoster e') (h' : e'.SameRoster e'') :
    e.SameRoster e'' where
  queues := h'.queues.trans h.queues
  id q := (h'.id q).trans (h.id q)
  state q := (h'.state q).trans (h.state q)
  replacedBy q := (h'.replacedBy q).trans (h.replacedBy q)
  registry := h'.registry.trans h.registry
  registries := h'.registries.trans h.registries

/-- The roster is the same list. -/
theorem SameRoster.roster {e e' : Engine} (h : e.SameRoster e') : e'.roster = e.roster := by
  unfold Engine.roster
  rw [h.registry, h.registries]

/-! ## The moments in which the registry and what it has change -/

/-- What an engine with this registry may turn into. -/
def Rosters (e e' : Engine) : Prop :=
  e'.Rostered ∧ e.Later e'

namespace Rostered

variable {e e' : Engine} {q : QueueRef} (h : e.Rostered)

include h

/-- The registry is as it was, or one of its keys was set or erased. -/
theorem turn (hroster : e'.roster = e.roster ∨ e.registry.Changes e'.registry ∧ e'.registries = e.roster)
    (hq : e.queues.size ≤ e'.queues.size)
    (hlisted : ∀ {k p}, (k, p) ∈ e'.registry → Text.lower (e'.queue p).id = k ∧ (e'.queue p).state ≠ .idle)
    (hidle : ∀ {p}, p < e.queues.size → (e'.queue p).state = .idle → (e.queue p).state = .idle)
    (hreplaced : ∀ {p t}, (e'.queue p).replacedBy = some t → (e'.queue p).state.isEnd = true) :
    e.Rosters e' := by
  refine ⟨⟨?_, fun hm => (hlisted hm).1, fun hm => (hlisted hm).2, hreplaced, ?_⟩, hq, hidle, ?_⟩
  · rcases hroster with same | ⟨changes, -⟩
    · rw [(List.cons.inj same).1]
      exact h.keys
    · exact changes.nodup h.keys
  · rcases hroster with same | ⟨changes, earlier⟩
    · rw [same]
      exact h.changes
    · unfold roster
      rw [earlier]
      exact .cons_cons changes h.changes
  · rcases hroster with same | ⟨-, earlier⟩
    · exact ⟨[], same.symm⟩
    · exact ⟨[e'.registry], by rw [← earlier]; rfl⟩

/-- What keeps the roster changes it as it may be changed. -/
theorem same (hs : e.SameRoster e') : e.Rosters e' := by
  refine h.turn (.inl hs.roster) hs.queues.ge (fun {k p} hm => ?_) (fun {p} _ hi => ?_) fun {p t} hr => ?_
  · rw [hs.registry] at hm
    rw [hs.id, hs.state]
    exact ⟨h.id hm, h.begun hm⟩
  · rwa [← hs.state]
  · rw [hs.replacedBy] at hr
    rw [hs.state]
    exact h.replaced hr

/-- A queue moves on, but does not become idle, and stays ended if it is. -/
theorem move {f : Queue → Queue} (hi : ∀ z, (f z).id = z.id) (hr : ∀ z, (f z).replacedBy = z.replacedBy)
    (hs : (f (e.queue q)).state = .idle → (e.queue q).state = .idle)
    (hend : (e.queue q).state.isEnd = true → (f (e.queue q)).state.isEnd = true) :
    e.Rosters (e.changeQueue q f) := by
  -- What is known of the state of any queue.
  have state (p : QueueRef) : ((e.changeQueue q f).queue p).state = (e.queue p).state ∨
      p = q ∧ ((e.changeQueue q f).queue p).state = (f (e.queue q)).state := by
    rw [queue_changeQueue]
    split
    · rename_i hp
      exact .inr ⟨hp.1.symm, by rw [hp.1]⟩
    · exact .inl rfl
  have idle {p : QueueRef} (hidle : ((e.changeQueue q f).queue p).state = .idle) :
      (e.queue p).state = .idle := by
    rcases state p with same | ⟨rfl, moved⟩
    · rwa [← same]
    · exact hs (moved ▸ hidle)
  refine h.turn (.inl rfl) (e.size_changeQueue q f).ge (fun {k p} hm => ⟨?_, ?_⟩) (fun _ => idle) fun {p t} ht => ?_
  · rw [e.queue_changeQueue_keep hi]
    exact h.id hm
  · exact fun hidle => h.begun hm (idle hidle)
  · rw [e.queue_changeQueue_keep hr] at ht
    rcases state p with same | ⟨rfl, moved⟩
    · rw [same]
      exact h.replaced ht
    · rw [moved]
      exact hend (h.replaced ht)

/-- A new queue is not on the roster yet. -/
theorem make (ht : e.Tidy) {x : Queue} (hx : x.IsNew) : e.Rosters (e.withQueue x) := by
  refine h.turn (.inl rfl) (by simp) (fun {k p} hm => ?_) (fun {p} hp hidle => ?_) fun {p t} hr => ?_
  · rw [e.queue_withQueue_of_lt (ht.registry hm)]
    exact ⟨h.id hm, h.begun hm⟩
  · rwa [e.queue_withQueue_of_lt hp] at hidle
  · rw [e.queue_withQueue] at hr ⊢
    split at hr
    · rw [hx.replacedBy] at hr
      cases hr
    · rename_i hp
      rw [if_neg hp]
      exact h.replaced hr

/-- A queue that is launched is put on the roster. -/
theorem launch (hq : q < e.queues.size) (hidle : (e.queue q).state = .idle) : e.Rosters (e.launched q) := by
  obtain ⟨moved, later⟩ := h.move (q := q) (f := ({ · with state := .running })) (fun _ => rfl) (fun _ => rfl)
    nofun fun hend => by rw [hidle] at hend; cases hend
  let y := e.changeQueue q ({ · with state := .running })
  have here : y.queue q = { e.queue q with state := .running } := e.queue_changeQueue_self hq _
  have listed : y.Rosters (e.launched q) := by
    refine moved.turn (.inr ⟨.put _ _, rfl⟩) (Nat.le_refl _) (fun {k p} hm => ?_) (fun _ h => h) moved.replaced
    rcases Keyed.mem_put hm with hm | hm
    · exact ⟨moved.id hm, moved.begun hm⟩
    · cases hm
      show Text.lower (y.queue q).id = _ ∧ (y.queue q).state ≠ .idle
      rw [here]
      exact ⟨rfl, nofun⟩
  exact ⟨listed.1, later.trans listed.2⟩

/-- A queue that ends leaves the roster. -/
theorem close {s : QueueState} (hs : s.isEnd = true) (hc : e.Closes q s e') : e.Rosters e' := by
  have roster : e'.roster = e.roster ∨ e.registry.Changes e'.registry ∧ e'.registries = e.roster := by
    unfold Engine.roster
    rw [hc.registry, hc.registries]
    unfold Queues.unregistered
    dsimp only
    split
    · exact .inr ⟨.erase _, rfl⟩
    · exact .inl rfl
  have left {p : String × QueueRef} (hm : p ∈ e'.registry) : p ∈ e.registry := by
    rw [hc.registry, Queues.registry_unregistered] at hm
    split at hm
    · exact List.mem_of_mem_filter hm
    · exact hm
  have ended : (e'.queue q).state.isEnd = true := by rw [hc.state, hs]
  refine h.turn roster hc.queues.ge (fun {k p} hm => ?_) (fun {p} _ hidle => ?_) fun {p t} hr => ?_
  · by_cases hp : p = q
    · subst hp
      rw [hc.id]
      exact ⟨h.id (left hm), fun hidle => by rw [hidle] at ended; cases ended⟩
    · rw [hc.other hp]
      exact ⟨h.id (left hm), h.begun (left hm)⟩
  · by_cases hp : p = q
    · rw [← hp, hidle] at ended
      cases ended
    · rwa [hc.other hp] at hidle
  · by_cases hp : p = q
    · rw [hp]
      exact ended
    · rw [hc.other hp] at hr ⊢
      exact h.replaced hr

/-- The replacement of a queue takes its place. -/
theorem replace (ht : e.Tidy) {d : Option Delay} (hr : e.Replaces q d e') :
    e.Rosters e' := by
  have roster : e'.roster = e.roster := by
    unfold Engine.roster
    rw [hr.books.registry, hr.books.registries]
  refine h.turn (.inl roster) (by rw [hr.queues]; exact Nat.le_succ _) (fun {k p} hm => ?_)
    (fun {p} hp hidle => ?_) fun {p t} ht => ?_
  · rw [hr.books.registry] at hm
    have hp : p ≠ e.queues.size := Nat.ne_of_lt (ht.registry hm)
    by_cases hpq : p = q
    · subst hpq
      rw [hr.old]
      exact ⟨h.id hm, nofun⟩
    · rw [hr.other hpq hp]
      exact ⟨h.id hm, h.begun hm⟩
  · by_cases hpq : p = q
    · rw [hpq, hr.old] at hidle
      cases hidle
    · rwa [hr.other hpq (Nat.ne_of_lt hp)] at hidle
  · by_cases hp : p = e.queues.size
    · rw [hp, hr.new] at ht
      cases ht
    · by_cases hpq : p = q
      · rw [hpq, hr.old]
        rfl
      · rw [hr.other hpq hp] at ht ⊢
        exact h.replaced ht

/-! ### What is made of them -/

/-- An outcome keeps the roster. -/
theorem determine (v : Value) : e.Rosters (Queues.determine q v e).2 := by
  refine h.same ?_
  rcases Queues.determine_cases q v e with ⟨i, -, done⟩ | ⟨-, done⟩ <;> rw [done]
  · exact .of_tables rfl rfl rfl
  · have grown : e.SameRoster { e with lists := e.lists.push [v] } := .of_tables rfl rfl rfl
    exact grown.trans (.changeQueue _ q (fun _ => rfl) (fun _ => rfl) fun _ => rfl)

/-- A queue that is stopped leaves the roster. -/
theorem stop (hq : q < e.queues.size) : e.Rosters (Queues.stop q e).2 := by
  cases hend : (e.queue q).state.isEnd with
  | false => exact h.close rfl (.of_stop hq hend)
  | true =>
    show e.Rosters ((if (e.queue q).state.isEnd then pure () else _ : Action Unit) e).2
    rw [if_pos hend]
    exact ⟨h, .refl e⟩

/-- A queue that ends by itself leaves the roster. -/
theorem finish (hq : q < e.queues.size) : e.Rosters (Queues.finish q e).2 := by
  cases hend : (e.queue q).state.isEnd with
  | false => exact h.close rfl (.of_finish hq hend)
  | true =>
    show e.Rosters ((if (e.queue q).state.isEnd then pure () else _ : Action Unit) e).2
    rw [if_pos hend]
    exact ⟨h, .refl e⟩

/-- A listener keeps the roster. -/
theorem onComplete (l : Listener) : e.Rosters (Queues.onComplete q l e).2 := by
  refine h.same ?_
  show e.SameRoster ((if (e.queue q).state.isEnd then _ else _ : Action Unit) e).2
  split
  · cases l with
    | finish n => exact .of_tables rfl rfl rfl
    | notify label error => cases error <;> exact .of_tables rfl rfl rfl
  · exact .changeQueue e q (fun _ => rfl) (fun _ => rfl) fun _ => rfl

end Rostered

end Engine

/-! ## The discipline -/

namespace Discipline

open Wakeful (anyTidy)

/-- Tidy engines with such a registry that the engine `x` may turn into. -/
abbrev rostered (x : Engine) : Discipline :=
  anyTidy.also fun e => e.Rostered ∧ x.Later e

namespace Rostered

variable {α : Type} {x e e' e₀ : Engine} {q : QueueRef}

/-- A step of the tables that changes the roster as it may is a step. -/
theorem step (he : (rostered x).inv e) (ht : anyTidy.Step e e') (hr : e.Rosters e') :
    (rostered x).Step e e' :=
  ht.also ⟨hr.1, he.2.2.trans hr.2⟩

/-- A step of the tables that keeps the roster is a step. -/
theorem same (he : (rostered x).inv e) (ht : anyTidy.Step e e') (hs : e.SameRoster e') :
    (rostered x).Step e e' :=
  step he ht (he.2.1.same hs)

/-- An action that keeps engines tidy is looked at for the moments of the registry only. -/
theorem gives {a : Action α} {Q : α → Engine → Prop} (ht : anyTidy.Gives e₀ a Q)
    (hr : ∀ e : Engine, e.Tidy → e₀.Grows e → e.Rostered → e.Rosters (a e).2) : (rostered x).Gives e₀ a Q :=
  ht.also fun e he hl h _ =>
    have rosters := hr e he.1 hl h.1
    ⟨rosters.1, h.2.trans rosters.2⟩

/-- What every command does keeps to the roster. -/
theorem bookkeeping : (rostered x).Bookkeeping where
  emit event s he := same he (Tidy.bookkeeping.emit event s he.1) (.emit _ event s)
  jot he hn hf := same he (Tidy.bookkeeping.jot he.1 hn hf) (.of_tables rfl rfl rfl)
  finish he hn := (Tidy.bookkeeping.finish he.1 hn).imp (same he · (.of_tables rfl rfl rfl)) id
  memory f he hq := same he (Tidy.bookkeeping.memory f he.1 hq) (.of_tables rfl rfl rfl)
  residing he hn h := Tidy.bookkeeping.residing he.1 hn h
  eased_mono _ _ _ := .inl trivial

/-- The commands that run blocks keep to the roster. -/
theorem blocks : (rostered x).Blocks where
  toBookkeeping := bookkeeping
  based he := he.1.1.based
  stock_mono h hn := ⟨Nat.lt_of_lt_of_le hn.lt h.entries, h.kept hn.base, trivial⟩
  grow he hx hc := (Tidy.blocks.grow he.1 hx hc).imp (same he · (.of_tables rfl rfl rfl)) id
  place he hn hr hq := (Tidy.blocks.place he.1 hn hr hq).imp (same he · (.of_tables rfl rfl rfl)) id
  belong he hn ho := same he (Tidy.blocks.belong he.1 hn ho) (.of_tables rfl rfl rfl)
  loop s he hn := same he (Tidy.blocks.loop s he.1 hn) (.of_tables rfl rfl rfl)
  hurry b he hn := same he (Tidy.blocks.hurry b he.1 hn) (.of_tables rfl rfl rfl)
  owner he hn h := Tidy.blocks.owner he.1 hn h
  pending f he hq h := same he (Tidy.blocks.pending f he.1 hq h)
    (.changeQueue _ _ (fun _ => rfl) (fun _ => rfl) fun _ => rfl)
  determine v hq := gives (Tidy.blocks.determine v hq) fun _ _ _ h => h.determine v
  stop hq := gives (Tidy.blocks.stop hq) fun _ _ hl h => h.stop (Nat.lt_of_lt_of_le hq hl.queues)
  fits_code _ _ := trivial
  fits_branch _ _ := trivial
  fits_mark _ _ _ := trivial

/-- Turns of queues keep to the roster. -/
theorem turns : (rostered x).Turns where
  toFilling := blocks.filling
  stop hq := blocks.stop hq
  counters t he := same he (Tidy.turns.counters t he.1) (.of_tables rfl rfl rfl)
  make he hx hm := (Tidy.turns.make he.1 hx hm).imp (step he · (he.2.1.make he.1.1 hx)) id
  keep he hn ready hc := same he (Tidy.turns.keep he.1 hn ready hc) (.of_tables rfl rfl rfl)
  launch {e q} he hq idle := by
    refine (Tidy.turns.launch he.1 hq idle).also fun _ => ?_
    obtain ⟨events, launch⟩ := e.launch_eq q
    obtain ⟨launched, later⟩ := he.2.1.launch hq idle
    have shown : (e.launched q).Rosters { e.launched q with events } := launched.same (.of_tables rfl rfl rfl)
    rw [launch]
    exact ⟨shown.1, he.2.2.trans (later.trans shown.2)⟩
  finishQueue hq := gives (Tidy.turns.finishQueue hq) fun _ _ hl h => h.finish (Nat.lt_of_lt_of_le hq hl.queues)
  delay d he hq := same he (Tidy.turns.delay d he.1 hq)
    (.changeQueue _ _ (fun _ => rfl) (fun _ => rfl) fun _ => rfl)
  waiting he hq h := Tidy.turns.waiting he.1 hq h
  pace hl hq := (Tidy.turns (P := fun _ _ => True)).pace hl hq
  fits_source _ _ _ _ _ _ := trivial
  reads_script _ _ := trivial
  fits_base _ _ _ _ := trivial

/-- The commands that reach beyond their queue keep to the roster. -/
theorem outreach : (rostered x).Outreach where
  toTurns := turns
  replace d hq := gives (Tidy.outreach.replace d hq) fun e ht hl h => by
    obtain ⟨y, replace, replaces⟩ := e.replaceByTimed_replaces d (Nat.lt_of_lt_of_le hq hl.queues)
    rw [replace]
    exact h.replace ht replaces
  work job he hn := (Tidy.outreach.work job he.1 hn).imp (same he · (.of_tables rfl rfl rfl)) id
  perform {e} job he := by
    refine same he (Tidy.outreach.perform job he.1) ?_
    obtain ⟨files, clock, webPlans, webCalls, h⟩ := Background.perform_eq e job
    rw [h]
    exact .of_tables rfl rfl rfl
  listen hq hn := gives (Tidy.outreach.listen hq hn) fun _ _ _ h => h.onComplete _
  registered he h := Tidy.outreach.registered he.1 h
  unheld _ _ _ := .inl trivial

/-- Entries keep to the roster where procedures and starts do. -/
theorem runsEntries (calls : Calls) (hp : (rostered x).ProcedureSafe calls)
    (hs : (rostered x).StartSafe calls) : (rostered x).RunsEntries calls := by
  have noted {e : Engine} (he : (rostered x).inv e) (s : QueueScript.Step) :
      (rostered x).Step e { e with journal := s :: e.journal } :=
    same he ⟨⟨he.1.1.note s, trivial⟩, Engine.grows_of_tables rfl rfl rfl⟩ (.of_tables rfl rfl rfl)
  refine runsNoted outreach blocks hp hs (fun n he _ _ _ => noted he _) (fun q n he hn => ?_)
    fun q n ran he => noted he _
  refine same he ⟨⟨he.1.1.changeQueue q (fun _ h => .inl h) (fun m h => .inr ?_) (fun _ h => .inl h)
    fun _ h => .inl h, trivial⟩,
    Engine.grows_changeQueue _ _ fun _ => rfl⟩ (.changeQueue _ _ (fun _ => rfl) (fun _ => rfl) fun _ => rfl)
  cases h
  exact hn

/-- Entries keep to the roster with any amount of fuel. -/
theorem calls_runsEntries (fuel : Nat) : (rostered x).RunsEntries (Drive.calls fuel) := by
  have safe := callsSafe turns (fun fuel => runsEntries (x := x) (Drive.calls fuel)) fuel
  exact runsEntries _ safe.1 safe.2

/-! ## Hosts and beats -/

/-- The host keeps to the roster. -/
theorem hosting : (rostered x).Hosting where
  toOutreach := outreach
  mine_iff := Iff.rfl
  register he hr hs := same he (Tidy.hosting.register he.1 hr hs) (.of_tables rfl rfl rfl)
  world files webPlans clock bases attributes heartbeatTime beats he := same he
    (Tidy.hosting.world files webPlans clock bases attributes heartbeatTime beats he.1) (.of_tables rfl rfl rfl)
  pause q he := by
    refine step he (Tidy.hosting.pause q he.1) (he.2.1.move (fun z => ?_) (fun z => ?_) (fun hs => ?_) fun hs => ?_)
    · split <;> rfl
    · split <;> rfl
    · split at hs
      · cases hs
      · exact hs
    · split
      · rename_i running
        rw [running] at hs
        cases hs
      · exact hs
  resume q he := by
    refine step he (Tidy.hosting.resume q he.1) (he.2.1.move (fun z => ?_) (fun z => ?_) (fun hs => ?_) fun hs => ?_)
    · split <;> rfl
    · split <;> rfl
    · split at hs
      · cases hs
      · exact hs
    · split
      · rename_i paused
        rw [paused] at hs
        cases hs
      · exact hs
  live he hp := Tidy.hosting.live he.1 hp
  hear {e} q label error he := by
    have heard : (rostered x).Safe e (Queues.onComplete q (.notify label error)) :=
      gives (Tidy.closing.safe_onComplete fun _ h => by cases h) fun _ _ _ h => h.onComplete _
    exact heard.kept he
  inject he hq hs _ := kept_inject turns.toTurning blocks he hq hs

/-- Requests keep to the roster. -/
theorem taking : (rostered x).Taking where
  toBookkeeping := bookkeeping
  cut _ _ := trivial
  settles he h := he.1.1.handoffs h
  clears he := same he ((Tidy.taking (R := fun _ => True)).clears he.1) (.of_tables rfl rfl rfl)
  fires label count he :=
    same he ((Tidy.taking (R := fun _ => True)).fires label count he.1) (.of_tables rfl rfl rfl)
  asks label count he :=
    same he ((Tidy.taking (R := fun _ => True)).asks label count he.1) (.of_tables rfl rfl rfl)

/-- Beats keep to the roster. -/
theorem beating : (rostered x).Beating where
  toHosting := hosting
  schedule label error again he :=
    same he (Wakeful.anyTidy_beating.schedule label error again he.1) (.of_tables rfl rfl rfl)
  settle {e w i} he hw := by
    refine same he (Wakeful.anyTidy_beating.settle he.1 hw) ?_
    obtain ⟨files, clock, webPlans, webCalls, h⟩ :=
      Background.perform_eq { e with inFlight := e.inFlight.eraseIdx i } w.job
    unfold Background.settleOne
    dsimp only
    rw [h]
    exact .of_tables rfl rfl rfl
  takeOver _ := safe_takeOverAll taking

end Rostered

end Discipline

namespace Engine

/-- A new engine has an empty roster. -/
theorem IsNew.rostered {e : Engine} (h : e.IsNew) : e.Rostered where
  keys := by
    rw [h.registry]
    exact List.nodup_nil
  id hm := by
    rw [h.registry] at hm
    cases hm
  begun hm := by
    rw [h.registry] at hm
    cases hm
  replaced hr := by
    rw [h.queue_eq] at hr
    cases hr
  changes := by
    unfold roster
    rw [h.registries]
    exact .singleton _

end Engine

/-- From any engine on, everything reachable has changed the roster only as it may be. -/
theorem Reachable.rosters {e₀ e : Engine} (ht : e₀.Tidy) (hr : e₀.Rostered) (h : Reachable e₀ e) :
    e₀.Rosters e :=
  (Discipline.inv_reachable Discipline.Rostered.beating Discipline.Rostered.calls_runsEntries
    ⟨⟨ht, trivial⟩, hr, .refl e₀⟩ h).2

/-- Reachable engines have such a registry. -/
theorem Reachable.rostered {config : Config} {modules : List CommandModule} {e : Engine}
    (h : Reachable (Host.create config modules) e) : e.Rostered :=
  have new := Host.create_isNew config modules
  (h.rosters new.tidy new.rostered).1

end QueueScript
