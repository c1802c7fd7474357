import QueueScript.Proofs.Looping.Counts

/-!
# Every loop has its turns

At all times it is known of every loop that has begun which turns it has had, and which mark it waits for
(`Engine.Rounding`).  Most of what an engine does leaves all loops alone (`Engine.Calm`); what is left is
that a queue begins an entry, and that a loop is given a turn.
-/

namespace QueueScript

open Structured (Rounds)

namespace Turn.Acts

variable {t : Turn} {r : Rounds} {v : Float} {p : QueueRef} {k : EntryRef} (h : t.Acts r v)

include h

theorem journal : t.after.journal = t.before.journal := by
  rcases h with ⟨-, -, events, h⟩ | h
  · rw [h]
    rfl
  · obtain ⟨memories, h⟩ := h.after_eq
    rw [h]
    rfl

/-- What a turn makes pending comes before the entries that were pending. -/
theorem pending_eq (hq : t.queue < t.before.queues.size) : (t.after.queue p).pending =
    if p = t.queue then List.range' t.before.entries.size (t.after.entries.size - t.before.entries.size) ++
      (t.before.queue p).pending else (t.before.queue p).pending := by
  rcases h with h | h
  · have size : t.after.entries.size - t.before.entries.size = r.body.length + 1 := by
      rw [h.size, Nat.add_sub_cancel_left]
    obtain ⟨events, same⟩ := h.after
    let x : Engine := { t.before with events }
    split
    · rename_i hp
      rw [hp, size, List.range'_concat, Nat.one_mul, List.append_assoc, same]
      exact Structured.pending_opened (e := x) r v hq
    · rename_i hp
      rw [same]
      exact congrArg Queue.pending ((Structured.bound t.queue r v x).queue_put_of_ne t.queue _ _ (Ne.symm hp))
  · have size := h.size
    obtain ⟨memories, same⟩ := h.after_eq
    rw [size, Nat.sub_self, List.range'_zero, List.nil_append, ite_self, same]
    rfl

theorem pending (hq : t.queue < t.before.queues.size) (hk : k ∈ (t.after.queue p).pending) :
    k ∈ (t.before.queue p).pending ∨ t.Makes k := by
  rw [h.pending_eq hq] at hk
  split at hk
  · rcases List.mem_append.1 hk with hk | hk
    · obtain ⟨hlow, hhigh⟩ := List.mem_range'_1.1 hk
      rw [Nat.add_sub_cancel' (h.moves hq).entries] at hhigh
      exact .inr ⟨hlow, hhigh⟩
    · exact .inl hk
  · exact .inl hk

theorem nodup (hq : t.queue < t.before.queues.size) (ht : t.before.Tidy)
    (hn : ∀ p, (t.before.queue p).pending.Nodup) (p : QueueRef) : (t.after.queue p).pending.Nodup := by
  rw [h.pending_eq hq]
  split
  · refine List.Nodup.append List.nodup_range' (hn p) fun k hk hk' => ?_
    exact Nat.not_lt.2 (List.mem_range'_1.1 hk).1 (ht.pending p k hk').1
  · exact hn p

/-- Of the entries that a turn makes the mark is the only one that is a mark. -/
theorem mark?_eq (hbody : ∀ m ∈ r.body, (t.before.entry m).code.isMark = false) (hk : t.Makes k)
    (hmark : (t.after.entry k).isLoopMark = true) : t.mark? = some k := by
  rcases h with h | h
  · rw [h.mark?_eq]
    obtain ⟨hlow, hhigh⟩ := hk
    rw [h.size] at hhigh
    obtain ⟨events, same⟩ := h.after
    obtain ⟨i, rfl⟩ := Nat.exists_eq_add_of_le hlow
    by_contra hne
    have hi : i < r.body.length := Nat.lt_of_le_of_ne
      (Nat.le_of_lt_succ (Nat.lt_of_add_lt_add_left hhigh)) fun hi => hne (by rw [hi])
    let x : Engine := { t.before with events }
    have here : (Structured.round t.queue r v x)[i]? = some ((Structured.bound t.queue r v x).entry r.body[i]) := by
      unfold Structured.round
      simp [List.getElem?_append_left, hi]
    have entry := Structured.entry_opened here
    have code : ((Structured.bound t.queue r v x).entry r.body[i]).code = (t.before.entry r.body[i]).code :=
      x.entry_changeEntry_keep (Structured.steadies_counted r v).code r.owner _
    unfold Entry.isLoopMark at hmark
    rw [same, entry] at hmark
    cases ((congrArg Compiled.isMark code).trans (hbody _ (List.getElem_mem hi))).symm.trans hmark
  · rw [Makes, h.size] at hk
    exact absurd hk.2 (Nat.not_lt.2 hk.1)

/-- A turn leaves the other loops alone. -/
theorem still {m : EntryRef} (hq : t.queue < t.before.queues.size) (ht : t.before.Tidy)
    (ho : t.before.Live r.owner) (hm : m < t.before.entries.size) (hne : m ≠ r.owner) :
    t.before.Still m t.after where
  size := (h.moves hq).entries
  code hn := (h.moves hq).code hn
  owner hn := (h.moves hq).owner hn
  loop := by
    rw [(h.moves hq).entry hm fun hmem => hne (List.mem_singleton.1 hmem)]
  blocks := (h.moves hq).blocks hm
  block n hn := by
    have base : t.before.IsBase n := .inr ⟨m, Entry.mem_inner_of_firstBlock hn⟩
    exact (h.moves hq).entry (ht.based.lt base) fun hmem => ho.2 (List.mem_singleton.1 hmem ▸ base)
  made hn hn' ho := hne (Option.some.inj (ho.symm.trans (h.made ⟨hn, hn'⟩).1))
  catalogue := h.catalogue

end Turn.Acts

namespace Engine

variable {e e' : Engine} {q : QueueRef} {n m k : EntryRef} {o : Option EntryRef} {first : Option Argument}
  {ts : List Turn} {t : Turn}

/-- The entry was not begun. -/
def Unbegun (e : Engine) (k : EntryRef) : Prop :=
  ∀ q before previous, Step.began q k before previous ∉ e.journal

/-- The mark of a turn, if it has one, is still to be begun, and no other mark of the loop is pending. -/
structure Awaits (m : EntryRef) (t : Turn) (e : Engine) : Prop where
  only {q : QueueRef} {k : EntryRef} : k ∈ (e.queue q).pending → (e.entry k).isLoopMark = true →
    (e.entry k).owner = some m → t.mark? = some k
  unbegun {k : EntryRef} : t.mark? = some k → e.Unbegun k

/-- Every loop that has begun has had its turns and waits for the mark of the last one, except for the loop
`o` that is given a turn.  Pending entries have not begun a loop. -/
structure Rounding (o : Option EntryRef) (e : Engine) : Prop where
  furnished : e.Furnished
  nodup (q : QueueRef) : (e.queue q).pending.Nodup
  idle {q : QueueRef} {n : EntryRef} : n ∈ (e.queue q).pending → (e.entry n).loop = none
  owned {n m : EntryRef} : n < e.entries.size → (e.entry n).owner = some m → e.isLoop m = true →
    (e.entry m).loop.isSome = true
  turned {m : EntryRef} : m < e.entries.size → some m ≠ o → e.isLoop m = true →
    (e.entry m).loop.isSome = true → ∃ first ts t, e.Turned m first (ts ++ [t]) ∧ e.Awaits m t

/-- All loops are left as they are, and none of their entries is made.  No entry comes to be pending that
was not, unless it is new. -/
structure Calm (e e' : Engine) : Prop where
  size : e.entries.size ≤ e'.entries.size
  code {n : EntryRef} : n < e.entries.size → (e'.entry n).code = (e.entry n).code
  owner {n : EntryRef} : n < e.entries.size → (e'.entry n).owner = (e.entry n).owner
  loop {n : EntryRef} : n < e.entries.size → (e'.entry n).loop = (e.entry n).loop
  idle {n : EntryRef} : e.entries.size ≤ n → n < e'.entries.size → (e'.entry n).loop = none
  plain {n : EntryRef} : e.entries.size ≤ n → e'.Live n → (e'.entry n).isLoopMark = false
  loose {n m : EntryRef} : e.entries.size ≤ n → n < e'.entries.size → (e'.entry n).owner = some m →
    e'.isLoop m = false
  pending {q : QueueRef} {n : EntryRef} : n ∈ (e'.queue q).pending →
    (∃ p, n ∈ (e.queue p).pending) ∨ e.entries.size ≤ n
  nodup : (∀ q, (e.queue q).pending.Nodup) → ∀ q, (e'.queue q).pending.Nodup
  catalogue : e'.catalogue = e.catalogue
  journal : e'.journal = e.journal

namespace Calm

theorem isLoop (h : e.Calm e') (hm : m < e.entries.size) : e'.isLoop m = e.isLoop m := by
  unfold Engine.isLoop
  rw [h.code hm]

theorem still (h : e.Calm e') (he : e.Healthy) (hh : Discipline.healthy.Step e e') (hm : m < e.entries.size)
    (hl : e.isLoop m = true) : e.Still m e' where
  size := h.size
  code := h.code
  owner := h.owner
  loop := h.loop hm
  blocks := hh.2.2.blocks hm
  block _ hn := Discipline.Healthy.entry_of_isBase he hh (.inr ⟨m, Entry.mem_inner_of_firstBlock hn⟩)
  made hn hn' ho := Bool.noConfusion ((h.loose hn hn' ho).symm.trans ((h.isLoop hm).trans hl))
  catalogue := h.catalogue

theorem awaits (h : e.Calm e') (ht : e.Tidy) (ht' : e'.Tidy) (ha : e.Awaits m t) : e'.Awaits m t where
  only {q k} hk hmark ho := by
    rcases h.pending hk with ⟨p, hp⟩ | hnew
    · have hlt := (ht.pending p k hp).1
      unfold Entry.isLoopMark at hmark
      rw [h.code hlt] at hmark
      rw [h.owner hlt] at ho
      exact ha.only hp hmark ho
    · cases (h.plain hnew (ht'.pending q k hk)).symm.trans hmark
  unbegun hk := by
    unfold Unbegun
    rw [h.journal]
    exact ha.unbegun hk

end Calm

/-- To begin an entry is nothing to the loops. -/
theorem Still.begun (e : Engine) (m : EntryRef) (q : QueueRef) (n : EntryRef) (rest : List EntryRef) :
    e.Still m (e.begun q n rest) :=
  ⟨Nat.le_refl _, fun _ => rfl, fun _ => rfl, rfl, rfl, fun _ _ => rfl,
    fun hn hn' => absurd hn' (Nat.not_lt.2 hn), rfl⟩

namespace Rounding

/-- Loops that are left alone have had the same turns. -/
theorem calm (h : e.Rounding o) (he : e.Healthy) (hh : Discipline.healthy.Step e e') (hc : e.Calm e')
    (hf : e'.Furnished) : e'.Rounding o where
  furnished := hf
  nodup := hc.nodup h.nodup
  idle {q n} hn := by
    rcases hc.pending hn with ⟨p, hp⟩ | hnew
    · rw [hc.loop (he.tidy.pending p n hp).1]
      exact h.idle hp
    · exact hc.idle hnew (hh.1.tidy.pending q n hn).1
  owned {n m} hn ho hl := by
    by_cases hlt : n < e.entries.size
    · rw [hc.owner hlt] at ho
      have hm := (he.tidy.owner ho).1
      rw [hc.loop hm]
      exact h.owned hlt ho ((hc.isLoop hm).symm.trans hl)
    · cases (hc.loose (Nat.le_of_not_lt hlt) hn ho).symm.trans hl
  turned {m} hm ho hl hb := by
    by_cases hlt : m < e.entries.size
    · rw [hc.isLoop hlt] at hl
      rw [hc.loop hlt] at hb
      obtain ⟨first, ts, t, turned, awaits⟩ := h.turned hlt ho hl hb
      exact ⟨first, ts, t, .still turned (hc.still he hh hlt hl), hc.awaits he.tidy hh.1.tidy awaits⟩
    · rw [hc.idle (Nat.le_of_not_lt hlt) hm] at hb
      cases hb

theorem except (h : e.Rounding none) (m : EntryRef) : e.Rounding (some m) :=
  { h with turned := fun hm _ => h.turned hm (Option.some_ne_none _) }

/-- A queue begins an entry.  If that is a mark, its loop is given a turn. -/
theorem begun {rest : List EntryRef} (h : e.Rounding none) (hq : q < e.queues.size)
    (hp : (e.queue q).pending = n :: rest) (hf : (e.begun q n rest).Furnished)
    (ho : ∀ m, (e.entry n).isLoopMark = true → (e.entry n).owner = some m → o = some m) :
    (e.begun q n rest).Rounding o := by
  have here := e.queue_begun hq n rest
  have head : n ∈ (e.queue q).pending := hp ▸ List.mem_cons_self
  have old {p : QueueRef} {k : EntryRef} (hk : k ∈ ((e.begun q n rest).queue p).pending) :
      k ∈ (e.queue p).pending := by
    by_cases hpq : p = q
    · rw [hpq, here] at hk
      rw [hpq, hp]
      exact List.mem_cons_of_mem _ hk
    · rwa [e.queue_begun_of_ne hpq] at hk
  refine ⟨hf, fun p => ?_, fun hk => h.idle (old hk), h.owned, fun {m} hm hmo hl hb => ?_⟩
  · by_cases hpq : p = q
    · have nodup := h.nodup q
      rw [hp] at nodup
      rw [hpq, here]
      exact (List.nodup_cons.1 nodup).2
    · rw [e.queue_begun_of_ne hpq]
      exact h.nodup p
  · obtain ⟨first, ts, t, turned, awaits⟩ := h.turned hm (Option.some_ne_none _) hl hb
    refine ⟨first, ts, t, .still turned (.begun e m q n rest), fun hk => awaits.only (old hk),
      fun {k} hk p before previous hj => ?_⟩
    rcases List.mem_cons.1 hj with hj | hj
    · obtain ⟨-, rfl, -, -⟩ := Step.began.inj hj
      have rounded := turned.rounded
      have last : t ∈ ts ++ [t] := List.mem_append_right _ (List.mem_singleton_self t)
      have makes := Turn.Makes.of_mark? hk
      have owner := (rounded.made (Nat.lt_of_lt_of_le makes.2 (rounded.there last))).2 ⟨t, last, makes⟩
      exact hmo (ho m (rounded.mark last hk) owner).symm
    · exact awaits.unbegun hk p before previous hj

/-- The mark of a loop is begun only where it was waited for. -/
theorem awaited {rest : List EntryRef} (h : e.Rounding none) (hm : m < e.entries.size)
    (hl : e.isLoop m = true) (hb : (e.entry m).loop.isSome = true) (hp : (e.queue q).pending = n :: rest)
    (hmark : (e.entry n).isLoopMark = true) (ho : (e.entry n).owner = some m)
    (hr : ∀ {p k}, k ∈ (e.queue p).pending → (e.entry k).residing = some p) :
    ∃ first ts t, e.Turned m first (ts ++ [t]) ∧ t.mark? = some n ∧
      ∀ p k, k ∈ (e.queue p).pending → (e.entry k).isLoopMark = true → (e.entry k).owner = some m →
        p = q ∧ k = n := by
  obtain ⟨first, ts, t, turned, awaits⟩ := h.turned hm (Option.some_ne_none _) hl hb
  have head : n ∈ (e.queue q).pending := hp ▸ List.mem_cons_self
  have mark := awaits.only head hmark ho
  refine ⟨first, ts, t, turned, mark, fun p k hk hmark' ho' => ?_⟩
  obtain rfl := Option.some.inj ((awaits.only hk hmark' ho').symm.trans mark)
  exact ⟨Option.some.inj ((hr hk).symm.trans (hr head)), rfl⟩

/-- A loop that was given a turn has had its turns, and waits for the mark of the last one. -/
theorem acts {r : Rounds} {v : Float} (h : t.before.Rounding (some r.owner)) (ht : t.before.Tidy)
    (owner : t.before.Live r.owner) (ha : t.Acts r v) (hq : t.queue < t.before.queues.size)
    (hf : t.after.Furnished) (hr : t.after.Turned r.owner first (ts ++ [t]))
    (hbody : ∀ m ∈ r.body, (t.before.entry m).code.isMark = false)
    (htraced : ∀ k, t.before.entries.size ≤ k → t.before.Unbegun k)
    (hidle : ∀ q, r.owner ∉ (t.before.queue q).pending)
    (hnone : ∀ q k, k ∈ (t.before.queue q).pending → (t.before.entry k).isLoopMark = true →
      (t.before.entry k).owner ≠ some r.owner) : t.after.Rounding none := by
  have moved := ha.moves hq
  have begun : (t.after.entry r.owner).loop.isSome = true := by
    rw [ha.loop owner.1]
    rfl
  have old {k : EntryRef} (hk : k < t.before.entries.size) : (t.after.entry k).isLoopMark =
      (t.before.entry k).isLoopMark := by
    unfold Entry.isLoopMark
    rw [moved.code hk]
  have isLoop {k : EntryRef} (hk : k < t.before.entries.size) : t.after.isLoop k = t.before.isLoop k := by
    unfold Engine.isLoop
    rw [moved.code hk]
  refine ⟨hf, ha.nodup hq ht h.nodup, fun {p n} hn => ?_, fun {n m} hn ho hl => ?_, fun {m} hm _ hl hb => ?_⟩
  · rcases ha.pending hq hn with hn | hn
    · have other : n ∉ [r.owner] := fun hmem => hidle p (List.mem_singleton.1 hmem ▸ hn)
      rw [moved.entry (ht.pending p n hn).1 other]
      exact h.idle hn
    · exact (ha.made hn).2
  · by_cases hmr : m = r.owner
    · rw [hmr]
      exact begun
    by_cases hlt : n < t.before.entries.size
    · rw [moved.owner hlt] at ho
      have hm := (ht.owner ho).1
      rw [isLoop hm] at hl
      rw [moved.entry hm fun hmem => hmr (List.mem_singleton.1 hmem)]
      exact h.owned hlt ho hl
    · exact absurd (Option.some.inj (ho.symm.trans (ha.made ⟨Nat.le_of_not_lt hlt, hn⟩).1)) hmr
  · by_cases hmr : m = r.owner
    · subst hmr
      refine ⟨first, ts, t, hr, fun {p k} hk hmark ho => ?_, fun {k} hk => ?_⟩
      · rcases ha.pending hq hk with hk | hk
        · have hlt := (ht.pending p k hk).1
          rw [old hlt] at hmark
          rw [moved.owner hlt] at ho
          exact absurd ho (hnone p k hk hmark)
        · exact ha.mark?_eq hbody hk hmark
      · unfold Unbegun
        rw [ha.journal]
        exact htraced k (Turn.Makes.of_mark? hk).1
    · by_cases hlt : m < t.before.entries.size
      · rw [isLoop hlt] at hl
        have still := ha.still hq ht owner hlt hmr
        rw [still.loop] at hb
        obtain ⟨first', ts', t', turned, awaits⟩ := h.turned hlt (fun hm => hmr (Option.some.inj hm)) hl hb
        refine ⟨first', ts', t', .still turned still, fun {p k} hk hmark ho => ?_, fun hk => ?_⟩
        · rcases ha.pending hq hk with hk | hk
          · have hkt := (ht.pending p k hk).1
            rw [old hkt] at hmark
            rw [moved.owner hkt] at ho
            exact awaits.only hk hmark ho
          · exact absurd (Option.some.inj (ho.symm.trans (ha.made hk).1)) hmr
        · unfold Unbegun
          rw [ha.journal]
          exact awaits.unbegun hk
      · rw [(ha.made ⟨Nat.le_of_not_lt hlt, hm⟩).2] at hb
        cases hb

end Rounding

end Engine

end QueueScript
