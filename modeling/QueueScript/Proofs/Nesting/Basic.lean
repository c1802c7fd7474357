import QueueScript.Proofs.Nesting.Unmarked

/-!
# Entries nested in loops

An entry that a command puts on a queue is owned by the entry of that command, so owners form a tree
above the lines of the sources.  The loop that an entry belongs to is the nearest loop above it
(`Engine.NearestLoop`).  A list of pending entries is *nested* when the marks in it close one loop after
another, from the inside out: all entries before a mark belong to the loop of that mark, and the loops
of the later marks are above it (`Engine.Nested`).

What is read off the engine here is the command and the owner of every entry, and whether it has begun a
loop.  Commands and owners never change, and a loop that has begun stays so (`Engine.Roots`).
-/

namespace QueueScript

/-- The command is one of the outermost lines of a source without marks. -/
def Catalogue.Lists (K : Catalogue) (c : Compiled) : Prop :=
  ∃ script source, Source.Unmarked K source ∧
    c ∈ (buildLines K script (Source.parse source).lines).1

namespace Engine

/-! ## Loops above an entry -/

/-- Whether the command of an entry is a loop. -/
def isLoop (e : Engine) (n : EntryRef) : Bool :=
  (e.entry n).code.handler.behaviour.isLoop

/-- The nearest loop among the owner of an entry, the owner of that, and so on. -/
inductive NearestLoop (e : Engine) : EntryRef → Option EntryRef → Prop where
  | top {n : EntryRef} : (e.entry n).owner = none → NearestLoop e n none
  | loop {n m : EntryRef} : (e.entry n).owner = some m → e.isLoop m = true →
      NearestLoop e n (some m)
  | block {n m : EntryRef} {r : Option EntryRef} : (e.entry n).owner = some m →
      e.isLoop m = false → NearestLoop e m r → NearestLoop e n r

/-- Where an entry comes from: it is a line of a source, or it stands in a block of its owner, or it
marks the end of a round of its owner. -/
inductive Origin (K : Catalogue) (e : Engine) (n : EntryRef) : Prop where
  | line : (e.entry n).owner = none → K.Lists (e.entry n).code → Origin K e n
  | block {m : EntryRef} : (e.entry n).owner = some m → m < n →
      (e.entry m).code.Encloses (e.entry n).code → Origin K e n
  | mark {m : EntryRef} : (e.entry n).owner = some m → m < n → (e.entry n).code = e.markOf m →
      e.isLoop m = true → (e.entry m).loop.isSome = true → Origin K e n

/-- The entries up to the first mark belong to a loop, those up to the next mark to the nearest loop
above that one, and so on.  Entries after the last mark belong to no loop. -/
inductive Nested (e : Engine) : Option EntryRef → List EntryRef → Prop where
  | nil : Nested e none []
  | entry {n : EntryRef} {r : Option EntryRef} {rest : List EntryRef} : n < e.entries.size →
      (e.entry n).isLoopMark = false → e.NearestLoop n r → Nested e r rest → Nested e r (n :: rest)
  | mark {n m : EntryRef} {r : Option EntryRef} {rest : List EntryRef} : n < e.entries.size →
      (e.entry n).isLoopMark = true → (e.entry n).owner = some m → e.isLoop m = true →
      (e.entry m).loop.isSome = true → e.NearestLoop m r → Nested e r rest →
      Nested e (some m) (n :: rest)

/-- The loops that the marks among entries belong to, in order. -/
def loopsOf (e : Engine) (ns : List EntryRef) : List EntryRef :=
  ns.filterMap fun n => if (e.entry n).isLoopMark then (e.entry n).owner else none

variable {e e' e'' : Engine} {n m : EntryRef} {r s : Option EntryRef} {ns ms : List EntryRef}
  {K : Catalogue}

/-- An owner is older than what it owns. -/
theorem Origin.owner_lt (h : Origin K e n) (hm : (e.entry n).owner = some m) : m < n := by
  cases h with
  | line ho _ => cases ho.symm.trans hm
  | block ho hlt _ =>
    cases ho.symm.trans hm
    exact hlt
  | mark ho hlt _ _ _ =>
    cases ho.symm.trans hm
    exact hlt

/-- An entry has at most one nearest loop. -/
theorem NearestLoop.unique (h : e.NearestLoop n r) (h' : e.NearestLoop n s) : r = s := by
  induction h with
  | top ho =>
    cases h' with
    | top _ => rfl
    | loop ho' _ => cases ho.symm.trans ho'
    | block ho' _ _ => cases ho.symm.trans ho'
  | loop ho hl =>
    cases h' with
    | top ho' => cases ho.symm.trans ho'
    | loop ho' _ => exact ho.symm.trans ho'
    | block ho' hl' _ =>
      cases ho.symm.trans ho'
      cases hl.symm.trans hl'
  | block ho hl _ ih =>
    cases h' with
    | top ho' => cases ho.symm.trans ho'
    | loop ho' hl' =>
      cases ho.symm.trans ho'
      cases hl.symm.trans hl'
    | block ho' _ h' =>
      cases ho.symm.trans ho'
      exact ih h'

/-- An entry is made after the loops above it. -/
theorem NearestLoop.lt (ho : ∀ {n m}, n < e.entries.size → (e.entry n).owner = some m → m < n)
    (hn : n < e.entries.size) (h : e.NearestLoop n (some m)) : m < n := by
  generalize hr : some m = r at h
  induction h with
  | top _ => cases hr
  | loop hm _ =>
    cases hr
    exact ho hn hm
  | block hm _ _ ih =>
    have hlt := ho hn hm
    exact Nat.lt_trans (ih (Nat.lt_trans hlt hn) hr) hlt

/-! ## Nested lists -/

/-- The rest of nested entries is nested. -/
theorem Nested.tail (h : e.Nested r (n :: ns)) : ∃ s, e.Nested s ns := by
  cases h with
  | entry _ _ _ h => exact ⟨_, h⟩
  | mark _ _ _ _ _ _ h => exact ⟨_, h⟩

/-- What is left of nested entries after some is nested. -/
theorem Nested.drop (h : e.Nested r ns) (k : Nat) : ∃ s, e.Nested s (ns.drop k) := by
  induction k generalizing r ns with
  | zero => exact ⟨r, h⟩
  | succ k ih =>
    cases ns with
    | nil => exact ⟨r, h⟩
    | cons n ns =>
      obtain ⟨s, hs⟩ := h.tail
      exact ih hs

/-- Entries without a mark belong to no loop. -/
theorem Nested.eq_none_of_unmarked (h : e.Nested r ns)
    (hns : ∀ n ∈ ns, (e.entry n).isLoopMark = false) : r = none := by
  induction h with
  | nil => rfl
  | entry _ _ _ _ ih => exact ih fun n hn => hns n (List.mem_cons_of_mem _ hn)
  | mark _ hmark _ _ _ _ _ _ => cases hmark.symm.trans (hns _ List.mem_cons_self)

/-- Further entries of a loop are put before the others. -/
theorem Nested.append (h : e.Nested r ns) (hms : ∀ m ∈ ms, m < e.entries.size ∧
    (e.entry m).isLoopMark = false ∧ e.NearestLoop m r) : e.Nested r (ms ++ ns) := by
  induction ms with
  | nil => exact h
  | cons m ms ih =>
    obtain ⟨hsize, hmark, hloop⟩ := hms m List.mem_cons_self
    exact .entry hsize hmark hloop (ih fun x hx => hms x (List.mem_cons_of_mem _ hx))

/-- Lines of a source are put after the others. -/
theorem Nested.concat (h : e.Nested r ns) (hms : ∀ m ∈ ms, m < e.entries.size ∧
    (e.entry m).isLoopMark = false ∧ e.NearestLoop m none) : e.Nested r (ns ++ ms) := by
  induction h with
  | nil => simpa using Nested.nil.append hms
  | entry hsize hmark hloop _ ih => exact .entry hsize hmark hloop ih
  | mark hsize hmark howner hloop hbegun habove _ ih =>
    exact .mark hsize hmark howner hloop hbegun habove ih

/-- The first mark is that of the loop that the first entries belong to. -/
theorem Nested.firstMark (h : e.Nested r ns) :
    match r with
    | none => Commands.Loop.firstMark e ns = none
    | some m => ∃ i mark, Commands.Loop.firstMark e ns = some (i, mark) ∧
        (e.entry mark).owner = some m ∧ e.isLoop m = true ∧ (e.entry m).loop.isSome = true := by
  induction h with
  | nil => rfl
  | @entry n r rest _ hmark _ _ ih =>
    have skip : Commands.Loop.firstMark e (n :: rest) = _ := Commands.Loop.firstMark_of_plain hmark
    cases r with
    | none => rw [skip, ih]; rfl
    | some m =>
      obtain ⟨i, mark, hfound, hrest⟩ := ih
      exact ⟨i + 1, mark, by rw [skip, hfound]; rfl, hrest⟩
  | @mark n m r rest _ hmark howner hloop hbegun _ _ _ =>
    exact ⟨0, n, Commands.Loop.firstMark_of_mark hmark, howner, hloop, hbegun⟩

/-- The loops of the marks were made one before the other, so they are all different. -/
theorem Nested.loopsOf_pairwise
    (ho : ∀ {n m}, n < e.entries.size → (e.entry n).owner = some m → m < n)
    (h : e.Nested r ns) :
    (∀ m ∈ e.loopsOf ns, ∃ k, r = some k ∧ m ≤ k) ∧ (e.loopsOf ns).Pairwise (· > ·) := by
  induction h with
  | nil => exact ⟨fun m hm => absurd hm List.not_mem_nil, .nil⟩
  | @entry n r rest _ hmark _ _ ih =>
    have skip : e.loopsOf (n :: rest) = e.loopsOf rest := by
      simp [loopsOf, hmark]
    rw [skip]
    exact ih
  | @mark n m r rest hsize hmark howner _ _ habove _ ih =>
    have hmsize : m < e.entries.size := Nat.lt_trans (ho hsize howner) hsize
    have found : e.loopsOf (n :: rest) = m :: e.loopsOf rest := by
      simp [loopsOf, hmark, howner]
    have below : ∀ k ∈ e.loopsOf rest, k < m := by
      intro k hk
      obtain ⟨j, rfl, hle⟩ := ih.1 k hk
      exact Nat.lt_of_le_of_lt hle (habove.lt ho hmsize)
    rw [found]
    refine ⟨fun k hk => ⟨m, rfl, ?_⟩, .cons below ih.2⟩
    rcases List.mem_cons.1 hk with rfl | hk
    · exact Nat.le_refl _
    · exact Nat.le_of_lt (below k hk)

/-- Nested marks belong to loops that have begun. -/
theorem Nested.begun_of_mem_loopsOf (h : e.Nested r ns) :
    ∀ m ∈ e.loopsOf ns, e.isLoop m = true ∧ (e.entry m).loop.isSome = true := by
  induction h with
  | nil => exact fun m hm => absurd hm List.not_mem_nil
  | @entry n r rest _ hmark _ _ ih =>
    have skip : e.loopsOf (n :: rest) = e.loopsOf rest := by
      simp [loopsOf, hmark]
    rwa [skip]
  | @mark n m r rest _ hmark howner hloop hbegun _ _ ih =>
    have found : e.loopsOf (n :: rest) = m :: e.loopsOf rest := by
      simp [loopsOf, hmark, howner]
    rw [found]
    intro k hk
    rcases List.mem_cons.1 hk with rfl | hk
    · exact ⟨hloop, hbegun⟩
    · exact ih k hk

/-! ## Later engines -/

/-- Entries keep their commands and their owners, and loops that have begun stay so. -/
structure Roots (e e' : Engine) : Prop where
  size : e.entries.size ≤ e'.entries.size
  code {n : EntryRef} : n < e.entries.size → (e'.entry n).code = (e.entry n).code
  owner {n : EntryRef} : n < e.entries.size → (e'.entry n).owner = (e.entry n).owner
  loop {n : EntryRef} : n < e.entries.size → (e.entry n).loop.isSome = true →
    (e'.entry n).loop.isSome = true

namespace Roots

/-- An engine has its own roots. -/
theorem refl (e : Engine) : e.Roots e :=
  ⟨Nat.le_refl _, fun _ => rfl, fun _ => rfl, fun _ h => h⟩

/-- Roots are kept over and over. -/
theorem trans (h : e.Roots e') (h' : e'.Roots e'') : e.Roots e'' where
  size := Nat.le_trans h.size h'.size
  code hn := (h'.code (Nat.lt_of_lt_of_le hn h.size)).trans (h.code hn)
  owner hn := (h'.owner (Nat.lt_of_lt_of_le hn h.size)).trans (h.owner hn)
  loop hn hl := h'.loop (Nat.lt_of_lt_of_le hn h.size) (h.loop hn hl)

end Roots

/-- New entries leave the roots as they are. -/
theorem roots_grown (e : Engine) (xs : List Entry) : e.Roots (e.grown xs) where
  size := by simp
  code hn := by rw [e.entry_grown_of_lt hn]
  owner hn := by rw [e.entry_grown_of_lt hn]
  loop hn hl := by rwa [e.entry_grown_of_lt hn]

/-- Entries that are put on a queue keep their roots. -/
theorem roots_put (e : Engine) (q : QueueRef) (xs : List Entry) (f : List EntryRef → List EntryRef) :
    e.Roots (e.put q xs f) where
  size := by simp
  code hn := by rw [e.entry_put_of_lt q xs f hn]
  owner hn := by rw [e.entry_put_of_lt q xs f hn]
  loop hn hl := by rwa [e.entry_put_of_lt q xs f hn]

namespace Roots

variable (h : e.Roots e')

include h

/-- A loop stays a loop. -/
theorem isLoop (hn : n < e.entries.size) : e'.isLoop n = e.isLoop n := by
  unfold Engine.isLoop
  rw [h.code hn]

/-- A mark stays a mark. -/
theorem isLoopMark (hn : n < e.entries.size) :
    (e'.entry n).isLoopMark = (e.entry n).isLoopMark := by
  unfold Entry.isLoopMark
  rw [h.code hn]

/-- The mark of a loop stays the same. -/
theorem markOf (hn : n < e.entries.size) : e'.markOf n = e.markOf n := by
  unfold Engine.markOf
  rw [h.code hn]

/-- The nearest loop of an entry stays the same. -/
theorem nearestLoop (ht : e.Tidy) (hn : n < e.entries.size) (hl : e.NearestLoop n r) :
    e'.NearestLoop n r := by
  induction hl with
  | top ho => exact .top ((h.owner hn).trans ho)
  | loop ho hl => exact .loop ((h.owner hn).trans ho) ((h.isLoop (ht.owner ho).1).trans hl)
  | block ho hl _ ih =>
    have hm := (ht.owner ho).1
    exact .block ((h.owner hn).trans ho) ((h.isLoop hm).trans hl) (ih hm)

/-- Nested entries stay nested. -/
theorem nested (ht : e.Tidy) (hr : e.Nested r ns) : e'.Nested r ns := by
  induction hr with
  | nil => exact .nil
  | entry hsize hmark hloop _ ih =>
    exact .entry (Nat.lt_of_lt_of_le hsize h.size) ((h.isLoopMark hsize).trans hmark)
      (h.nearestLoop ht hsize hloop) ih
  | mark hsize hmark howner hloop hbegun habove _ ih =>
    have hm := (ht.owner howner).1
    exact .mark (Nat.lt_of_lt_of_le hsize h.size) ((h.isLoopMark hsize).trans hmark)
      ((h.owner hsize).trans howner) ((h.isLoop hm).trans hloop) (h.loop hm hbegun)
      (h.nearestLoop ht hm habove) ih

/-- An entry keeps its origin. -/
theorem origin (hn : n < e.entries.size) (ho : Origin K e n) : Origin K e' n := by
  cases ho with
  | line hm hc =>
    refine .line ((h.owner hn).trans hm) ?_
    rwa [h.code hn]
  | block hm hlt hc =>
    refine .block ((h.owner hn).trans hm) hlt ?_
    rwa [h.code hn, h.code (Nat.lt_trans hlt hn)]
  | mark hm hlt hc hl hb =>
    have hsize := Nat.lt_trans hlt hn
    refine .mark ((h.owner hn).trans hm) hlt ?_ ((h.isLoop hsize).trans hl) (h.loop hsize hb)
    rw [h.code hn, hc, h.markOf hsize]

end Roots

/-! ## The invariant -/

/-- Every live entry has its origin, and the pending entries of every queue are nested and run on that queue.
So they were whenever a queue began an entry. -/
structure Looped (K : Catalogue) (e : Engine) : Prop where
  catalogue : e.catalogue = K
  origin {n : EntryRef} : e.Live n → Origin K e n
  pending (q : QueueRef) : ∃ r, e.Nested r (e.queue q).pending
  residing {q : QueueRef} {n : EntryRef} : n ∈ (e.queue q).pending →
    (e.entry n).residing = some q
  source (n : Nat) : Source.Unmarked K (e.script n).source
  base {i : Nat} {ns : List EntryRef} : (e.script i).base = some ns →
    ∀ m ∈ ns, K.Lists (e.entry m).code
  began {q : QueueRef} {n : EntryRef} {before : Queue} {previous : Option Entry} :
    Step.began q n before previous ∈ e.journal → ∃ r, e.Nested r (n :: before.pending)

/-- A mark has no blocks. -/
theorem not_encloses_markOf (e : Engine) (m : EntryRef) (c : Compiled) : ¬ (e.markOf m).Encloses c := by
  rintro ⟨bs, hbs, b, hb, -⟩
  cases hbs
  cases hb

namespace Looped

variable (h : e.Looped K)

include h

/-- What is left to show of a later engine with the same history. -/
theorem later (ht : e.Tidy) (hg : e.Grows e') (hr : e.Roots e') (hc : e'.catalogue = e.catalogue)
    (hs : ∀ i, Source.Unmarked K (e'.script i).source) (hj : e'.journal = e.journal)
    (hb : ∀ {i ns}, (e'.script i).base = some ns → (e.script i).base = some ns ∨
      ∀ m ∈ ns, K.Lists (e'.entry m).code)
    (hnew : ∀ {n}, e.entries.size ≤ n → e'.Live n → Origin K e' n)
    (hp : ∀ q, ∃ r, e'.Nested r (e'.queue q).pending)
    (hq : ∀ {q n}, n ∈ (e'.queue q).pending → (e'.entry n).residing = some q) : e'.Looped K where
  catalogue := hc.trans h.catalogue
  origin {n} hn := by
    by_cases hsize : n < e.entries.size
    · exact hr.origin hsize (h.origin ⟨hsize, fun hb => hn.2 (hg.kept hb)⟩)
    · exact hnew (Nat.le_of_not_lt hsize) hn
  pending := hp
  residing := hq
  source := hs
  base {i ns} hi m hm := by
    rcases hb hi with same | lists
    · rw [hr.code (ht.based.lt (.inl ⟨i, ns, same, hm⟩))]
      exact h.base same m hm
    · exact lists m hm
  began hb := by
    rw [hj] at hb
    obtain ⟨r, hn⟩ := h.began hb
    exact ⟨r, hr.nested ht hn⟩

/-- What is left to show of an engine with the same scripts. -/
theorem moved (ht : e.Tidy) (hg : e.Grows e') (hr : e.Roots e') (hc : e'.catalogue = e.catalogue)
    (hs : e'.scripts = e.scripts) (hj : e'.journal = e.journal)
    (hnew : ∀ {n}, e.entries.size ≤ n → e'.Live n → Origin K e' n)
    (hp : ∀ q, ∃ r, e'.Nested r (e'.queue q).pending)
    (hq : ∀ {q n}, n ∈ (e'.queue q).pending → (e'.entry n).residing = some q) : e'.Looped K := by
  have script (i : Nat) : e'.script i = e.script i := by
    unfold Engine.script
    rw [hs]
  refine h.later ht hg hr hc (fun i => ?_) hj (fun {i ns} hi => .inl ?_) hnew hp hq
  · rw [script]
    exact h.source i
  · rwa [script] at hi

/-- Only live entries are owned. -/
theorem owner_lt (ht : e.Tidy) (hn : n < e.entries.size) (hm : (e.entry n).owner = some m) : m < n := by
  refine (h.origin ⟨hn, fun hb => ?_⟩).owner_lt hm
  cases (ht.based.blank hb).owner.symm.trans hm

/-- Every entry that is no mark has a command without marks. -/
theorem unmarked (hK : K.Native) (ht : e.Tidy) (hn : e.Live n) :
    (e.entry n).code.Unmarked ∨ ∃ m, (e.entry n).code = e.markOf m ∧ (e.entry n).owner = some m ∧
      m < n ∧ e.isLoop m = true ∧ (e.entry m).loop.isSome = true := by
  induction n using Nat.strongRecOn with
  | ind n ih =>
    cases h.origin hn with
    | line _ hc =>
      obtain ⟨script, source, hsource, hmem⟩ := hc
      exact .inl (hK.buildLines script hsource _ hmem)
    | @block m ho hlt hc =>
      rcases ih m hlt (ht.owner ho) with hm | ⟨k, hmark, -⟩
      · exact .inl (hm.enclosed hc)
      · exact absurd (hmark ▸ hc) (e.not_encloses_markOf k _)
    | mark hm hlt hc hl hb => exact .inr ⟨_, hc, hm, hlt, hl, hb⟩

/-- No mark stands in a block. -/
theorem unmarked_inner (hK : K.Native) (ht : e.Tidy) (hn : e.Live n) {k : EntryRef}
    (hk : k ∈ (e.entry n).inner) : (e.entry k).code.Unmarked := by
  have encloses := (ht.based.furnished n).inner hk
  rcases h.unmarked hK ht hn with hu | ⟨m, hm, -⟩
  · exact hu.enclosed encloses
  · exact absurd (hm ▸ encloses) (e.not_encloses_markOf m _)

end Looped

/-! ## Changes that move no entry -/

/-- Entries keep their commands, their owners, their loops and their queues; queues keep their pending
entries or lose all of them; and no step is put into the history. -/
structure Level (e e' : Engine) : Prop where
  size : e'.entries.size = e.entries.size
  queues : e.queues.size ≤ e'.queues.size
  code (n : EntryRef) : (e'.entry n).code = (e.entry n).code
  owner (n : EntryRef) : (e'.entry n).owner = (e.entry n).owner
  loop (n : EntryRef) : (e'.entry n).loop = (e.entry n).loop
  residing (n : EntryRef) : (e'.entry n).residing = (e.entry n).residing
  pending (q : QueueRef) : (e'.queue q).pending = (e.queue q).pending ∨ (e'.queue q).pending = []
  catalogue : e'.catalogue = e.catalogue
  scripts : e'.scripts = e.scripts
  journal : e'.journal = e.journal

namespace Level

/-- An engine is level with itself. -/
theorem refl (e : Engine) : e.Level e :=
  ⟨rfl, Nat.le_refl _, fun _ => rfl, fun _ => rfl, fun _ => rfl, fun _ => rfl, fun _ => .inl rfl, rfl,
    rfl, rfl⟩

/-- Level changes follow one another. -/
theorem trans (h : e.Level e') (h' : e'.Level e'') : e.Level e'' where
  size := h'.size.trans h.size
  queues := Nat.le_trans h.queues h'.queues
  code n := (h'.code n).trans (h.code n)
  owner n := (h'.owner n).trans (h.owner n)
  loop n := (h'.loop n).trans (h.loop n)
  residing n := (h'.residing n).trans (h.residing n)
  pending q := by
    rcases h'.pending q with hp | hp
    · rw [hp]
      exact h.pending q
    · exact .inr hp
  catalogue := h'.catalogue.trans h.catalogue
  scripts := h'.scripts.trans h.scripts
  journal := h'.journal.trans h.journal

/-- A level change keeps the roots. -/
theorem roots (h : e.Level e') : e.Roots e' where
  size := Nat.le_of_eq h.size.symm
  code _ := h.code _
  owner _ := h.owner _
  loop _ hl := by rwa [h.loop]

/-- A level change keeps loops nested. -/
theorem looped (h : e.Level e') (ht : e.Tidy) (hg : e.Grows e') (he : e.Looped K) : e'.Looped K := by
  refine he.moved ht hg h.roots h.catalogue h.scripts h.journal (fun hn hn' => ?_) (fun q => ?_)
    fun {q n} hn => ?_
  · exact absurd (h.size ▸ hn'.1) (Nat.not_lt.2 hn)
  · rcases h.pending q with hp | hp
    · obtain ⟨r, hr⟩ := he.pending q
      rw [hp]
      exact ⟨r, h.roots.nested ht hr⟩
    · rw [hp]
      exact ⟨none, .nil⟩
  · rw [h.residing]
    rcases h.pending q with hp | hp
    · rw [hp] at hn
      exact he.residing hn
    · rw [hp] at hn
      cases hn

/-- The same queues, entries and scripts, and the same history. -/
theorem of_tables (hq : e'.queues = e.queues) (hn : e'.entries = e.entries)
    (hs : e'.scripts = e.scripts) (hc : e'.catalogue = e.catalogue) (hj : e'.journal = e.journal) :
    e.Level e' := by
  have queue (q : QueueRef) : e'.queue q = e.queue q := by
    unfold Engine.queue
    rw [hq]
  have entry (n : EntryRef) : e'.entry n = e.entry n := by
    unfold Engine.entry
    rw [hn]
  exact {
    size := by rw [hn]
    queues := Nat.le_of_eq (by rw [hq])
    code := fun n => by rw [entry]
    owner := fun n => by rw [entry]
    loop := fun n => by rw [entry]
    residing := fun n => by rw [entry]
    pending := fun q => .inl (by rw [queue])
    catalogue := hc
    scripts := hs
    journal := hj }

/-- The change of an entry is level, when line, owner, loop and place are kept. -/
theorem changeEntry (e : Engine) (n : EntryRef) {f : Entry → Entry}
    (hc : ∀ x, (f x).code = x.code) (ho : ∀ x, (f x).owner = x.owner)
    (hl : ∀ x, (f x).loop = x.loop) (hr : ∀ x, (f x).residing = x.residing) :
    e.Level (e.changeEntry n f) where
  size := e.size_changeEntry n f
  queues := Nat.le_refl _
  code m := e.entry_changeEntry_keep hc n m
  owner m := e.entry_changeEntry_keep ho n m
  loop m := e.entry_changeEntry_keep hl n m
  residing m := e.entry_changeEntry_keep hr n m
  pending _ := .inl rfl
  catalogue := rfl
  scripts := rfl
  journal := rfl

/-- The change of a queue is level, when it keeps its pending entries or loses all. -/
theorem changeQueue (e : Engine) (q : QueueRef) {f : Queue → Queue}
    (hp : ∀ x, (f x).pending = x.pending ∨ (f x).pending = []) : e.Level (e.changeQueue q f) where
  size := rfl
  queues := Nat.le_of_eq (e.size_changeQueue q f).symm
  code _ := rfl
  owner _ := rfl
  loop _ := rfl
  residing _ := rfl
  pending p := by
    rw [e.queue_changeQueue]
    split
    · exact hp _
    · exact .inl rfl
  catalogue := rfl
  scripts := rfl
  journal := rfl

/-- A queue with nothing pending is made on the level. -/
theorem withQueue (e : Engine) {x : Queue} (hx : x.pending = []) : e.Level (e.withQueue x) where
  size := rfl
  queues := by simp
  code _ := rfl
  owner _ := rfl
  loop _ := rfl
  residing _ := rfl
  pending p := by
    rw [e.queue_withQueue]
    split
    · exact .inr hx
    · exact .inl rfl
  catalogue := rfl
  scripts := rfl
  journal := rfl

end Level

end Engine

end QueueScript
