import QueueScript.Proofs.Equations

/-!
# Base entries

The entries that a script was made into, and those in the blocks of any entry, are base entries: they
stay aside, and whatever runs of them are clones.  All the entries of a command are made at once, the
entries of its blocks before the entry that owns the blocks, and only that last one may be put on a
queue.  An entry is *live* when it is there and is no base entry.
-/

namespace QueueScript

/-- A block with something made of each command in it. -/
def Branch.map {α β : Type} (f : α → β) (b : Branch α) : Branch β :=
  { b with body := b.body.map f }

/-- The second command stands in a block of the first one. -/
def Compiled.Encloses (c c' : Compiled) : Prop :=
  ∃ branches, c.branches = some branches ∧ ∃ b ∈ branches, c' ∈ b.body

/-- The second command stands in a block of the first one, at whatever depth. -/
inductive Compiled.Holds : Compiled → Compiled → Prop where
  /-- In a block of its own. -/
  | here {c d : Compiled} : c.Encloses d → Holds c d
  /-- In a block of a command in a block. -/
  | deeper {c c' d : Compiled} : c.Encloses c' → Holds c' d → Holds c d

/-- The commands of the first block. -/
def Compiled.firstBlock (c : Compiled) : List Compiled :=
  (c.branches.getD []).head?.elim [] (·.body)

/-- What is handed down from a command to those in its blocks holds of all commands that it holds. -/
theorem Compiled.Holds.closed {P : Compiled → Prop} (hP : ∀ {c c'}, P c → c.Encloses c' → P c')
    {c d : Compiled} (h : c.Holds d) (hc : P c) : P d := by
  induction h with
  | here hd => exact hP hc hd
  | deeper hc' _ ih => exact ih (hP hc hc')

/-! ## Entries as they are made -/

namespace Entry

/-- The entries in the blocks of an entry. -/
def inner (x : Entry) : List EntryRef :=
  x.blocks.flatMap (·.body)

/-- The entries in its first block. -/
def firstBlock (x : Entry) : List EntryRef :=
  x.blocks.head?.elim [] (·.body)

/-- Nothing was done with the entry since it was made: it is not finished, is on no queue, belongs to
none, runs no loop, and has neither arguments nor results. -/
def IsBlank (x : Entry) : Prop :=
  x = { code := x.code, blocks := x.blocks }

/-- The entry that stands for one that is not there is blank. -/
theorem isBlank_default : (default : Entry).IsBlank :=
  rfl

/-- An entry in a block of an entry is one of the entries in its blocks. -/
theorem mem_inner {x : Entry} {b : Branch EntryRef} {m : EntryRef} (hb : b ∈ x.blocks)
    (hm : m ∈ b.body) : m ∈ x.inner :=
  List.mem_flatMap.2 ⟨b, hb, hm⟩

/-- An entry in the first block is one of the entries in the blocks. -/
theorem mem_inner_of_firstBlock {x : Entry} {m : EntryRef} (hm : m ∈ x.firstBlock) : m ∈ x.inner := by
  unfold firstBlock at hm
  cases hbs : x.blocks with
  | nil =>
    rw [hbs] at hm
    cases hm
  | cons b rest =>
    rw [hbs] at hm
    exact mem_inner (hbs ▸ List.mem_cons_self) hm

variable {x : Entry} (h : x.IsBlank)

include h

/-- A blank entry is on no queue. -/
theorem IsBlank.residing : x.residing = none := by
  rw [h]

/-- A blank entry reads its tags on no queue. -/
theorem IsBlank.context : x.context = none := by
  rw [h]

/-- A blank entry belongs to no other one. -/
theorem IsBlank.owner : x.owner = none := by
  rw [h]

/-- A blank entry runs no loop. -/
theorem IsBlank.loop : x.loop = none := by
  rw [h]

/-- A blank entry is not forced to run at once. -/
theorem IsBlank.forcedInstant : x.forcedInstant = false := by
  rw [h]

/-- A blank entry has no results. -/
theorem IsBlank.objects : x.objects = [] := by
  rw [h]

/-- A blank entry is not finished. -/
theorem IsBlank.isFinished : x.isFinished = false := by
  rw [h]

end Entry

namespace Engine

/-- The blocks of the entry are those of its command. -/
def Furnishes (e : Engine) (x : Entry) : Prop :=
  x.blocks.map (Branch.map fun m => (e.entry m).code) = x.code.branches.getD []

/-- The entry stays aside: a script was made into it, or it stands in a block of some entry. -/
def IsBase (e : Engine) (n : EntryRef) : Prop :=
  (∃ i ns, (e.script i).base = some ns ∧ n ∈ ns) ∨ ∃ m, n ∈ (e.entry m).inner

/-- The entry is there and may be put on a queue. -/
def Live (e : Engine) (n : EntryRef) : Prop :=
  n < e.entries.size ∧ ¬ e.IsBase n

/-- The entries are there, and nothing was done with them: clones of them are like them. -/
def Clonable (e : Engine) (ms : List EntryRef) : Prop :=
  ∀ m ∈ ms, m < e.entries.size ∧ (e.entry m).IsBlank

/-- The blocks of an entry depend on the commands of the entries in them only. -/
theorem Furnishes.congr {e e' : Engine} {x : Entry} (h : e.Furnishes x)
    (hx : ∀ m ∈ x.inner, (e'.entry m).code = (e.entry m).code) : e'.Furnishes x := by
  refine Eq.trans (List.map_congr_left fun b hb => ?_) h
  exact congrArg (Branch.mk b.key b.args)
    (List.map_congr_left fun m hm => hx m (Entry.mem_inner hb hm))

/-- The commands of a block are those of its entries. -/
theorem Furnishes.branch {e : Engine} {x : Entry} (h : e.Furnishes x) {b : Branch EntryRef}
    (hb : b ∈ x.blocks) : ∃ branches, x.code.branches = some branches ∧
      b.map (fun m => (e.entry m).code) ∈ branches := by
  have mem : b.map (fun m => (e.entry m).code) ∈ x.code.branches.getD [] := by
    rw [← h]
    exact List.mem_map_of_mem hb
  cases hbs : x.code.branches with
  | none =>
    rw [hbs] at mem
    cases mem
  | some branches =>
    rw [hbs] at mem
    exact ⟨branches, rfl, mem⟩

/-- The commands of the first block are those of its entries. -/
theorem Furnishes.firstBlock {e : Engine} {x : Entry} (h : e.Furnishes x) :
    x.firstBlock.map (fun m => (e.entry m).code) = x.code.firstBlock := by
  unfold Compiled.firstBlock Entry.firstBlock
  rw [← h]
  cases x.blocks with
  | nil => rfl
  | cons b rest => rfl

/-- The first block of an entry may be cloned, as often as it takes: its entries are there as they were made,
the entry itself is not among them, and they have the commands of the block. -/
structure Repeatable (e : Engine) (m : EntryRef) : Prop where
  clonable : e.Clonable (e.entry m).firstBlock
  apart : m ∉ (e.entry m).firstBlock
  codes : (e.entry m).firstBlock.map (fun k => (e.entry k).code) = (e.entry m).code.firstBlock

/-- Whether a block may be cloned depends on the entries in it, and on its commands. -/
theorem Repeatable.kept {e e' : Engine} {m : EntryRef} (h : e.Repeatable m)
    (size : e.entries.size ≤ e'.entries.size) (code : (e'.entry m).code = (e.entry m).code)
    (blocks : (e'.entry m).blocks = (e.entry m).blocks)
    (same : ∀ k ∈ (e.entry m).firstBlock, e'.entry k = e.entry k) : e'.Repeatable m := by
  have block : (e'.entry m).firstBlock = (e.entry m).firstBlock := by
    unfold Entry.firstBlock
    rw [blocks]
  refine ⟨fun k hk => ?_, ?_, ?_⟩
  · rw [block] at hk
    rw [same k hk]
    exact ⟨Nat.lt_of_lt_of_le (h.clonable k hk).1 size, (h.clonable k hk).2⟩
  · rw [block]
    exact h.apart
  · rw [block, code, ← h.codes]
    exact List.map_congr_left fun k hk => congrArg Entry.code (same k hk)

/-- A loop has something to repeat just if its command has. -/
theorem Repeatable.isEmpty {e : Engine} {m : EntryRef} (h : e.Repeatable m) :
    (e.entry m).firstBlock.isEmpty = (e.entry m).code.firstBlock.isEmpty := by
  rw [← h.codes, List.isEmpty_map]

/-- An entry that stands in a block is an entry of a command in a block. -/
theorem Furnishes.inner {e : Engine} {x : Entry} (h : e.Furnishes x) {m : EntryRef}
    (hm : m ∈ x.inner) : x.code.Encloses (e.entry m).code := by
  obtain ⟨b, hb, hm⟩ := List.mem_flatMap.1 hm
  obtain ⟨branches, hbs, mem⟩ := h.branch hb
  exact ⟨branches, hbs, _, mem, List.mem_map_of_mem hm⟩

/-! ## Further entries -/

variable {e : Engine} {xs ys : List Entry} {codes : List Compiled} {ns : List EntryRef}

/-- What is found among further entries is an entry that was there, one of the further ones, or the
default one. -/
theorem entry_grown_cases (e : Engine) (xs : List Entry) (n : EntryRef) :
    (n < e.entries.size ∧ (e.grown xs).entry n = e.entry n) ∨
      (e.entries.size ≤ n ∧ ((e.grown xs).entry n ∈ xs ∨ (e.grown xs).entry n = default)) := by
  rcases Nat.lt_or_ge n e.entries.size with hn | hn
  · exact .inl ⟨hn, e.entry_grown_of_lt hn⟩
  · obtain ⟨i, rfl⟩ := Nat.exists_eq_add_of_le hn
    refine .inr ⟨hn, ?_⟩
    rcases Nat.lt_or_ge i xs.length with hi | hi
    · rw [e.entry_grown (List.getElem?_eq_getElem hi)]
      exact .inl (List.getElem_mem hi)
    · refine .inr (entry_of_size_le _ ?_)
      rw [size_grown]
      exact Nat.add_le_add_left hi _

/-- The entry is one of the further ones. -/
def Adds (e : Engine) (xs : List Entry) (m : EntryRef) : Prop :=
  e.entries.size ≤ m ∧ m < (e.grown xs).entries.size

/-- What stands at one of the further places is one of the further entries. -/
theorem Adds.mem {m : EntryRef} (h : e.Adds xs m) : (e.grown xs).entry m ∈ xs := by
  obtain ⟨i, rfl⟩ := Nat.exists_eq_add_of_le h.1
  have hi : i < xs.length := Nat.lt_of_add_lt_add_left (e.size_grown xs ▸ h.2)
  rw [e.entry_grown (List.getElem?_eq_getElem hi)]
  exact List.getElem_mem hi

/-- A further entry is one of more further entries. -/
theorem Adds.left {m : EntryRef} (h : e.Adds xs m) : e.Adds (xs ++ ys) m := by
  refine ⟨h.1, Nat.lt_of_lt_of_le h.2 ?_⟩
  rw [← grown_grown, size_grown _ ys]
  exact Nat.le_add_right _ _

/-- An entry that is further than further ones is one of all of these. -/
theorem Adds.right {m : EntryRef} (h : (e.grown xs).Adds ys m) : e.Adds (xs ++ ys) m := by
  refine ⟨Nat.le_trans ?_ h.1, grown_grown e xs ys ▸ h.2⟩
  rw [size_grown]
  exact Nat.le_add_right _ _

/-- A further entry is one of the first ones, or further than these. -/
theorem Adds.of_append {m : EntryRef} (h : e.Adds (xs ++ ys) m) :
    e.Adds xs m ∨ (e.grown xs).Adds ys m := by
  rcases Nat.lt_or_ge m (e.grown xs).entries.size with hm | hm
  · exact .inl ⟨h.1, hm⟩
  · exact .inr ⟨hm, (grown_grown e xs ys).symm ▸ h.2⟩

/-- Without further entries there is none. -/
theorem not_adds_nil {m : EntryRef} : ¬ e.Adds [] m := by
  rintro ⟨hle, hlt⟩
  rw [grown_nil] at hlt
  exact absurd hlt (Nat.not_lt.2 hle)

/-- Blocks that are made of further entries are not changed by entries after these. -/
theorem Furnishes.grown {x : Entry} (h : (e.grown xs).Furnishes x) (hx : ∀ m ∈ x.inner, e.Adds xs m)
    (ys : List Entry) : (e.grown (xs ++ ys)).Furnishes x := by
  rw [← grown_grown]
  exact h.congr fun m hm => congrArg Entry.code (entry_grown_of_lt _ (hx m hm).2)

/-- The further entries are found behind those that were there. -/
theorem entries_grown (e : Engine) (xs : List Entry) :
    (List.range' e.entries.size xs.length).map (e.grown xs).entry = xs := by
  refine List.ext_getElem (by simp) fun i _ hi => ?_
  rw [List.getElem_map, List.getElem_range', Nat.one_mul]
  exact e.entry_grown (List.getElem?_eq_getElem hi)

/-- The further entries stand in order after those that there were. -/
theorem adds_iff {m : EntryRef} : e.Adds xs m ↔ m ∈ List.range' e.entries.size xs.length := by
  unfold Adds
  rw [List.mem_range'_1, size_grown]

/-- A place after those that there were is one of a further entry. -/
theorem Adds.of_mem_range {m : EntryRef} (h : m ∈ List.range' e.entries.size xs.length) :
    e.Adds xs m :=
  adds_iff.2 h

/-- Further entries that nothing was done with, whose blocks are those of their commands and are made of
further entries too. -/
structure Stocks (e : Engine) (xs : List Entry) : Prop where
  blank : ∀ x ∈ xs, x.IsBlank
  furnished : ∀ x ∈ xs, (e.grown xs).Furnishes x
  inner : ∀ x ∈ xs, ∀ m ∈ x.inner, e.Adds xs m

/-- No further entries are well made. -/
theorem Stocks.nil : e.Stocks [] :=
  ⟨fun _ h => absurd h List.not_mem_nil, fun _ h => absurd h List.not_mem_nil,
    fun _ h => absurd h List.not_mem_nil⟩

/-- Further entries that are well made come together. -/
theorem Stocks.append (h : e.Stocks xs) (h' : (e.grown xs).Stocks ys) : e.Stocks (xs ++ ys) where
  blank x hx := (List.mem_append.1 hx).elim (h.blank x) (h'.blank x)
  furnished x hx := by
    rcases List.mem_append.1 hx with hx | hx
    · exact (h.furnished x hx).grown (h.inner x hx) ys
    · rw [← grown_grown]
      exact h'.furnished x hx
  inner x hx m hm := by
    rcases List.mem_append.1 hx with hx | hx
    · exact (h.inner x hx m hm).left
    · exact (h'.inner x hx m hm).right

/-- The entries `xs` of the blocks of commands, and the entries `ys` that the commands are made into. -/
structure Prepares (e : Engine) (codes : List Compiled) (xs ys : List Entry) : Prop where
  stocks : e.Stocks xs
  codes_eq : ys.map Entry.code = codes
  blank : ∀ y ∈ ys, y.IsBlank
  furnished : ∀ y ∈ ys, (e.grown xs).Furnishes y
  inner : ∀ y ∈ ys, ∀ m ∈ y.inner, e.Adds xs m
  stands : ∀ m, e.Adds xs m → ∃ y ∈ xs ++ ys, m ∈ y.inner
  held : ∀ x ∈ xs, ∃ c ∈ codes, c.Holds x.code

/-- The entries `xs` of the commands in blocks, and the blocks `bs` that are made of them. -/
structure Lays (e : Engine) (branches : List (Branch Compiled)) (xs : List Entry)
    (bs : List (Branch EntryRef)) : Prop where
  stocks : e.Stocks xs
  codes_eq : bs.map (Branch.map fun m => ((e.grown xs).entry m).code) = branches
  inner : ∀ b ∈ bs, ∀ m ∈ b.body, e.Adds xs m
  stands : ∀ m, e.Adds xs m → (∃ b ∈ bs, m ∈ b.body) ∨ ∃ x ∈ xs, m ∈ x.inner
  held : ∀ x ∈ xs, ∃ b ∈ branches, ∃ c ∈ b.body, x.code = c ∨ c.Holds x.code

namespace Prepares

/-- No commands are made into no entries. -/
theorem nil : e.Prepares [] [] [] :=
  ⟨.nil, rfl, fun _ h => absurd h List.not_mem_nil, fun _ h => absurd h List.not_mem_nil,
    fun _ h => absurd h List.not_mem_nil, fun _ h => absurd h not_adds_nil,
    fun _ h => absurd h List.not_mem_nil⟩

/-- Commands that are made into entries one after the other are made into all of these. -/
theorem append {codes' : List Compiled} {xs' ys' : List Entry} (h : e.Prepares codes xs ys)
    (h' : (e.grown xs).Prepares codes' xs' ys') :
    e.Prepares (codes ++ codes') (xs ++ xs') (ys ++ ys') where
  stocks := h.stocks.append h'.stocks
  codes_eq := by rw [List.map_append, h.codes_eq, h'.codes_eq]
  blank y hy := (List.mem_append.1 hy).elim (h.blank y) (h'.blank y)
  furnished y hy := by
    rcases List.mem_append.1 hy with hy | hy
    · exact (h.furnished y hy).grown (h.inner y hy) xs'
    · rw [← grown_grown]
      exact h'.furnished y hy
  inner y hy m hm := by
    rcases List.mem_append.1 hy with hy | hy
    · exact (h.inner y hy m hm).left
    · exact (h'.inner y hy m hm).right
  stands m hm := by
    rcases hm.of_append with hm | hm
    · obtain ⟨y, hy, mem⟩ := h.stands m hm
      exact ⟨y, List.mem_append.2 ((List.mem_append.1 hy).imp (List.mem_append_left _)
        (List.mem_append_left _)), mem⟩
    · obtain ⟨y, hy, mem⟩ := h'.stands m hm
      exact ⟨y, List.mem_append.2 ((List.mem_append.1 hy).imp (List.mem_append_right _)
        (List.mem_append_right _)), mem⟩
  held x hx := by
    rcases List.mem_append.1 hx with hx | hx
    · obtain ⟨c, hc, held⟩ := h.held x hx
      exact ⟨c, List.mem_append_left _ hc, held⟩
    · obtain ⟨c, hc, held⟩ := h'.held x hx
      exact ⟨c, List.mem_append_right _ hc, held⟩

/-- A command without blocks. -/
theorem plain {code : Compiled} (h : code.branches = none) : e.Prepares [code] [] [{ code }] where
  stocks := .nil
  codes_eq := rfl
  blank y hy := by rw [List.mem_singleton.1 hy]; rfl
  furnished y hy := by
    rw [List.mem_singleton.1 hy]
    show [] = code.branches.getD []
    rw [h]
    rfl
  inner y hy m hm := by
    rw [List.mem_singleton.1 hy] at hm
    exact absurd hm List.not_mem_nil
  stands _ hm := absurd hm not_adds_nil
  held _ hx := absurd hx List.not_mem_nil

/-- The entries of commands and of their blocks are well made. -/
theorem all (h : e.Prepares codes xs ys) : e.Stocks (xs ++ ys) where
  blank x hx := (List.mem_append.1 hx).elim (h.stocks.blank x) (h.blank x)
  furnished x hx := by
    rcases List.mem_append.1 hx with hx | hx
    · exact (h.stocks.furnished x hx).grown (h.stocks.inner x hx) ys
    · exact (h.furnished x hx).grown (h.inner x hx) ys
  inner x hx m hm :=
    ((List.mem_append.1 hx).elim (h.stocks.inner x · m hm) (h.inner x · m hm)).left

end Prepares

namespace Lays

variable {branches : List (Branch Compiled)} {bs : List (Branch EntryRef)}

/-- No blocks are made of no entries. -/
theorem nil : e.Lays [] [] [] :=
  ⟨.nil, rfl, fun _ h => absurd h List.not_mem_nil, fun _ h => absurd h not_adds_nil,
    fun _ h => absurd h List.not_mem_nil⟩

/-- A block is made of the entries of its commands, and these come before all others. -/
theorem cons {key : String} {args : List String} {body : List Compiled} {zs : List Entry}
    (h : e.Prepares body xs ys) (h' : (e.grown (xs ++ ys)).Lays branches zs bs) :
    e.Lays (⟨key, args, body⟩ :: branches) (xs ++ ys ++ zs)
      (⟨key, args, List.range' (e.grown xs).entries.size ys.length⟩ :: bs) where
  stocks := h.all.append h'.stocks
  codes_eq := by
    have body_eq : (List.range' (e.grown xs).entries.size ys.length).map
        (fun m => (((e.grown (xs ++ ys)).grown zs).entry m).code) = body := by
      have made := congrArg (List.map Entry.code) (entries_grown (e.grown xs) ys)
      rw [List.map_map, h.codes_eq, grown_grown] at made
      refine Eq.trans (List.map_congr_left fun m hm => ?_) made
      exact congrArg Entry.code (entry_grown_of_lt _ (Adds.of_mem_range hm).right.2)
    rw [← grown_grown, List.map_cons, h'.codes_eq]
    exact congrArg (· :: branches) (congrArg (Branch.mk key args) body_eq)
  inner b hb m hm := by
    rcases List.mem_cons.1 hb with rfl | hb
    · exact ((Adds.of_mem_range hm).right).left
    · exact (h'.inner b hb m hm).right
  stands m hm := by
    rcases hm.of_append with hm | hm
    · rcases hm.of_append with hm | hm
      · obtain ⟨y, hy, mem⟩ := h.stands m hm
        exact .inr ⟨y, List.mem_append_left _ hy, mem⟩
      · exact .inl ⟨_, List.mem_cons_self, adds_iff.1 hm⟩
    · rcases h'.stands m hm with ⟨b, hb, mem⟩ | ⟨x, hx, mem⟩
      · exact .inl ⟨b, List.mem_cons_of_mem _ hb, mem⟩
      · exact .inr ⟨x, List.mem_append_right _ hx, mem⟩
  held x hx := by
    rcases List.mem_append.1 hx with hx | hx
    · refine ⟨_, List.mem_cons_self, ?_⟩
      rcases List.mem_append.1 hx with hx | hx
      · obtain ⟨c, hc, held⟩ := h.held x hx
        exact ⟨c, hc, .inr held⟩
      · exact ⟨x.code, h.codes_eq ▸ List.mem_map_of_mem hx, .inl rfl⟩
    · obtain ⟨b, hb, held⟩ := h'.held x hx
      exact ⟨b, List.mem_cons_of_mem _ hb, held⟩

/-- The blocks of a command. -/
theorem prepares {code : Compiled} (h : e.Lays branches xs bs) (hc : code.branches = some branches) :
    e.Prepares [code] xs [{ code, blocks := bs }] where
  stocks := h.stocks
  codes_eq := rfl
  blank y hy := by rw [List.mem_singleton.1 hy]; rfl
  furnished y hy := by
    rw [List.mem_singleton.1 hy]
    show _ = code.branches.getD []
    rw [hc]
    exact h.codes_eq
  inner y hy m hm := by
    rw [List.mem_singleton.1 hy] at hm
    obtain ⟨b, hb, hm⟩ := List.mem_flatMap.1 hm
    exact h.inner b hb m hm
  stands m hm := by
    rcases h.stands m hm with ⟨b, hb, mem⟩ | ⟨x, hx, mem⟩
    · exact ⟨_, List.mem_append_right _ (List.mem_singleton_self _), Entry.mem_inner hb mem⟩
    · exact ⟨x, List.mem_append_left _ hx, mem⟩
  held x hx := by
    obtain ⟨b, hb, c, mem, held⟩ := h.held x hx
    refine ⟨code, List.mem_singleton_self _, ?_⟩
    rcases held with rfl | held
    · exact .here ⟨branches, hc, b, hb, mem⟩
    · exact .deeper ⟨branches, hc, b, hb, mem⟩ held

end Lays

/-- Blank entries are made one after the other. -/
theorem makeAll_eq (e : Engine) (ys : List Entry) (h : ∀ y ∈ ys, y.IsBlank) :
    Entries.makeAll (ys.map Entry.code) (ys.map Entry.blocks) e =
      (.ok (List.range' e.entries.size ys.length), e.grown ys) := by
  have go (done : List Entry) : Action.collect (fun x => Entries.make x.1 x.2)
      ((ys.map Entry.code).zip (ys.map Entry.blocks)) (e.grown done) =
        (.ok (List.range' (e.entries.size + done.length) ys.length), e.grown (done ++ ys)) := by
    induction ys generalizing done with
    | nil => simp [Action.collect, Action.done]
    | cons y rest ih =>
      have made : Entries.make y.code y.blocks (e.grown done) =
          (.ok (e.entries.size + done.length), e.grown (done ++ [y])) := by
        rw [← size_grown, ← grown_grown, grown_singleton]
        show (Except.ok _, (e.grown done).withEntry { code := y.code, blocks := y.blocks }) = _
        rw [← h y List.mem_cons_self]
      have next := ih (fun y hy => h y (List.mem_cons_of_mem _ hy)) (done ++ [y])
      rw [List.length_append, List.length_singleton, ← Nat.add_assoc] at next
      refine (Action.bind_ok made).trans ((Action.bind_ok next).trans ?_)
      rw [List.length_cons, List.range'_succ, List.append_assoc]
      rfl
  have all := go []
  rwa [grown_nil, List.length_nil, Nat.add_zero, List.nil_append] at all

end Engine

/-! ## The entries of commands -/

namespace Entries

open Engine

mutual

/-- The blocks of a command are made of further entries. -/
theorem furnish_eq (e : Engine) (code : Compiled) : ∃ xs y,
    furnish code e = (.ok y.blocks, e.grown xs) ∧ e.Prepares [code] xs [y] := by
  match code with
  | { branches := none, .. } => exact ⟨[], { code := _, blocks := [] }, by rw [grown_nil]; rfl, .plain rfl⟩
  | { branches := some branches, .. } =>
    obtain ⟨xs, bs, run, lays⟩ := furnishBranches_eq e branches
    exact ⟨xs, { code := _, blocks := bs }, run, lays.prepares rfl⟩

/-- Furnishing commands makes the entries of their blocks, and gives the blocks. -/
theorem furnishAll_eq (e : Engine) (codes : List Compiled) : ∃ xs ys,
    furnishAll codes e = (.ok (ys.map Entry.blocks), e.grown xs) ∧ e.Prepares codes xs ys := by
  match codes with
  | [] => exact ⟨[], [], by rw [grown_nil]; rfl, .nil⟩
  | code :: rest =>
    obtain ⟨xs, y, first, ready⟩ := furnish_eq e code
    obtain ⟨xs', ys, others, later⟩ := furnishAll_eq (e.grown xs) rest
    refine ⟨xs ++ xs', [y] ++ ys, ?_, ready.append later⟩
    rw [← grown_grown]
    exact (Action.bind_ok first).trans (Action.bind_ok others)

/-- Furnishing blocks makes the entries in them, and gives the blocks. -/
theorem furnishBranches_eq (e : Engine) (branches : List (Branch Compiled)) : ∃ xs bs,
    furnishBranches branches e = (.ok bs, e.grown xs) ∧ e.Lays branches xs bs := by
  match branches with
  | [] => exact ⟨[], [], by rw [grown_nil]; rfl, .nil⟩
  | ⟨key, args, body⟩ :: rest =>
    obtain ⟨xs, ys, first, ready⟩ := furnishAll_eq e body
    have made := makeAll_eq (e.grown xs) ys ready.blank
    rw [ready.codes_eq, grown_grown] at made
    obtain ⟨zs, bs, others, lays⟩ := furnishBranches_eq (e.grown (xs ++ ys)) rest
    refine ⟨_, _, ?_, .cons ready lays⟩
    rw [← grown_grown]
    exact (Action.bind_ok first).trans ((Action.bind_ok made).trans (Action.bind_ok others))

end

/-- The entries of commands come behind those of their blocks. -/
theorem createAll_eq (e : Engine) (codes : List Compiled) : ∃ xs ys,
    createAll codes e =
      (.ok (List.range' (e.grown xs).entries.size ys.length), e.grown (xs ++ ys)) ∧
    e.Prepares codes xs ys := by
  obtain ⟨xs, ys, run, ready⟩ := furnishAll_eq e codes
  have made := makeAll_eq (e.grown xs) ys ready.blank
  rw [ready.codes_eq, grown_grown] at made
  exact ⟨xs, ys, (Action.bind_ok run).trans made, ready⟩

/-- A command is made into an entry after those of its blocks. -/
theorem create_eq (e : Engine) (code : Compiled) : ∃ xs y,
    create code e = (.ok (e.grown xs).entries.size, e.grown (xs ++ [y])) ∧
    e.Prepares [code] xs [y] := by
  obtain ⟨xs, y, run, ready⟩ := furnish_eq e code
  refine ⟨xs, y, (Action.bind_ok run).trans ?_, ready⟩
  have made := ready.blank y (List.mem_singleton_self y)
  have code_eq : y.code = code := by simpa using ready.codes_eq
  rw [← grown_grown, grown_singleton, made, ← code_eq]
  rfl

/-- The entry of a command without blocks is a single one. -/
theorem create_eq_of_plain {code : Compiled} (h : code.branches.getD [] = []) (e : Engine) :
    create code e = (.ok e.entries.size, e.withEntry { code }) := by
  have plain : furnish code e = (.ok [], e) := by
    match code, h with
    | { branches := none, .. }, _ => rfl
    | { branches := some [], .. }, _ => rfl
    | { branches := some (_ :: _), .. }, h => cases h
  exact Action.bind_ok plain

/-- A clone of a blank entry is another one like it. -/
theorem clone_eq {e : Engine} {m : EntryRef} (h : (e.entry m).IsBlank) :
    clone m e = (.ok e.entries.size, e.withEntry (e.entry m)) := by
  let y := e.withEntry (e.entry m)
  have original : y.entry m = e.entry m := by
    rw [entry_withEntry]
    split <;> rfl
  have copy : y.entry e.entries.size = e.entry m := by
    rw [entry_withEntry, if_pos rfl]
  have made : make (e.entry m).code (e.entry m).blocks e = (.ok e.entries.size, y) := by
    show (Except.ok _, e.withEntry { code := (e.entry m).code, blocks := (e.entry m).blocks }) = _
    rw [← h]
  have paced : y.changeEntry e.entries.size
      ({ · with forcedInstant := (y.entry m).forcedInstant, owner := (y.entry m).owner }) = y := by
    refine y.changeEntry_self ?_
    rw [copy, original]
  have put : y.changeEntry e.entries.size ({ · with residing := (y.entry m).residing }) = y := by
    refine y.changeEntry_self ?_
    rw [copy, original]
  have refreshed : y.changeEntry e.entries.size
      ({ · with context := y.residingQueue e.entries.size }) = y := by
    refine y.changeEntry_self ?_
    unfold residingQueue
    rw [copy, h]
    rfl
  have taken : takeOver e.entries.size m y = (.ok (), y) := by
    have changed {f : Entry → Entry} (hf : y.changeEntry e.entries.size f = y) :
        Action.changeEntry e.entries.size f y = (.ok (), y) :=
      congrArg (Except.ok (), ·) hf
    have placed : place e.entries.size (y.entry m).residing y = (.ok (), y) :=
      (Action.bind_ok (changed put)).trans (changed refreshed)
    exact (Action.bind_ok (f := fun _ => place e.entries.size (y.entry m).residing)
      (changed paced)).trans placed
  exact (Action.bind_ok (f := fun copy => do takeOver copy m; pure copy) made).trans
    (Action.bind_ok taken)

/-- Clones are like the entries they are made of, and come after all others. -/
theorem cloneAll_eq {e : Engine} {ms : List EntryRef} (h : e.Clonable ms) :
    cloneAll ms e = (.ok (List.range' e.entries.size ms.length), e.grown (ms.map e.entry)) := by
  have go (done : List Entry) : cloneAll ms (e.grown done) =
      (.ok (List.range' (e.entries.size + done.length) ms.length),
        e.grown (done ++ ms.map e.entry)) := by
    induction ms generalizing done with
    | nil => simp [cloneAll, Action.collect, Action.done]
    | cons m rest ih =>
      obtain ⟨hm, blank⟩ := h m List.mem_cons_self
      have same : (e.grown done).entry m = e.entry m := e.entry_grown_of_lt hm
      have first := clone_eq (e := e.grown done) (same.symm ▸ blank)
      rw [same, size_grown, ← grown_singleton, grown_grown] at first
      have next := ih (fun m hm => h m (List.mem_cons_of_mem _ hm)) (done ++ [e.entry m])
      rw [List.length_append, List.length_singleton, ← Nat.add_assoc] at next
      refine (Action.bind_ok first).trans ((Action.bind_ok next).trans ?_)
      rw [List.length_cons, List.range'_succ, List.map_cons, List.append_assoc]
      rfl
  have all := go []
  rwa [grown_nil, List.length_nil, Nat.add_zero, List.nil_append] at all

end Entries

/-! ## Base entries among further ones -/

namespace Engine

variable {e e' : Engine} {xs ys : List Entry} {codes : List Compiled} {n : EntryRef}
  {ns : List EntryRef}

/-- Base entries are known by the scripts and by the blocks of entries. -/
theorem isBase_congr (hs : ∀ i, (e'.script i).base = (e.script i).base)
    (hb : ∀ m, (e'.entry m).inner = (e.entry m).inner) : e'.IsBase n ↔ e.IsBase n := by
  unfold IsBase
  simp only [hs, hb]

/-- Which entries stay aside is told from scripts and entries. -/
theorem isBase_of_tables (hs : e'.scripts = e.scripts) (hn : e'.entries = e.entries) :
    e'.IsBase n ↔ e.IsBase n :=
  isBase_congr (fun i => by unfold script; rw [hs]) fun m => by rw [entry_congr hn]

/-- Further entries come with further base entries, namely all but the ones listed. -/
structure Brings (e : Engine) (xs : List Entry) (ns : List EntryRef) : Prop where
  blank : ∀ x ∈ xs, x.IsBlank
  furnished : ∀ x ∈ xs, (e.grown xs).Furnishes x
  inner : ∀ x ∈ xs, ∀ m ∈ x.inner, e.IsBase m ∨ (e.Adds xs m ∧ m ∉ ns)
  adds : ∀ n ∈ ns, e.Adds xs n
  others : ∀ m, e.Adds xs m → m ∉ ns → (e.grown xs).IsBase m

/-- Of the entries that commands are made into, all but the last ones stay aside. -/
theorem Prepares.brings (h : e.Prepares codes xs ys) :
    e.Brings (xs ++ ys) (List.range' (e.grown xs).entries.size ys.length) where
  blank := h.all.blank
  furnished := h.all.furnished
  inner x hx m hm := by
    have among : e.Adds xs m :=
      (List.mem_append.1 hx).elim (h.stocks.inner x · m hm) (h.inner x · m hm)
    refine .inr ⟨among.left, fun hn => ?_⟩
    exact absurd among.2 (Nat.not_lt.2 (List.mem_range'_1.1 hn).1)
  adds n hn := (Adds.of_mem_range hn).right
  others m hm hn := by
    obtain ⟨y, hy, mem⟩ := h.stands m (hm.of_append.resolve_right fun hm => hn (adds_iff.1 hm))
    obtain ⟨i, hi, rfl⟩ := List.getElem_of_mem hy
    exact .inr ⟨e.entries.size + i, by rwa [e.entry_grown (List.getElem?_eq_getElem hi)]⟩

/-- What is handed down to the commands in blocks holds of the commands of all the entries made. -/
theorem Prepares.handed_down {P : Compiled → Prop} (hP : ∀ {c c'}, P c → c.Encloses c' → P c')
    (h : e.Prepares codes xs ys) (hc : ∀ c ∈ codes, P c) : ∀ x ∈ xs ++ ys, P x.code := by
  intro x hx
  rcases List.mem_append.1 hx with hx | hx
  · obtain ⟨c, hc', held⟩ := h.held x hx
    exact held.closed hP (hc c hc')
  · exact hc _ (h.codes_eq ▸ List.mem_map_of_mem hx)

namespace Brings

variable (h : e.Brings xs ns)

include h

/-- What is found among the further entries is an entry that was there or a blank one. -/
theorem entry_cases (n : EntryRef) :
    (n < e.entries.size ∧ (e.grown xs).entry n = e.entry n) ∨
      (e.entries.size ≤ n ∧ ((e.grown xs).entry n).IsBlank) := by
  refine (e.entry_grown_cases xs n).imp id fun hn => ⟨hn.1, ?_⟩
  rcases hn.2 with hx | hx
  · exact h.blank _ hx
  · rw [hx]
    exact Entry.isBlank_default

/-- An entry that stays aside did so before, or is a further one and not listed. -/
theorem isBase_cases (hn : (e.grown xs).IsBase n) : e.IsBase n ∨ (e.Adds xs n ∧ n ∉ ns) := by
  rcases hn with hn | ⟨m, hm⟩
  · exact .inl (.inl hn)
  · rcases e.entry_grown_cases xs m with ⟨-, hx⟩ | ⟨-, hx | hx⟩
    · exact .inl (.inr ⟨m, hx ▸ hm⟩)
    · exact h.inner _ hx n hm
    · rw [hx] at hm
      exact absurd hm List.not_mem_nil

end Brings

/-- Entries that stay aside do so when there are further entries. -/
theorem IsBase.grown (h : e.IsBase n) (xs : List Entry) : (e.grown xs).IsBase n := by
  refine h.imp id fun ⟨m, hm⟩ => ⟨m, ?_⟩
  rcases Nat.lt_or_ge m e.entries.size with hlt | hge
  · rwa [e.entry_grown_of_lt hlt]
  · rw [entry_of_size_le e hge] at hm
    exact absurd hm List.not_mem_nil

namespace Brings

variable (h : e.Brings xs ns)

include h

/-- Entries that were there do not become base entries. -/
theorem isBase_iff (hn : n < e.entries.size) : (e.grown xs).IsBase n ↔ e.IsBase n :=
  ⟨fun hb => (h.isBase_cases hb).resolve_right fun hadds => absurd hn (Nat.not_lt.2 hadds.1.1),
    fun hb => hb.grown xs⟩

/-- All other entries were live before. -/
theorem mem_of_live {m : EntryRef} (hm : e.entries.size ≤ m) (h' : (e.grown xs).Live m) : m ∈ ns :=
  Classical.byContradiction fun hn => h'.2 (h.others m ⟨hm, h'.1⟩ hn)

/-- The entries that are listed are live. -/
theorem live (hb : ∀ {n}, e.IsBase n → n < e.entries.size) (hn : n ∈ ns) : (e.grown xs).Live n := by
  refine ⟨(h.adds n hn).2, fun hbase => ?_⟩
  rcases h.isBase_cases hbase with hbase | hbase
  · exact absurd (hb hbase) (Nat.not_lt.2 (h.adds n hn).1)
  · exact hbase.2 hn

end Brings

/-! ## Engines with their base entries -/

/-- Base entries are there and blank, and the blocks of all entries are those of their commands. -/
structure Based (e : Engine) : Prop where
  lt {n : EntryRef} : e.IsBase n → n < e.entries.size
  blank {n : EntryRef} : e.IsBase n → (e.entry n).IsBlank
  furnished (n : EntryRef) : e.Furnishes (e.entry n)

namespace Based

variable (h : e.Based)

include h

/-- The entries in a block are there. -/
theorem lt_of_inner {m : EntryRef} (hm : m ∈ (e.entry n).inner) : m < e.entries.size :=
  h.lt (.inr ⟨n, hm⟩)

/-- An entry that resides in a queue is no base entry. -/
theorem live_of_residing {m : EntryRef} {q : QueueRef} (hm : m < e.entries.size)
    (hr : (e.entry m).residing = some q) : e.Live m := by
  refine ⟨hm, fun hb => ?_⟩
  rw [(h.blank hb).residing] at hr
  cases hr

/-- The block of an entry that may be put on a queue can be cloned. -/
theorem repeatable {m : EntryRef} (hm : e.Live m) : e.Repeatable m := by
  have base {k : EntryRef} (hk : k ∈ (e.entry m).firstBlock) : e.IsBase k :=
    .inr ⟨m, Entry.mem_inner_of_firstBlock hk⟩
  exact ⟨fun k hk => ⟨h.lt (base hk), h.blank (base hk)⟩, fun hk => hm.2 (base hk),
    (h.furnished m).firstBlock⟩

/-- Base entries and blocks depend on the scripts, and on the commands and the blocks of entries. -/
theorem congr (hs : ∀ i, (e'.script i).base = (e.script i).base)
    (size : e.entries.size ≤ e'.entries.size) (hc : ∀ m, (e'.entry m).code = (e.entry m).code)
    (hb : ∀ m, (e'.entry m).blocks = (e.entry m).blocks)
    (blank : ∀ m, e.IsBase m → e'.entry m = e.entry m) : e'.Based where
  lt hn := Nat.lt_of_lt_of_le
    (h.lt ((isBase_congr hs fun m => congrArg (List.flatMap _) (hb m)).1 hn)) size
  blank hn := by
    have hn := (isBase_congr hs fun m => congrArg (List.flatMap _) (hb m)).1 hn
    rw [blank _ hn]
    exact h.blank hn
  furnished n := by
    have f := h.furnished n
    unfold Furnishes at f ⊢
    simpa only [hb, hc] using f

/-- Whether base entries are blank is told from scripts and entries. -/
theorem of_tables (hs : e'.scripts = e.scripts) (he : e'.entries = e.entries) : e'.Based := by
  have same (m : EntryRef) : e'.entry m = e.entry m := entry_congr he m
  refine h.congr (fun i => ?_) (Nat.le_of_eq (by rw [he])) (fun m => congrArg _ (same m))
    (fun m => congrArg _ (same m)) fun m _ => same m
  unfold script
  rw [hs]

/-- Base entries are blank still when there are further entries. -/
theorem grown (hx : e.Brings xs ns) : (e.grown xs).Based where
  lt hn := by
    rcases hx.isBase_cases hn with hn | hn
    · rw [size_grown]
      exact Nat.lt_of_lt_of_le (h.lt hn) (Nat.le_add_right _ _)
    · exact hn.1.2
  blank {n} hn := by
    rcases hx.entry_cases n with ⟨hlt, same⟩ | ⟨-, blank⟩
    · rw [same]
      exact h.blank ((hx.isBase_iff hlt).1 hn)
    · exact blank
  furnished n := by
    rcases e.entry_grown_cases xs n with ⟨-, same⟩ | ⟨-, mem | same⟩
    · rw [same]
      refine (h.furnished n).congr fun m hm => ?_
      rw [e.entry_grown_of_lt (h.lt_of_inner hm)]
    · exact hx.furnished _ mem
    · rw [same]
      rfl

/-- Clones of base entries are live. -/
theorem clones {ms : List EntryRef} (hm : ∀ m ∈ ms, e.IsBase m) :
    e.Brings (ms.map e.entry) (List.range' e.entries.size ms.length) where
  blank x hx := by
    obtain ⟨m, mem, rfl⟩ := List.mem_map.1 hx
    exact h.blank (hm m mem)
  furnished x hx := by
    obtain ⟨m, -, rfl⟩ := List.mem_map.1 hx
    refine (h.furnished m).congr fun k hk => ?_
    rw [e.entry_grown_of_lt (h.lt_of_inner hk)]
  inner x hx k hk := by
    obtain ⟨m, -, rfl⟩ := List.mem_map.1 hx
    exact .inl (.inr ⟨m, hk⟩)
  adds n hn := Adds.of_mem_range (by rwa [List.length_map])
  others m hm' hn := absurd (adds_iff.1 hm') (by rwa [List.length_map])

/-- Clones are brought in without any entries for their blocks. -/
theorem brings_clones {ms : List EntryRef} (hm : ∀ m ∈ ms, e.IsBase m) :
    e.Brings ([] ++ ms.map e.entry)
      (List.range' (e.grown []).entries.size (ms.map e.entry).length) := by
  rw [grown_nil, List.length_map]
  exact h.clones hm

/-- Base entries may be cloned. -/
theorem clonable {ms : List EntryRef} (hm : ∀ m ∈ ms, e.IsBase m) : e.Clonable ms :=
  fun m h' => ⟨h.lt (hm m h'), h.blank (hm m h')⟩

/-- Base entries are cloned. -/
theorem cloneAll {ms : List EntryRef} (hm : ∀ m ∈ ms, e.IsBase m) : Entries.cloneAll ms e =
    (.ok (List.range' e.entries.size ms.length), e.grown (ms.map e.entry)) :=
  Entries.cloneAll_eq (h.clonable hm)

end Based

/-! ## The entries of a script -/

/-- The engine with the entries of a script. -/
def keepBase (e : Engine) (i : Nat) (ns : List EntryRef) : Engine :=
  { e with scripts := e.scripts.modify i ({ · with base := some ns }) }

/-- Only the script itself gets the entries that are kept for it. -/
theorem base_keepBase (e : Engine) (i j : Nat) (ns : List EntryRef) :
    ((e.keepBase i ns).script j).base =
      if i = j ∧ j < e.scripts.size then some ns else (e.script j).base := by
  simp only [keepBase, script, Array.getD_eq_getD_getElem?, Array.getElem?_modify]
  by_cases hj : j < e.scripts.size
  · by_cases hij : i = j <;> simp [hj, hij]
  · simp [hj]

/-- Nothing else about a script changes. -/
theorem script_keepBase (e : Engine) (i j : Nat) (ns : List EntryRef) :
    ∃ base, (e.keepBase i ns).script j = { e.script j with base } := by
  simp only [keepBase, script, Array.getD_eq_getD_getElem?, Array.getElem?_modify]
  split
  · cases e.scripts[j]? with
    | none => exact ⟨none, rfl⟩
    | some record => exact ⟨some ns, rfl⟩
  · exact ⟨_, rfl⟩

/-- A script that was just registered has no entries yet. -/
theorem base_push (e : Engine) {record : ScriptRecord} (h : record.base = none) (j : Nat) :
    ((e.scripts.push record).getD j default).base = (e.script j).base := by
  simp only [script, Array.getD_eq_getD_getElem?, Array.getElem?_push]
  split
  · rename_i hj
    rw [hj, Array.getElem?_eq_none (Nat.le_refl _)]
    exact h
  · rfl

/-- An entry that stays aside when a script keeps its own did so before, or is one of these. -/
theorem isBase_keepBase_cases {i : Nat} (h : (e.keepBase i ns).IsBase n) : e.IsBase n ∨ n ∈ ns := by
  rcases h with ⟨j, ms, hj, hn⟩ | hm
  · rw [base_keepBase] at hj
    split at hj
    · cases hj
      exact .inr hn
    · exact .inl (.inl ⟨j, ms, hj, hn⟩)
  · exact .inl (.inr hm)

/-- Entries that stay aside do so when a script that had none keeps its own. -/
theorem IsBase.keepBase {i : Nat} (h : e.IsBase n) (hi : (e.script i).base = none) :
    (e.keepBase i ns).IsBase n := by
  refine h.imp (fun ⟨j, ms, hj, hn⟩ => ⟨j, ms, ?_, hn⟩) id
  rw [base_keepBase, if_neg fun hij => ?_]
  · exact hj
  · rw [← hij.1, hi] at hj
    cases hj

/-- The entries of a script are base entries. -/
theorem isBase_kept {i : Nat} (hi : i < e.scripts.size) (hn : n ∈ ns) : (e.keepBase i ns).IsBase n :=
  .inl ⟨i, ns, by rw [base_keepBase, if_pos ⟨rfl, hi⟩], hn⟩

/-- The entries that a script is made into become base entries at once. -/
theorem Based.keep {i : Nat} (h : e.Based) (hx : e.Brings xs ns) :
    ((e.grown xs).keepBase i ns).Based where
  lt hn := (isBase_keepBase_cases hn).elim (h.grown hx).lt fun hn => (hx.adds _ hn).2
  blank {n} hn := by
    rcases isBase_keepBase_cases hn with hn | hn
    · exact (h.grown hx).blank hn
    · refine (hx.entry_cases n).elim (fun hlt => ?_) And.right
      exact absurd hlt.1 (Nat.not_lt.2 (hx.adds n hn).1)
  furnished n := (h.grown hx).furnished n

end Engine

end QueueScript
