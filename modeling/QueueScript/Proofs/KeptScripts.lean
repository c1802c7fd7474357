import QueueScript.Proofs.Isolation

/-!
# Runs leave scripts alone

A script is made into entries once, when it is first needed, and every run starts from those that were
made then.  They and the entries in their blocks, at every depth of nesting, are base entries: whatever
runs and hosts do, they stay as they were made, and their commands stay what the source is compiled to
(`Engine.KeepsScripts`, `Engine.KeepsBases`).

The entries of a run, and those of the blocks that it gets to, are clones of base entries (`Engine.Lends`).
They come after all entries that there were, and at first they have nothing of their own but the place
that they were put in.
-/

namespace QueueScript

namespace Engine

/-- The script was made into entries of the commands that its source is compiled to. -/
def MadeOf (e : Engine) (n : Nat) (ns : List EntryRef) : Prop :=
  (∀ m ∈ ns, m < e.entries.size) ∧ ns.map (fun m => (e.entry m).code) = e.compiled n

/-- The second engine has the scripts of the first one.  Entries that were made of a script are kept, and
they are made of what its source is compiled to. -/
structure KeepsScripts (e e' : Engine) : Prop where
  catalogue : e'.catalogue = e.catalogue
  size : e.scripts.size ≤ e'.scripts.size
  script {n : Nat} : n < e.scripts.size → ∃ base, e'.script n = { e.script n with base }
  kept {n : Nat} {ns : List EntryRef} : (e.script n).base = some ns → (e'.script n).base = some ns
  made {n : Nat} {ns : List EntryRef} : (e'.script n).base = some ns → e'.MadeOf n ns

theorem script_congr {e e' : Engine} (h : e'.scripts = e.scripts) (n : Nat) :
    e'.script n = e.script n := by
  unfold script
  rw [h]

theorem compiled_congr {e e' : Engine} (hc : e'.catalogue = e.catalogue) {n : Nat}
    (hn : (e'.script n).name = (e.script n).name) (hs : (e'.script n).source = (e.script n).source) :
    e'.compiled n = e.compiled n := by
  unfold compiled
  rw [hc, hn, hs]

/-- The entries of a script keep their commands. -/
theorem MadeOf.retained {e e' : Engine} {n : Nat} {ns : List EntryRef} (h : e.MadeOf n ns)
    (hr : e.Retains e'.entries) (hc : e'.compiled n = e.compiled n) : e'.MadeOf n ns := by
  refine ⟨fun m hm => Nat.lt_of_lt_of_le (h.1 m hm) hr.size, ?_⟩
  rw [hc, ← h.2]
  exact List.map_congr_left fun m hm => hr.code (h.1 m hm)

/-- A script is made into entries. -/
theorem Prepares.madeOf {e : Engine} {n : Nat} {xs ys : List Entry}
    (h : e.Prepares (e.compiled n) xs ys) :
    (e.grown (xs ++ ys)).MadeOf n (List.range' (e.grown xs).entries.size ys.length) := by
  refine ⟨fun m hm => ?_, ?_⟩
  · rw [← grown_grown]
    exact (Adds.of_mem_range hm).2
  · have codes := congrArg (List.map Entry.code) ((e.grown xs).entries_grown ys)
    rw [grown_grown, List.map_map] at codes
    exact codes.trans h.codes_eq

namespace KeepsScripts

variable {e e' x : Engine}

/-- An engine whose scripts were made into entries from their sources keeps its own. -/
theorem refl (h : ∀ {n ns}, (e.script n).base = some ns → e.MadeOf n ns) : e.KeepsScripts e :=
  ⟨rfl, Nat.le_refl _, fun _ => ⟨_, rfl⟩, id, h⟩

/-- Nothing happens to scripts and to the commands of entries. -/
theorem same (h : e.KeepsScripts x) (hs : e'.scripts = x.scripts) (hc : e'.catalogue = x.catalogue)
    (hr : x.Retains e'.entries) : e.KeepsScripts e' where
  catalogue := hc.trans h.catalogue
  size := by
    rw [hs]
    exact h.size
  script hn := by
    rw [script_congr hs]
    exact h.script hn
  kept hb := by
    rw [script_congr hs]
    exact h.kept hb
  made hb := by
    rw [script_congr hs] at hb
    refine (h.made hb).retained hr ?_
    exact compiled_congr hc (by rw [script_congr hs]) (by rw [script_congr hs])

/-- A script that was not made into entries yet is. -/
theorem keep (h : e.KeepsScripts x) {i : Nat} {ns : List EntryRef} (hi : (x.script i).base = none)
    (made : x.MadeOf i ns) : e.KeepsScripts (x.keepBase i ns) := by
  have catalogue : (x.keepBase i ns).catalogue = x.catalogue := rfl
  have compiled (k : Nat) : (x.keepBase i ns).compiled k = x.compiled k := by
    obtain ⟨base, record⟩ := x.script_keepBase i k ns
    exact compiled_congr catalogue (by rw [record]) (by rw [record])
  refine ⟨catalogue.trans h.catalogue, ?_, fun {k} hk => ?_, fun {k ms} hb => ?_, fun {k ms} hb => ?_⟩
  · exact Nat.le_trans h.size (Nat.le_of_eq (Array.size_modify).symm)
  · obtain ⟨base, record⟩ := h.script hk
    obtain ⟨base', record'⟩ := x.script_keepBase i k ns
    exact ⟨base', by rw [record', record]⟩
  · have now := h.kept hb
    rw [base_keepBase, if_neg, now]
    rintro ⟨rfl, -⟩
    rw [hi] at now
    cases now
  · have retained {ms : List EntryRef} (hm : x.MadeOf k ms) : (x.keepBase i ns).MadeOf k ms :=
      hm.retained (.refl x) (compiled k)
    rw [base_keepBase] at hb
    split at hb
    · rename_i here
      obtain ⟨rfl, -⟩ := here
      cases hb
      exact retained made
    · exact retained (h.made hb)

/-- A script is registered, which is still to be compiled. -/
theorem register (h : e.KeepsScripts x) {record : ScriptRecord} (hr : record.base = none)
    (hs : e'.scripts = x.scripts.push record) (hc : e'.catalogue = x.catalogue)
    (hn : x.Retains e'.entries) : e.KeepsScripts e' := by
  have old {k : Nat} (hk : k < x.scripts.size) : e'.script k = x.script k := by
    simp [Engine.script, hs, Array.getD_eq_getD_getElem?, Array.getElem?_push, Nat.ne_of_lt hk]
  -- Only scripts that were there before were made into entries.
  have known {k : Nat} {ns : List EntryRef} (hb : (e'.script k).base = some ns) :
      k < x.scripts.size := by
    refine Nat.lt_of_not_le fun hle => ?_
    simp only [Engine.script, hs, Array.getD_eq_getD_getElem?, Array.getElem?_push] at hb
    split at hb
    · rw [Option.getD_some, hr] at hb
      cases hb
    · rw [Array.getElem?_eq_none hle] at hb
      cases hb
  have kept {k : Nat} {ns : List EntryRef} (hb : (x.script k).base = some ns) :
      k < x.scripts.size := by
    refine Nat.lt_of_not_le fun hle => ?_
    simp only [Engine.script, Array.getD_eq_getD_getElem?, Array.getElem?_eq_none hle] at hb
    cases hb
  refine ⟨hc.trans h.catalogue, ?_, fun hk => ?_, fun hb => ?_, fun hb => ?_⟩
  · rw [hs, Array.size_push]
    exact Nat.le_succ_of_le h.size
  · rw [old (Nat.lt_of_lt_of_le hk h.size)]
    exact h.script hk
  · have now := h.kept hb
    rw [old (kept now)]
    exact now
  · have there := old (known hb)
    rw [there] at hb
    exact (h.made hb).retained hn (compiled_congr hc (by rw [there]) (by rw [there]))

/-! ## Every step of every run -/

theorem determine (h : e.KeepsScripts x) (q : QueueRef) (v : Value) :
    e.KeepsScripts (Queues.determine q v x).2 := by
  rcases Queues.determine_cases q v x with ⟨i, -, done⟩ | ⟨-, done⟩ <;>
    exact done ▸ h.same rfl rfl (.refl x)

theorem tell (h : e.KeepsScripts x) (q : QueueRef) (l : Listener) :
    e.KeepsScripts (Queues.tell q l x).2 := by
  rcases l with n | ⟨label, _ | message⟩
  · exact h.same rfl rfl (.changeEntry x n fun _ => rfl)
  · exact h.same rfl rfl (.refl x)
  · exact h.same rfl rfl (.refl x)

theorem onComplete (h : e.KeepsScripts x) (q : QueueRef) (l : Listener) :
    e.KeepsScripts (Queues.onComplete q l x).2 := by
  show e.KeepsScripts ((if (x.queue q).state.isEnd then _ else _ : Action Unit) x).2
  split
  · exact h.tell q l
  · exact h.same rfl rfl (.refl x)

theorem enduring (e : Engine) : Discipline.Enduring e.KeepsScripts where
  tables _ _ _ h hr := h.same rfl rfl hr
  queue {x _ _} _ _ h := h.same rfl rfl (.refl x)
  memory {x _} _ _ h := h.same rfl rfl (.refl x)
  base {x i xs ys} hnone ready h := by
    have grown : e.KeepsScripts (x.grown (xs ++ ys)) := h.same rfl rfl (.grown x _)
    exact grown.keep hnone ready.madeOf
  determine v _ h := h.determine _ v
  tell _ _ _ h := h.tell _ _
  aside {x _} h _ hn _ _ hs hc := h.same hs hc (hn ▸ .refl x)
  make {x _} h _ _ := h.same rfl rfl (.refl x)
  listen q _ h := h.onComplete q _
  replace h _ hr := h.same hr.books.scripts hr.books.catalogue
    ⟨Nat.le_of_eq hr.moved.size.symm, fun {n} _ => hr.moved.code n⟩
  register {x _} h hr := h.register hr rfl rfl (.refl x)
  hear q _ _ h := h.onComplete q _

end KeepsScripts

/-- Base entries of the first engine are base entries of the second one, and they are the same.  Every base
entry of the second one is as it was made and on no queue, and every entry has the blocks of its command. -/
structure KeepsBases (e e' : Engine) : Prop where
  base {m : EntryRef} : e.IsBase m → e'.IsBase m
  same {m : EntryRef} : e.IsBase m → e'.entry m = e.entry m
  code {m : EntryRef} : m < e.entries.size → (e'.entry m).code = (e.entry m).code
  blocks {m : EntryRef} : m < e.entries.size → (e'.entry m).blocks = (e.entry m).blocks
  based : e'.Based
  live {q : QueueRef} {m : EntryRef} : m ∈ (e'.queue q).pending → e'.Live m

/-- Further entries are clones of the entries `ms`, changed by `f`.  None of them is a base entry, and
nothing happens to scripts and to the entries that there were. -/
structure Lends (e : Engine) (ms : List EntryRef) (f : Entry → Entry) (e' : Engine) : Prop where
  fresh {i : Nat} {m : EntryRef} : ms[i]? = some m →
    e'.entry (e.entries.size + i) = f (e.entry m) ∧ e'.Live (e.entries.size + i)
  entry {m : EntryRef} : m < e.entries.size → e'.entry m = e.entry m
  scripts : e'.scripts = e.scripts

theorem Lends.congr {e e' : Engine} {ms : List EntryRef} {f g : Entry → Entry} (h : e.Lends ms f e')
    (hg : ∀ m ∈ ms, f (e.entry m) = g (e.entry m)) : e.Lends ms g e' where
  fresh hi := (h.fresh hi).imp_left (·.trans (hg _ (List.mem_of_getElem? hi)))
  entry := h.entry
  scripts := h.scripts

/-- Further entries that have the blocks of base entries are live. -/
theorem Based.live_grown {e : Engine} (h : e.Based) {xs : List Entry}
    (hx : ∀ x ∈ xs, ∀ m ∈ x.inner, e.IsBase m) {i : Nat} (hi : i < xs.length) :
    (e.grown xs).Live (e.entries.size + i) := by
  have behind {m : EntryRef} (hm : e.IsBase m) : m ≠ e.entries.size + i :=
    Nat.ne_of_lt (Nat.lt_of_lt_of_le (h.lt hm) (Nat.le_add_right _ _))
  refine ⟨by simpa using hi, fun hb => ?_⟩
  rcases hb with hb | ⟨m, hm⟩
  · exact behind (.inl hb) rfl
  · rcases e.entry_grown_cases xs m with ⟨-, same⟩ | ⟨-, mem | same⟩
    · exact behind (.inr ⟨m, same ▸ hm⟩) rfl
    · exact behind (hx _ mem _ hm) rfl
    · rw [same] at hm
      cases hm

/-- Entries are made that have the commands and the blocks of others. -/
theorem Based.lends {e : Engine} (h : e.Based) (ms : List EntryRef) {f : Entry → Entry}
    (hf : ∀ x, (f x).blocks = x.blocks) :
    e.Lends ms f (e.grown (ms.map fun m => f (e.entry m))) := by
  have inner : ∀ x ∈ ms.map (fun m => f (e.entry m)), ∀ k ∈ x.inner, e.IsBase k := by
    intro x hx k hk
    obtain ⟨m, -, rfl⟩ := List.mem_map.1 hx
    refine .inr ⟨m, ?_⟩
    unfold Entry.inner at hk ⊢
    rwa [hf] at hk
  refine ⟨fun {i m} hi => ⟨e.entry_grown ?_, h.live_grown inner ?_⟩, e.entry_grown_of_lt, rfl⟩
  · rw [List.getElem?_map, hi]
    rfl
  · rw [List.length_map]
    exact (List.getElem?_eq_some_iff.1 hi).1

end Engine

/-! ## Runs -/

/-- The entries of a script are there, or they are made and kept. -/
theorem Scripts.baseEntries_kept {e : Engine} (h : e.Based) {n : Nat} (hn : n < e.scripts.size) :
    ∃ (ns : List EntryRef) (x : Engine), baseEntries n e = (.ok ns, x) ∧ (x.script n).base = some ns ∧
      x.Based ∧ x.queues = e.queues ∧ ∀ ms, (e.script n).base = some ms → ns = ms ∧ x.entries = e.entries := by
  obtain ⟨ns, hb, found⟩ | ⟨events, xs, ys, ns, hb, rfl, -, ready, made, -⟩ := baseEntries_eq n e
  · exact ⟨ns, e, found, hb, h, rfl, fun ms hms => ⟨Option.some.inj (hb.symm.trans hms), rfl⟩⟩
  · have shown : Engine.Based { e with events } := h.of_tables rfl rfl
    refine ⟨_, _, made, ?_, shown.keep ready.brings, rfl, fun ms hms => ?_⟩
    · rw [Engine.base_keepBase]
      exact if_pos ⟨rfl, hn⟩
    · rw [hb] at hms
      cases hms

/-- A run gets clones of the entries of its script, at the end of its queue.  The first run has the script
made into entries. -/
theorem Scripts.load_lends {e : Engine} (h : e.Based) {n : Nat} (hn : n < e.scripts.size) {q : QueueRef}
    (hq : q < e.queues.size) (args : List Value) (definitions : List (String × Value)) :
    ∃ (ns : List EntryRef) (x y : Engine), load q n args definitions e = (.ok (), y) ∧
      (x.script n).base = some ns ∧ (∀ ms, (e.script n).base = some ms → ns = ms ∧ x.entries = e.entries) ∧
      (y.queue q).pending = (e.queue q).pending ++ List.range' x.entries.size ns.length ∧
      x.Lends ns (fun m => { code := m.code, blocks := m.blocks, residing := some q,
                             context := some (e.follow q) }) y := by
  obtain ⟨memories₁, parameters⟩ := Queues.defineAll_eq q ((e.script n).parameters.zip args) e
  obtain ⟨memories, defined⟩ := Queues.defineAll_eq q definitions { e with memories := memories₁ }
  have noted : Engine.Based { e with memories } := h.of_tables rfl rfl
  obtain ⟨ns, x, found, base, based, queues, kept⟩ := baseEntries_kept noted hn
  have isBase : ∀ m ∈ ns, x.IsBase m := fun m hm => .inl ⟨n, ns, base, hm⟩
  have put := x.append_grown q (ns.map x.entry)
  rw [List.length_map, List.map_map] at put
  have lent : x.Lends ns (x.placed q) (x.grown (ns.map fun m => x.placed q (x.entry m))) :=
    based.lends ns fun _ => rfl
  have queue := x.queue_put q (ns.map fun m => x.placed q (x.entry m))
    (· ++ List.range' x.entries.size ns.length) (queues ▸ hq)
  refine ⟨ns, x, x.put q (ns.map fun m => x.placed q (x.entry m)) (· ++ List.range' x.entries.size ns.length),
    (Action.bind_ok (a := Action.look _) (x := e.script n) rfl).trans ?_, base, kept, ?_, ?_⟩
  · refine (Action.bind_ok parameters).trans ((Action.bind_ok defined).trans ?_)
    exact (Action.bind_ok found).trans ((Action.bind_ok (based.cloneAll isBase)).trans put)
  · refine (congrArg Queue.pending queue).trans ?_
    rw [Engine.queue_congr queues]
    rfl
  · refine Engine.Lends.congr { lent with } fun m hm => ?_
    have follow : x.follow q = e.follow q := Engine.follow_congr (show x.queues = e.queues from queues) q
    rw [← follow]
    exact congrArg (x.placed q) (based.blank (isBase m hm))

/-- A block that is run gets clones of its entries, owned by the entry that runs it. -/
theorem Entries.spawn_lends {e : Engine} (h : e.Based) (owner : EntryRef) {ms : List EntryRef}
    (hm : ∀ m ∈ ms, e.IsBase m) :
    ∃ y, spawn owner ms e = (.ok (List.range' e.entries.size ms.length), y) ∧
      e.Lends ms (fun x => { code := x.code, blocks := x.blocks, owner := some owner,
                             residing := e.residingQueue owner,
                             context := (e.residingQueue owner).map e.follow }) y :=
  ⟨_, e.spawn_eq owner (h.clonable hm), (h.lends ms (f := e.child owner) fun _ => rfl).congr fun m hk =>
    congrArg (e.child owner) (h.blank (hm m hk))⟩

/-- Scripts are made into entries from their sources, and only once, whatever operations there are. -/
theorem Reachable.keepsScripts {config : Config} {e e' : Engine}
    (he : Reachable (Host.create config []) e) (h : Reachable e e') : e.KeepsScripts e' := by
  have first : (Host.create config []).KeepsScripts (Host.create config []) := by
    refine .refl fun {n ns} hb => ?_
    unfold Engine.script at hb
    rw [(Host.create_isNew config []).scripts] at hb
    cases hb
  have kept := (Engine.KeepsScripts.enduring _).inv_reachable
    ⟨(Host.create_orderly config).healthy, first⟩ he
  exact ((Engine.KeepsScripts.enduring e).inv_reachable ⟨kept.1, .refl kept.2.made⟩ h).2

/-- Base entries stay as they were made, whatever operations there are. -/
theorem Reachable.keepsBases {config : Config} {e e' : Engine}
    (he : Reachable (Host.create config []) e) (h : Reachable e e') : e.KeepsBases e' := by
  have orderly := he.orderly
  obtain ⟨after, step, -⟩ :=
    Discipline.Upheld.step_runs Upkeep.nothing ⟨orderly.1, trivial⟩ orderly.2 h.runs
  have healthy := after.1.healthy
  exact ⟨step.1.kept, fun hm => Discipline.Healthy.entry_of_isBase orderly.1.healthy ⟨healthy, step⟩ hm,
    step.2.code, step.2.blocks, healthy.tidy.based, fun {q m} hm => healthy.tidy.pending q m hm⟩

/-- Runs leave scripts alone.  Between any two engines of a run, a script changes at most by being made
into entries; what it was made into once has the commands that its source is compiled to, and stays.
These entries and those in the blocks of any entry, at every depth of nesting, stay as they were made:
they are not finished, have no objects and no state of a loop, are on no queue, belong to none, and are
not forced to run at once.  Whenever a run is loaded, by a host, by a command or as a procedure, its queue
gets clones of the entries of the script, which are those of the runs before it or are made for it if it is
the first one.  So does the queue of whatever entry runs a block, with that entry as their owner.
Nothing but the place and the owner is added to a clone, which is no base entry. -/
theorem runs_leave_scripts_alone {config : Config} {e e' : Engine}
    (he : Reachable (Host.create config []) e) (h : Reachable e e') :
    e.KeepsScripts e' ∧ e.KeepsBases e' ∧
      (∀ x : Engine, x.Based → ∀ n < x.scripts.size, ∀ q < x.queues.size, ∀ args definitions,
        ∃ (ns : List EntryRef) (z y : Engine), Scripts.load q n args definitions x = (.ok (), y) ∧
          (z.script n).base = some ns ∧ (∀ ms, (x.script n).base = some ms → ns = ms ∧ z.entries = x.entries) ∧
          (y.queue q).pending = (x.queue q).pending ++ List.range' z.entries.size ns.length ∧
          z.Lends ns (fun m => { code := m.code, blocks := m.blocks, residing := some q,
                                 context := some (x.follow q) }) y) ∧
      ∀ x : Engine, x.Based → ∀ m ms, (∀ k ∈ ms, x.IsBase k) →
        ∃ y, Entries.spawn m ms x = (.ok (List.range' x.entries.size ms.length), y) ∧
          x.Lends ms (fun k => { code := k.code, blocks := k.blocks, owner := some m,
                                 residing := x.residingQueue m,
                                 context := (x.residingQueue m).map x.follow }) y :=
  ⟨he.keepsScripts h, he.keepsBases h,
    fun _ hx _ hn _ hq args definitions => Scripts.load_lends hx hn hq args definitions,
    fun _ hx m _ hm => Entries.spawn_lends hx m hm⟩

/-- A script with a loop is run twice.  The second run starts from clones of the entries that the first one
started from, though that one has failed meanwhile, and both the loop and the entry in its block are as
they were made. -/
theorem runs_leave_scripts_alone_twice :
    let source := "repeat 2 \x7b\n- debug <[value]>\n\x7d\ndetermine <nothing>"
    let e₁ := ((Operation.register { name := "p", source }).act 9 (Host.create {} [])).2
    let e₂ := ((Operation.runScript "p" {} true).act 12 e₁).2
    let e₃ := ((Operation.tick (some 1.0)).act 12 e₂).2
    (e₂.script 0).base = some [1, 2] ∧ (e₂.entry 1).inner = [0] ∧ (e₃.script 0).base = some [1, 2] ∧
      (∀ m ∈ [0, 1, 2], (e₃.entry m).IsBlank ∧ e₃.entry m = e₂.entry m) ∧ e₃.MadeOf 0 [1, 2] ∧
      (e₂.entry 3).code.words = (e₂.entry 1).code.words ∧ (e₂.entry 3).isFinished = true ∧
      (e₂.entry 3).loop.isSome = true ∧
      ∃ y, Scripts.load 0 0 [] [] e₃ = (.ok (), y) ∧ y.entry e₃.entries.size =
        { code := (e₃.entry 1).code, blocks := (e₃.entry 1).blocks, residing := some 0,
          context := some (e₃.follow 0) } := by
  intro source e₁ e₂ e₃
  obtain ⟨ok₁, ok₂, ok₃⟩ :
      ((Operation.register { name := "p", source }).act 9 (Host.create {} [])).1.toBool = true ∧
      ((Operation.runScript "p" {} true).act 12 e₁).1.toBool = true ∧
      ((Operation.tick (some 1.0)).act 12 e₂).1.toBool = true := by decide +kernel
  obtain ⟨made, inner, cloned, finished, looped, queue, script⟩ : (e₂.script 0).base = some [1, 2] ∧
      (e₂.entry 1).inner = [0] ∧ (e₂.entry 3).code.words = (e₂.entry 1).code.words ∧
      (e₂.entry 3).isFinished = true ∧ (e₂.entry 3).loop.isSome = true ∧
      0 < e₃.queues.size ∧ 0 < e₃.scripts.size := by decide +kernel
  have run₁ : Reachable (Host.create {} []) e₁ := .ok .first 9 (.register { name := "p", source }) trivial ok₁
  have run₂ : Reachable (Host.create {} []) e₂ := run₁.ok 12 (.runScript "p" {} true) trivial ok₂
  have run₃ : Reachable e₂ e₃ := .ok .first 12 (.tick (some 1.0)) trivial ok₃
  clear_value e₃ e₂
  obtain ⟨scripts, bases, loads, -⟩ := runs_leave_scripts_alone run₂ run₃
  have isBase : ∀ m ∈ [0, 1, 2], e₂.IsBase m := by
    have nested : e₂.IsBase 0 := .inr ⟨1, inner ▸ List.mem_singleton_self 0⟩
    intro m hm
    rcases List.mem_cons.1 hm with rfl | hm
    · exact nested
    · exact .inl ⟨0, [1, 2], made, hm⟩
  have kept := scripts.kept made
  obtain ⟨ns, z, y, loaded, -, before, -, lent⟩ := loads e₃ bases.based 0 script 0 queue [] []
  obtain ⟨rfl, entries⟩ := before _ kept
  have clone := (lent.fresh (i := 0) rfl).1
  rw [Engine.entry_congr entries, entries] at clone
  exact ⟨made, inner, kept, fun m hm => ⟨bases.based.blank (bases.base (isBase m hm)), bases.same (isBase m hm)⟩,
    scripts.made kept, cloned, finished, looped, y, loaded, clone⟩

end QueueScript
