import QueueScript.Proofs.Structured.Marks

/-!
# The commands of a program

What the interpreter puts in the place of conditions and of the commands for loops comes to the same as
these.  Where a loop or a round is ended early, the engine looks for the first mark among the pending
entries; it finds that of the innermost loop, since what comes before it is what is left of the round
(`Place.Stands`).
-/

namespace QueueScript.Structured

variable {P : Prop} {fuel : Nat} {q : QueueRef} {n : EntryRef} {X Y following ns : List EntryRef}
  {e e' x y z : Engine} {p : Place}

/-! ## Where a command stands -/

/-- The mark of a loop belongs to an entry outside `X` that has begun the loop. -/
structure Loop.Stands (X : List EntryRef) (e : Engine) (l : Loop) : Prop where
  size : l.mark < e.entries.size
  isMark : (e.entry l.mark).isLoopMark = true
  owned : ∃ o index target, (e.entry l.mark).owner = some o ∧ o < e.entries.size ∧ o ∉ X ∧
    (e.entry o).loop = some ⟨index, target, l.binding.name, l.binding.before⟩

/-- What comes after a command is on the queue, and the first mark in it is that of the innermost
loop. -/
structure Place.Stands (q : QueueRef) (X : List EntryRef) (e : Engine) (p : Place) : Prop where
  plain : ∀ m ∈ p.rest, (e.entry m).isLoopMark = false
  sits : ∀ m ∈ p.pending, m < e.entries.size ∧ (e.entry m).residing = some q
  loop : ∀ l, p.loop = some l → l.Stands X e

namespace Place

theorem Stands.mono (h : p.Stands q X e) (hXY : ∀ m ∈ Y, m ∈ X) : p.Stands q Y e where
  plain := h.plain
  sits := h.sits
  loop l hl := by
    obtain ⟨size, isMark, o, index, target, ho, hsize, hx, hloop⟩ := h.loop l hl
    exact ⟨size, isMark, o, index, target, ho, hsize, fun hy => hx (hXY o hy), hloop⟩

/-- The entries that are counted out may change, and so may those that are not there yet. -/
theorem Stands.keep (h : p.Stands q X e) (size : e.entries.size ≤ e'.entries.size)
    (code : ∀ {m}, m < e.entries.size → (e'.entry m).code = (e.entry m).code)
    (residing : ∀ {m}, m < e.entries.size → (e'.entry m).residing = (e.entry m).residing)
    (owner : ∀ {m}, m < e.entries.size → (e'.entry m).owner = (e.entry m).owner)
    (loop : ∀ {m}, m < e.entries.size → m ∉ X → (e'.entry m).loop = (e.entry m).loop)
    (hY : ∀ m ∈ Y, m < e.entries.size → m ∈ X) : p.Stands q Y e' where
  plain m hm := by
    have hsize := (h.sits m (List.mem_append_left _ hm)).1
    unfold Entry.isLoopMark
    rw [code hsize]
    exact h.plain m hm
  sits m hm := by
    obtain ⟨hsize, hres⟩ := h.sits m hm
    exact ⟨Nat.lt_of_lt_of_le hsize size, (residing hsize).trans hres⟩
  loop l hl := by
    obtain ⟨hsize, isMark, o, index, target, ho, hosize, hx, hloop⟩ := h.loop l hl
    refine ⟨Nat.lt_of_lt_of_le hsize size, ?_, o, index, target, (owner hsize).trans ho,
      Nat.lt_of_lt_of_le hosize size, fun hy => hx (hY o hy hosize), (loop hosize hx).trans hloop⟩
    unfold Entry.isLoopMark
    rw [code hsize]
    exact isMark

theorem Stands.moves (h : p.Stands q X e) (hm : e.Moves q X e')
    (hY : ∀ m ∈ Y, m < e.entries.size → m ∈ X) : p.Stands q Y e' :=
  h.keep hm.entries hm.code hm.residing hm.owner (fun hs hx => by rw [hm.entry hs hx]) hY

theorem Stands.begins (h : p.Stands q X e) (hx : Begins P q n following e x) : p.Stands q X x :=
  h.keep hx.apart.size hx.apart.code hx.apart.residing hx.apart.owner (fun hs _ => hx.apart.loop hs)
    fun _ hm _ => hm

/-- What is pending when a part of a program is left. -/
def after (p : Place) : Exit → Option (List EntryRef)
  | .done => some p.pending
  | .next => p.loop.map fun l => l.mark :: l.behind
  | .stop => p.loop.map (·.behind)
  | .beyond => none

end Place

/-! ## Leaves -/

/-- A command is a leaf of programs. -/
def isLeaf (b : Behaviour) : Prop :=
  b = .stub ∨ b = .debug ∨ b = .define

section Commands

variable (hi : (Drive.calls fuel).Isolated) (hp : (Drive.calls fuel).Prompt ∨ P)
  (t : Taken P q n following e) (begins : Begins P q n following e x)

include hi hp t begins

omit hi hp in
/-- A leaf leaves all but notes on its entry alone. -/
theorem serves_leaf (hleaf : isLeaf (e.entry n).code.handler.behaviour) :
    Serves P q n (fun _ => False) (fun _ z => (z.queue q).pending = following)
      (Commands.execute (Drive.calls fuel) n) x (Commands.execute (Drive.calls fuel) n x) := by
  have hb := Discipline.Apart.bookkeeping n P
  have own : (Discipline.apart n P).own x n := ⟨rfl, begins.live t⟩
  have safe : (Discipline.apart n P).Safe x (Commands.execute (Drive.calls fuel) n) := by
    refine Discipline.look_bind fun x₁ _ hl => ?_
    rw [hl.code (begins.size t), begins.code t]
    rcases hleaf with h | h | h <;> rw [h]
    · exact Discipline.safe_pure ()
    · exact Discipline.safe_debugExecute hb
    · exact Discipline.safe_defineExecute hb ((Discipline.apart n P).own_mono hl own)
  have self := Serves.self (P := P) (n := n) (begins.queues t) (safe.run x begins.inv (.refl _ _))
  rwa [begins.pending t] at self

omit hi hp t in
/-- What a command reports is only shown. -/
theorem report_begins (values : List (String × String)) :
    ∃ y, Commands.report n values x = (.ok (), y) ∧ Begins P q n following e y ∧ x.Apart [n] y := by
  have safe : (Discipline.apart n P).Safe x (Commands.report n values) :=
    Discipline.safe_reportParsed (Discipline.Apart.bookkeeping n P).toNoting n values
  have ran := safe.run x begins.inv (.refl _ _)
  exact ⟨_, rfl, begins.step ran.1, ran.1.2⟩

/-! ## Conditions -/

omit hi hp t begins in
/-- The block that is chosen is the one at its place. -/
theorem choose_ok {calls : Calls} {bs : List (Branch EntryRef)} {k i : Nat} {b : Branch EntryRef}
    (h : Commands.Condition.choose calls n k bs x = (.ok (some (i, b)), y)) :
    k ≤ i ∧ bs[i - k]? = some b := by
  induction bs generalizing k x with
  | nil => cases h
  | cons first rest ih =>
    obtain ⟨c, x₁, -, h⟩ := Action.ok_of_bind h
    cases c with
    | true =>
      cases h
      exact ⟨Nat.le_refl _, by rw [Nat.sub_self]; rfl⟩
    | false =>
      obtain ⟨hle, hb⟩ := ih h
      have next : i - k = i - (k + 1) + 1 := by omega
      refine ⟨Nat.le_of_succ_le hle, ?_⟩
      rw [next]
      exact hb

/-- The block that was chosen is on the queue. -/
def Chosen (q : QueueRef) (following : List EntryRef) (b : Nat) (bs : List (Branch Compiled)) :
    Option (Nat × List EntryRef) → Engine → Prop
  | none, e => (e.queue q).pending = following
  | some (i, ns), e => ∃ branch, bs[i]? = some branch ∧ Laid q b branch.body ns e ∧
      (e.queue q).pending = ns ++ following

omit hi hp t begins in
theorem Chosen.remains {b : Nat} {bs : List (Branch Compiled)} {a : Option (Nat × List EntryRef)}
    (hr : y.Remains q z) (h : Chosen q following b bs a y) : Chosen q following b bs a z := by
  match a, h with
  | none, h => exact hr.pending.trans h
  | some (i, ns), ⟨branch, hb, laid, hpending⟩ =>
    exact ⟨branch, hb, laid.remains hr, hr.pending.trans hpending⟩

/-- Puts the chosen block on the queue, and gives its place and its entries. -/
def putChosen (q : QueueRef) (n : EntryRef) :
    Option (Nat × Branch EntryRef) → Action (Option (Nat × List EntryRef))
  | none => do
    Commands.report n [("branch", "none")]
    pure none
  | some (index, branch) => do
    Commands.report n [("branch", Number.natText (index + 1)),
      ("entries", Number.natText branch.body.length)]
    let ns ← Entries.spawn n branch.body
    Queues.inject q ns
    pure (some (index, ns))

/-- A condition puts the chosen block on the queue. -/
theorem serves_choice (hb : (e.entry n).code.handler.behaviour = .condition) :
    Serves P q n (fun _ => False)
      (Chosen q following e.entries.size ((e.entry n).code.branches.getD []))
      (Commands.execute (Drive.calls fuel) n) x (choice (Drive.calls fuel) q n x) := by
  let bs := (x.entry n).blocks
  have noting := (Discipline.Apart.bookkeeping n P).toNoting
  have code := begins.code t
  let f := putChosen q n
  let g := Commands.Condition.putOn n q
  have command : Commands.execute (Drive.calls fuel) n x =
      (Commands.Condition.choose (Drive.calls fuel) n 0 bs >>= g) x := by
    rw [Commands.execute_of_condition (by rw [code]; exact hb),
      Commands.Condition.execute_of_residing (begins.residingQueue t)]
  have chosen : choice (Drive.calls fuel) q n x =
      (Commands.Condition.choose (Drive.calls fuel) n 0 bs >>= f) x := rfl
  rw [chosen]
  refine Serves.congr command (Serves.after (begins.queues t)
    ((Discipline.gives_choose noting (Discipline.Apart.procedureSafe hi hp) 0 bs).run x begins.inv
      (.refl _ _)) fun r y _ step hr => ?_)
  have begins' := begins.step step
  cases r with
  | none =>
    obtain ⟨z, reported, shown, apart⟩ := report_begins begins' [("branch", "none")]
    have ran : f none y = (.ok none, z) := Action.bind_ok reported
    rw [ran]
    exact .inr ⟨reported, .of_apart apart (begins'.queues t), (shown.last t).trans (begins'.last t).symm,
      shown.pending t⟩
  | some chosen =>
    obtain ⟨i, branch⟩ := chosen
    obtain ⟨z, reported, shown, apart⟩ := report_begins begins' [("branch", Number.natText (i + 1)),
      ("entries", Number.natText branch.body.length)]
    let ns := List.range' z.entries.size branch.body.length
    let xs := branch.body.map z.entry
    let z' := z.injected n q false xs
    have hqz := shown.queues t
    have based := shown.healthy.tidy.based
    have here : bs[i]? = some branch := (choose_ok hr).2
    have same : (z.entry n).blocks = bs := (step.2.trans apart).blocks (begins.size t)
    have clonable : z.Clonable branch.body := based.clonable fun m hm =>
      .inr ⟨n, Entry.mem_inner (same ▸ List.mem_of_getElem? here) hm⟩
    have code : ((e.entry n).code.branches.getD [])[i]? =
        some (branch.map fun m => (z.entry m).code) := by
      have furnished := based.furnished n
      unfold Engine.Furnishes at furnished
      rw [same, shown.code t] at furnished
      rw [← furnished, List.getElem?_map, here]
      rfl
    have spawned := z.spawn_eq n clonable
    have put := z.inject_spawn n q clonable
    have ran : f (some (i, branch)) y = (.ok (some (i, ns)), z') := by
      refine (Action.bind_ok reported).trans ((Action.bind_ok spawned).trans ?_)
      exact Action.bind_ok ((Action.bind_ok spawned).symm.trans put)
    have done : g (some (i, branch)) y = (.ok (), z') := (Action.bind_ok reported).trans put
    have queue : z'.queue q = { z.queue q with pending := ns ++ (z.queue q).pending } := by
      have queue := z.queue_injected q n false (branch.body.map z.entry) hqz
      rwa [List.length_map] at queue
    have moved : y.Moves q [n] z' :=
      (Engine.Moves.of_apart apart (begins'.queues t)).trans (.injected hqz n false fun x hx m hm => by
        obtain ⟨k, -, rfl⟩ := List.mem_map.1 hx
        exact .inr ⟨k, hm⟩) fun _ h _ => h
    have laid := laid_injected (q := q) z n false (branch.body.map z.entry) []
    rw [List.append_nil, List.length_map, List.map_map] at laid
    rw [ran]
    refine .inr ⟨done, moved, ?_, _, code, laid.older shown.apart.size, ?_⟩
    · rw [congrArg Queue.last queue]
      exact (shown.last t).trans (begins'.last t).symm
    · rw [congrArg Queue.pending queue]
      exact congrArg (ns ++ ·) (shown.pending t)

/-! ## Ending a loop or a round early -/

/-- What a command for loops leads to. -/
def Controlled (q : QueueRef) (n : EntryRef) (p : Place) (b : Nat) : Control → Engine → Prop
  | .pass, e => (e.queue q).pending = p.pending
  | .leave exit, e => p.after exit = some (e.queue q).pending
  | .enter r first more ns mark, e => r.owner = n ∧ r.body ≠ [] ∧ Round q b r more first ns mark e ∧
      (e.queue q).pending = ns ++ mark :: p.pending

omit hi hp t begins in
theorem Controlled.remains {b : Nat} {c : Control} (hr : y.Remains q z) (h : Controlled q n p b c y) :
    Controlled q n p b c z := by
  match c, h with
  | .pass, h => exact hr.pending.trans h
  | .leave exit, h => exact h.trans (congrArg some hr.pending.symm)
  | .enter r first more ns mark, ⟨howner, hbody, hround, hpending⟩ =>
    exact ⟨howner, hbody, hround.remains hr, hr.pending.trans hpending⟩

omit hi hp t begins in
/-- The first mark is found behind what is left of the round. -/
theorem firstMark_append {rest behind : List EntryRef} {mark : EntryRef}
    (hrest : ∀ m ∈ rest, (x.entry m).isLoopMark = false) (hmark : (x.entry mark).isLoopMark = true) :
    Commands.Loop.firstMark x (rest ++ mark :: behind) = some (rest.length, mark) := by
  induction rest with
  | nil => exact Commands.Loop.firstMark_of_mark hmark
  | cons m rest ih =>
    rw [List.cons_append, Commands.Loop.firstMark_of_plain (hrest m List.mem_cons_self),
      ih fun m hm => hrest m (List.mem_cons_of_mem _ hm)]
    rfl

omit hi hp t begins in
theorem firstMark_plain {rest : List EntryRef} (hrest : ∀ m ∈ rest, (x.entry m).isLoopMark = false) :
    Commands.Loop.firstMark x rest = none := by
  induction rest with
  | nil => rfl
  | cons m rest ih =>
    rw [Commands.Loop.firstMark_of_plain (hrest m List.mem_cons_self),
      ih fun m hm => hrest m (List.mem_cons_of_mem _ hm)]
    rfl

/-- The innermost loop, or its round, has been ended early. -/
def Ended (q : QueueRef) (n : EntryRef) (x y : Engine) (pending : List EntryRef) : Prop :=
  x.Moves q [n] y ∧ (y.queue q).last = (x.queue q).last ∧ (y.queue q).pending = pending

omit hi hp t begins in
/-- The pending entries are cut, definitions may change, and the end is reported. -/
theorem ended_report (hqx : q < x.queues.size) (memories : Array Memory) (pending : List EntryRef)
    (values : List (String × String)) :
    ∃ y, Commands.report n values { x.changeQueue q ({ · with pending := pending }) with memories } =
      (.ok (), y) ∧ Ended q n x y pending := by
  let x₁ := x.changeQueue q ({ · with pending := pending })
  have queue : x₁.queue q = { x.queue q with pending := pending } := x.queue_changeQueue_self hqx _
  have hq₁ : q < x₁.queues.size := by
    rw [Engine.size_changeQueue]
    exact hqx
  have cut : x.Moves q [n] x₁ := .changeQueue hqx rfl
  have changed : x₁.Moves q [n] { x₁ with memories } := .of_tables rfl rfl rfl rfl rfl (Nat.le_refl _)
  let event (z : Engine) : Event := .report (z.entry n).code.handler.name values (z.scope n)
  have shown : Engine.Apart [n] { x₁ with memories } (Engine.emit { x₁ with memories } _ _) :=
    .emit _ (event { x₁ with memories }) (Engine.scope { x₁ with memories } n)
  refine ⟨_, rfl, (cut.trans changed fun _ h _ => h).trans (.of_apart shown hq₁) fun _ h _ => h, ?_, ?_⟩
  · rw [shown.queue hq₁]
    exact (congrArg Queue.last queue :)
  · rw [shown.queue hq₁]
    exact (congrArg Queue.pending queue :)

omit hi hp in
/-- Ending a loop or a round early ends the innermost one. -/
theorem serves_leaveEarly (hstands : p.Stands q [n] e) (hfollowing : following = p.pending) (stop : Bool) :
    Serves P q n (· = .leave .beyond) (Controlled q n p e.entries.size)
      (Commands.Loop.endEarly n q stop) x (leaveEarly q n p stop x) := by
  have stands := hstands.begins begins
  have pending : (x.queue q).pending = p.pending := (begins.pending t).trans hfollowing
  have hqx := begins.queues t
  have cut (count : Nat) (ns : List EntryRef) (h : p.pending.drop count = ns) :
      Queues.dropFirst q count x = (.ok (), x.changeQueue q ({ · with pending := ns })) := by
    refine congrArg (Except.ok (), ·) (x.changeQueue_congr ?_)
    rw [pending, h]
  cases hl : p.loop with
  | none =>
    have found : Commands.Loop.firstMark x (x.queue q).pending = none := by
      rw [pending, Place.pending, hl, List.append_nil]
      exact firstMark_plain stands.plain
    have fails : leaveEarly q n p stop x = (.error (.runtime (.notInLoop stop)), x) := by
      unfold leaveEarly
      rw [hl]
      rfl
    rw [fails]
    exact ⟨Commands.Loop.endEarly_of_none found, .refl _ _⟩
  | some l =>
    obtain ⟨-, isMark, o, index, target, owner, -, -, hloop⟩ := stands.loop l hl
    have whole : p.pending = p.rest ++ l.mark :: l.behind := by
      rw [Place.pending, hl]
    have found : Commands.Loop.firstMark x (x.queue q).pending = some (p.rest.length, l.mark) := by
      rw [pending, whole]
      exact firstMark_append stands.plain isMark
    cases stop with
    | true =>
      let x₁ := x.changeQueue q ({ · with pending := l.behind })
      have dropped := cut (p.rest.length + 1) l.behind (by rw [whole]; simp)
      have loopOf : Commands.Loop.loopOf x₁ l.mark =
          some (o, ⟨index, target, l.binding.name, l.binding.before⟩) := by
        show (x.entry l.mark).owner.bind (fun o => (x.entry o).loop.map (o, ·)) = _
        rw [owner]
        show (x.entry o).loop.map (o, ·) = _
        rw [hloop]
        rfl
      obtain ⟨memories, restored⟩ := restore_eq q l.binding x₁
      obtain ⟨y, reported, moved, last, left⟩ := ended_report (n := n) hqx memories l.behind
        [("stop", "skipped " ++ Number.natText p.rest.length ++ " entries")]
      have changed : Action.changeQueue q ({ · with pending := l.behind }) x = (.ok (), x₁) := rfl
      have acted : leaveEarly q n p true x = (.ok (.leave .stop), y) := by
        unfold leaveEarly
        rw [hl]
        exact (Action.bind_ok changed).trans ((Action.bind_ok restored).trans (Action.bind_ok reported))
      have command : Commands.Loop.endEarly n q true x = (.ok (), y) := by
        rw [Commands.Loop.endEarly_of_some found]
        refine (Action.bind_ok dropped).trans ?_
        rw [if_pos rfl, Action.look_bind, loopOf]
        exact (Action.bind_ok restored).trans reported
      rw [acted]
      refine .inr ⟨command, moved, last, ?_⟩
      show p.loop.map (·.behind) = some (y.queue q).pending
      rw [hl, left]
      rfl
    | false =>
      have dropped := cut p.rest.length (l.mark :: l.behind) (by rw [whole]; simp)
      obtain ⟨y, reported, moved, last, left⟩ := ended_report (n := n) hqx x.memories (l.mark :: l.behind)
        [("next", "skipped " ++ Number.natText p.rest.length ++ " entries")]
      have changed : Action.changeQueue q ({ · with pending := l.mark :: l.behind }) x =
          (.ok (), x.changeQueue q ({ · with pending := l.mark :: l.behind })) := rfl
      have acted : leaveEarly q n p false x = (.ok (.leave .next), y) := by
        unfold leaveEarly
        rw [hl]
        exact (Action.bind_ok changed).trans (Action.bind_ok reported)
      have command : Commands.Loop.endEarly n q false x = (.ok (), y) := by
        rw [Commands.Loop.endEarly_of_some found]
        exact (Action.bind_ok dropped).trans reported
      rw [acted]
      refine .inr ⟨command, moved, last, ?_⟩
      show (p.loop.map fun l => l.mark :: l.behind) = some (y.queue q).pending
      rw [hl, left]
      rfl

/-! ## Starting a loop -/

omit hi hp t begins in
/-- What the interpreter counts the rounds of a loop by is what the engine counts them by. -/
theorem counts_of_range {amount first : Float} {a f : Int} (h : range? amount first = some (a, f)) :
    (amount ≤ 0.0 ↔ a ≤ 0) ∧ Doubles.Holds first f ∧ ∀ r : Rounds, r.target = first + amount - 1.0 →
      0 < a → Counts r (a.toNat - 1) f := by
  unfold range? at h
  obtain ⟨i, hi, h⟩ := Option.bind_eq_some_iff.1 h
  obtain ⟨j, hj, h⟩ := Option.bind_eq_some_iff.1 h
  obtain ⟨hsmall, heq⟩ := Option.ite_none_right_eq_some.1 h
  cases heq
  simp only [isSmall, Bool.and_eq_true, decide_eq_true_eq] at hsmall
  obtain ⟨⟨ha, hf⟩, hsum⟩ := hsmall
  have amount_holds := Doubles.holds_of_whole? hi ha
  have first_holds := Doubles.holds_of_whole? hj hf
  refine ⟨amount_holds.le_iff Doubles.Holds.zero ha (by decide), first_holds, fun r hr hpos => ?_⟩
  have sum := (first_holds.add amount_holds hf ha hsum).pred hsum (by omega)
  have more : ((a.toNat - 1 : Nat) : Int) = a - 1 := by omega
  refine ⟨?_, hf, ?_⟩
  · rw [hr, more, ← Int.add_sub_assoc]
    exact sum
  · rw [more]
    omega

omit hi hp in
/-- Starting a loop puts its first round on the queue. -/
theorem serves_startLoop (hfollowing : following = p.pending) :
    Serves P q n (· = .leave .beyond) (Controlled q n p e.entries.size)
      (Commands.Loop.start n q) x (startLoop q n x) := by
  have hb := Discipline.Apart.bookkeeping n P
  unfold startLoop Commands.Loop.start
  refine Serves.after (begins.queues t)
    ((Discipline.safe_count n "quantity").run x begins.inv (.refl _ _)) fun amount x₁ _ step₁ _ => ?_
  have begins₁ := begins.step step₁
  refine Serves.after (begins₁.queues t)
    ((Discipline.safe_count n "from").run x₁ begins₁.inv (.refl _ _)) fun first x₂ _ step₂ _ => ?_
  have begins₂ := begins₁.step step₂
  refine Serves.after (begins₂.queues t)
    ((Discipline.safe_element? n "as").run x₂ begins₂.inv (.refl _ _)) fun named x₃ _ step₃ _ => ?_
  have begins₃ := begins₂.step step₃
  let name := named.getD "value"
  refine Serves.after (begins₃.queues t)
    ((Discipline.safe_reportParsed hb.toNoting n [("quantity", Number.text amount),
      ("from", Number.text first), ("as", name)]).run x₃ begins₃.inv (.refl _ _)) fun _ y _ step₄ _ => ?_
  have begins' := begins₃.step step₄
  cases hrange : range? amount first with
  | none => exact .inl rfl
  | some range =>
    obtain ⟨a, f⟩ := range
    obtain ⟨hamount, hfirst, hcounts⟩ := counts_of_range hrange
    by_cases ha : a ≤ 0
    · dsimp only
      rw [if_pos ha, if_pos (hamount.2 ha)]
      exact .inr ⟨rfl, .refl _ _ _, rfl, (begins'.pending t).trans hfollowing⟩
    · dsimp only
      rw [if_neg ha, if_neg (fun h => ha (hamount.1 h))]
      let body := (y.entry n).firstBlock
      have hbody : Commands.Loop.body n y = (.ok body, y) := rfl
      rw [Action.bind_ok hbody]
      refine Serves.congr (Action.bind_ok hbody) ?_
      cases hempty : body.isEmpty with
      | true => exact ⟨rfl, .refl _ _⟩
      | false =>
        let r : Rounds := ⟨n, ⟨name, y.definition? q name⟩, first + amount - 1.0, body⟩
        have hqy := begins'.queues t
        have hny := begins'.size t
        have hc := begins'.healthy.catalogue.loops
        have counts := hcounts r rfl (Int.not_le.1 ha)
        have ht := begins'.healthy.tidy
        have block := ht.based.repeatable (begins'.live t)
        have round := round_opened r first hqy hny counts hfirst block rfl
        have clonable := clonable_bound q r first block rfl
        have begun := openRound_eq (q := q) r first hc hny clonable
        have acted := Action.bind_ok (f := fun s => pure (Control.enter r f (a.toNat - 1) s.1 s.2)) begun
        have command := injectIteration_bound (q := q) r first hc hny clonable
        have pending := pending_opened (q := q) r first hqy
        rw [begins'.pending t, hfollowing] at pending
        exact Serves.of_eq (acted.trans rfl) (.inr ⟨command, moves_opened r first hqy,
          last_opened r first hqy, rfl, List.isEmpty_eq_false_iff.1 hempty,
          round.older t.live.1 begins'.apart.size, pending⟩)

/-! ## All commands for loops -/

/-- What a command for loops is told, it is told by its flags. -/
theorem serves_control (hb : (e.entry n).code.handler.behaviour = .loop)
    (hmark : (e.entry n).code.isMarked = false) (hstands : p.Stands q [n] e)
    (hfollowing : following = p.pending) :
    Serves P q n (· = .leave .beyond) (Controlled q n p e.entries.size)
      (Commands.execute (Drive.calls fuel) n) x (control (Drive.calls fuel) q n p x) := by
  have noting := (Discipline.Apart.bookkeeping n P).toNoting
  have procedures := Discipline.Apart.procedureSafe (n := n) hi hp
  have flag (word : String) {y : Engine} (h : Begins P q n following e y) :
      (Discipline.apart n P).Leaves y (fun _ _ => True) (Entries.flag (Drive.calls fuel) n word y) :=
    (Discipline.safe_flag noting procedures word).run y h.inv (.refl _ _)
  have reads : (e.entry n).code.readsMark = false := by
    simp only [Compiled.isMarked, Bool.or_eq_false_iff] at hmark
    exact Bool.or_eq_false_iff.2 ⟨hmark.2, hmark.1.2⟩
  have command : Commands.execute (Drive.calls fuel) n x = (do
      if ← Entries.flag (Drive.calls fuel) n "stop" then Commands.Loop.endEarly n q true
      else if ← Entries.flag (Drive.calls fuel) n "next" then Commands.Loop.endEarly n q false
      else if ← Entries.flag (Drive.calls fuel) n Builtin.loopMark then Commands.Loop.iterate n q
      else Commands.Loop.start n q : Action Unit) x := by
    rw [Commands.execute_of_loop (by rw [begins.code t]; exact hb)]
    exact Action.bind_ok (Entries.requireQueue_eq (begins.residingQueue t))
  refine Serves.congr command ?_
  unfold control
  refine Serves.after (begins.queues t) (flag "stop" begins) fun stop x₁ _ step _ => ?_
  have begins₁ := begins.step step
  cases stop with
  | true => exact serves_leaveEarly t begins₁ hstands hfollowing true
  | false =>
    refine Serves.after (begins₁.queues t) (flag "next" begins₁) fun next x₂ _ step₂ _ => ?_
    have begins₂ := begins₁.step step₂
    cases next with
    | true => exact serves_leaveEarly t begins₂ hstands hfollowing false
    | false =>
      have unmarked : Entries.flag (Drive.calls fuel) n Builtin.loopMark x₂ = (.ok false, x₂) :=
        Discipline.Nest.flag_mark (by rw [begins₂.code t]; exact reads)
      refine Serves.congr (Action.bind_ok unmarked) ?_
      exact serves_startLoop t begins₂ hfollowing

end Commands

end QueueScript.Structured
