import QueueScript.Proofs.Structured.Commands

/-!
# Blocks and loops of any depth

A part of a program that is run by its structure leads to where the queue gets by taking its entries off
the pending ones (`Goes`).  The induction is on the program, and for the rounds of a loop on how many of
them are left.  It is carried by what stands behind the part: the rest of the round without marks, and
then the mark of the innermost loop.
-/

namespace QueueScript.Structured

variable {P : Prop} {fuel : Nat} {seconds : Option Float} {q : QueueRef} {n : EntryRef}
  {X Y ns : List EntryRef} {e e₁ : Engine} {p : Place}

/-- A part of a program leads to where the queue gets.  It is cut off only if there are procedures, and
nothing is said where a loop is asked for that counts beyond the whole numbers that doubles tell
apart. -/
def Goes (P : Prop) (fuel : Nat) (seconds : Option Float) (q : QueueRef) (X : List EntryRef) (p : Place)
    (e : Engine) : Except Failure Exit × Engine → Prop
  | (.ok exit, e') => exit = .beyond ∨
      Advances P fuel seconds q X e e' ∧ p.after exit = some (e'.queue q).pending
  | (.error f, _) => f = .exhausted ∧ P

theorem Goes.of_eq {r r' : Except Failure Exit × Engine} (hr : r = r')
    (h : Goes P fuel seconds q X p e r') : Goes P fuel seconds q X p e r :=
  hr ▸ h

theorem Goes.from {r : Except Failure Exit × Engine} (h : Advances P fuel seconds q X e e₁)
    (hg : Goes P fuel seconds q Y p e₁ r) (hY : ∀ m ∈ Y, m < e.entries.size → m ∈ X) :
    Goes P fuel seconds q X p e r := by
  obtain ⟨r, e'⟩ := r
  cases r with
  | ok exit => exact hg.imp id fun hg => ⟨h.trans hg.1 hY, hg.2⟩
  | error f => exact hg

/-- The rest of a program is run after a part of it. -/
theorem Goes.bind {e₀ : Engine} {a : Action Exit} {f : Exit → Action Exit} {p' : Place}
    (ha : Goes P fuel seconds q X p e (a e))
    (hbeyond : ∀ e', Goes P fuel seconds q Y p' e₀ (f .beyond e'))
    (h : ∀ exit e', Advances P fuel seconds q X e e' → p.after exit = some (e'.queue q).pending →
      Goes P fuel seconds q Y p' e₀ (f exit e')) :
    Goes P fuel seconds q Y p' e₀ ((a >>= f) e) := by
  match hr : a e with
  | (.ok exit, e') =>
    rw [hr] at ha
    rw [Action.bind_ok hr]
    rcases ha with rfl | ⟨advances, after⟩
    · exact hbeyond e'
    · exact h exit e' advances after
  | (.error f, e') =>
    rw [hr] at ha
    rw [Action.bind_error hr]
    exact ha

/-- A part of a program is run after an entry. -/
theorem Served.bind {α : Type} {G : α → Prop} {Q : α → Engine → Prop} {act : Action (Option α)}
    {f : Option α → Action Exit} (hs : Served P fuel seconds q n p.pending G Q e (act e))
    (hnone : f none = pure .done)
    (hG : ∀ a e', G a → f (some a) e' = (.ok .beyond, e'))
    (h : ∀ a e', Advances P fuel seconds q [n] e e' → Q a e' →
      Goes P fuel seconds q [n] p e (f (some a) e')) :
    Goes P fuel seconds q [n] p e ((act >>= f) e) := by
  match hr : act e with
  | (.ok none, e') =>
    rw [hr] at hs
    rw [Action.bind_ok hr, hnone]
    exact .inr ⟨hs.1, congrArg some hs.2.symm⟩
  | (.ok (some a), e') =>
    rw [hr] at hs
    rw [Action.bind_ok hr]
    rcases hs with hg | ⟨advances, hq⟩
    · rw [hG a e' hg]
      exact .inl rfl
    · exact h a e' advances hq
  | (.error f, e') =>
    rw [hr] at hs
    rw [Action.bind_error hr]
    exact hs

/-! ## The rounds of a loop -/

/-- A block, wherever its entries are on the queue, leads to where the queue gets. -/
def RunsBody (P : Prop) (fuel : Nat) (seconds : Option Float) (q : QueueRef) (codes : List Compiled)
    (body : List EntryRef → Place → Action Exit) : Prop :=
  ∀ {b : Nat} {ns : List EntryRef} {p : Place} {e : Engine}, Ready P q e → Laid q b codes ns e →
    (e.queue q).pending = ns ++ p.pending → p.Stands q ns e →
      Goes P fuel seconds q ns p e (body ns p e)

/-- What stands behind the block of a round: the mark. -/
theorem Round.stands {b : Nat} {r : Rounds} {more : Nat} {index : Int} {mark : EntryRef}
    {following : List EntryRef} (h : Round q b r more index ns mark e)
    (hf : ∀ m ∈ following, m < e.entries.size ∧ (e.entry m).residing = some q) :
    Place.Stands q ns e ⟨[], some ⟨r.binding, mark, following⟩⟩ where
  plain _ hm := absurd hm List.not_mem_nil
  sits m hm := by
    rcases List.mem_cons.1 (show m ∈ mark :: following from hm) with rfl | hm
    · exact ⟨h.size, h.residing⟩
    · exact hf m hm
  loop l hl := by
    cases hl
    obtain ⟨v, -, hloop⟩ := h.loop
    refine ⟨h.size, ?_, r.owner, v, r.target, h.owned, h.owner_lt, h.laid.not_mem h.owner, hloop⟩
    show ((e.entry mark).code.keyword == "repeat" && (e.entry mark).code.words == [Builtin.loopMark]) = true
    rw [h.code]
    exact (by decide +kernel : ("repeat" == "repeat" && [Builtin.loopMark] == [Builtin.loopMark]) = true)

section Fresh

variable {b : Nat} {r : Rounds} {more : Nat} {index : Int} {mark : EntryRef} {e₀ : Engine}

/-- The entries of a round are new. -/
theorem Round.fresh (h : Round q b r more index ns mark e) (hb : e₀.entries.size ≤ b) :
    ∀ m ∈ ns, m < e₀.entries.size → m ∈ [r.owner] := fun _ hm hlt =>
  absurd (Nat.lt_of_lt_of_le hlt (Nat.le_trans hb (h.laid.new _ hm))) (Nat.lt_irrefl _)

theorem Round.freshMark (h : Round q b r more index ns mark e) (hb : e₀.entries.size ≤ b) :
    ∀ m ∈ [r.owner, mark], m < e₀.entries.size → m ∈ [r.owner] := by
  intro m hm hlt
  rcases List.mem_cons.1 hm with rfl | hm
  · exact List.mem_singleton_self _
  · rw [List.mem_singleton.1 hm] at hlt
    exact absurd (Nat.lt_of_lt_of_le hlt (Nat.le_trans hb h.new)) (Nat.lt_irrefl _)

end Fresh

/-- What is at a mark, or behind it, is still there when the entries before it have run. -/
theorem sits_moves {e' : Engine} (hm : e.Moves q X e')
    (h : ∀ m ∈ ns, m < e.entries.size ∧ (e.entry m).residing = some q) :
    ∀ m ∈ ns, m < e'.entries.size ∧ (e'.entry m).residing = some q := fun m hmem => by
  obtain ⟨hsize, hres⟩ := h m hmem
  exact ⟨Nat.lt_of_lt_of_le hsize hm.entries, (hm.residing hsize).trans hres⟩

/-- One round, and then what follows it unless the loop was abandoned. -/
theorem goes_round {e₀ : Engine} {r : Rounds} (ho : r.owner < e₀.entries.size)
    {body : List EntryRef → Place → Action Exit}
    (hbody : RunsBody P fuel seconds q (e₀.entry r.owner).code.firstBlock body)
    {b more : Nat} {index : Int} {mark : EntryRef} (hb : e₀.entries.size ≤ b)
    (hsits : ∀ m ∈ p.pending, m < e.entries.size ∧ (e.entry m).residing = some q)
    (advances : Advances P fuel seconds q [r.owner] e₀ e) (round : Round q b r more index ns mark e)
    (hpending : (e.queue q).pending = ns ++ mark :: p.pending) {goOn : Action Exit}
    (hrest : ∀ e₁, Advances P fuel seconds q [r.owner] e₀ e₁ → Round q b r more index ns mark e₁ →
      (∀ m ∈ p.pending, m < e₁.entries.size ∧ (e₁.entry m).residing = some q) →
      (e₁.queue q).pending = mark :: p.pending → Goes P fuel seconds q [r.owner] p e₀ (goOn e₁)) :
    Goes P fuel seconds q [r.owner] p e₀ ((body ns ⟨[], some ⟨r.binding, mark, p.pending⟩⟩ >>= fun
      | .stop => pure .done
      | .beyond => pure .beyond
      | .done | .next => goOn) e) := by
  have laid := round.laid
  rw [advances.moves.code ho] at laid
  have ran := hbody (p := ⟨[], some ⟨r.binding, mark, p.pending⟩⟩) advances.ready laid hpending
    (round.stands hsits)
  refine ran.bind (fun _ => .inl rfl) fun exit e₁ advances₁ hafter => ?_
  have reached := advances.trans advances₁ (round.fresh hb)
  have goes (hmark : (e₁.queue q).pending = mark :: p.pending) :=
    hrest e₁ reached (round.moves advances₁.moves (round.laid.not_mem round.owner))
      (sits_moves advances₁.moves hsits) hmark
  cases exit with
  | beyond => exact .inl rfl
  | stop => exact .inr ⟨reached, hafter⟩
  | done => exact goes (Option.some.inj hafter).symm
  | next => exact goes (Option.some.inj hafter).symm

/-- The rounds of a loop that are left. -/
theorem goes_iterate (hi : (Drive.calls fuel).Isolated) {e₀ : Engine} {r : Rounds}
    (ho : r.owner < e₀.entries.size) {body : List EntryRef → Place → Action Exit}
    (hbody : RunsBody P fuel seconds q (e₀.entry r.owner).code.firstBlock body)
    {b more : Nat} {index : Int} {mark : EntryRef} (hb : e₀.entries.size ≤ b)
    (hsits : ∀ m ∈ p.pending, m < e.entries.size ∧ (e.entry m).residing = some q)
    (advances : Advances P fuel seconds q [r.owner] e₀ e) (round : Round q b r more index ns mark e)
    (hpending : (e.queue q).pending = ns ++ mark :: p.pending) :
    Goes P fuel seconds q [r.owner] p e₀ (iterate seconds q r p.pending body more index ns mark e) := by
  induction more generalizing b index ns mark e with
  | zero =>
    unfold iterate
    refine goes_round ho hbody hb hsits advances round hpending fun e₁ reached round₁ hsits₁ hmark => ?_
    obtain ⟨e₂, hturn, advances₂, hpending₂⟩ := round₁.turn_closes hi reached.ready hmark seconds
    refine Goes.of_eq (Action.bind_ok hturn) (.inr ⟨?_, congrArg some hpending₂.symm⟩)
    exact reached.trans advances₂ (round.freshMark hb)
  | succ more ih =>
    unfold iterate
    refine goes_round ho hbody hb hsits advances round hpending fun e₁ reached round₁ hsits₁ hmark => ?_
    obtain ⟨ns', mark', e₂, hturn, advances₂, hpending₂, round₂⟩ := round₁.turn_opens hi reached.ready hmark
      seconds
    exact Goes.of_eq (Action.bind_ok hturn) (ih reached.moves.entries (sits_moves advances₂.moves hsits₁)
      (reached.trans advances₂ (round.freshMark hb)) round₂ hpending₂)

/-! ## Commands and blocks -/

/-- The command of an entry is part of a program. -/
structure Written (c : Compiled) : Prop where
  isMarked : c.isMarked = false
  behaviour : isLeaf c.handler.behaviour ∨ c.handler.behaviour = .condition ∨ c.handler.behaviour = .loop
  branches : ∀ bs, c.branches = some bs → Compiled.arePrograms bs = true

theorem Written.isLocal {c : Compiled} (h : Written c) : c.handler.behaviour.isLocal = true := by
  rcases h.behaviour with (h | h | h) | h | h <;> rw [h] <;> rfl

theorem Written.isLoopMark {c : Compiled} (h : Written c) {n : EntryRef} (hc : (e.entry n).code = c) :
    (e.entry n).isLoopMark = false := by
  have plain := h.isMarked
  simp only [Compiled.isMarked, Bool.or_eq_false_iff] at plain
  unfold Entry.isLoopMark
  rw [hc, Bool.and_eq_false_iff]
  refine .inr (Bool.eq_false_iff.2 fun h => ?_)
  have words := plain.1.1
  rw [eq_of_beq h] at words
  exact absurd words (by decide +kernel)

theorem written_of_isProgram {c : Compiled} (h : c.isProgram = true) : Written c := by
  obtain ⟨keyword, handler, intended, words, counted, metaArgs, args, parsed, literals, positions,
    branches, hasBlocks, instant, waits, hasTags, wrongCount, line, script⟩ := c
  unfold Compiled.isProgram at h
  obtain ⟨hstatement, hbranches⟩ := Bool.and_eq_true_iff.1 h
  obtain ⟨hmarked, hbehaviour⟩ := Bool.and_eq_true_iff.1 hstatement
  refine ⟨by simpa using hmarked, ?_, fun bs hbs => ?_⟩
  · show isLeaf handler.behaviour ∨ _
    generalize handler.behaviour = b at hbehaviour
    cases b with
    | stub => exact .inl (.inl rfl)
    | debug => exact .inl (.inr (.inl rfl))
    | define => exact .inl (.inr (.inr rfl))
    | condition => exact .inr (.inl rfl)
    | loop => exact .inr (.inr rfl)
    | _ => cases hbehaviour
  · cases hbs
    exact hbranches

theorem isProgram_of_isBlock {cs : List Compiled} (hcs : Compiled.isBlock cs = true) {c : Compiled}
    (hc : c ∈ cs) : c.isProgram = true := by
  induction cs with
  | nil => cases hc
  | cons d cs ih =>
    unfold Compiled.isBlock at hcs
    obtain ⟨hd, hcs⟩ := Bool.and_eq_true_iff.1 hcs
    exact (List.mem_cons.1 hc).elim (fun hc => hc ▸ hd) (ih hcs)

theorem firstBlock_of_none {c : Compiled} (h : c.branches = none) : c.firstBlock = [] := by
  unfold Compiled.firstBlock
  rw [h]
  rfl

theorem firstBlock_of_some {c : Compiled} {bs : List (Branch Compiled)} (h : c.branches = some bs)
    (hne : c.firstBlock ≠ []) : ∃ branch, bs[0]? = some branch ∧ branch.body = c.firstBlock := by
  unfold Compiled.firstBlock at hne ⊢
  rw [h] at hne ⊢
  match bs with
  | [] => exact absurd rfl hne
  | branch :: _ => exact ⟨branch, rfl, rfl⟩

section Programs

variable (hi : (Drive.calls fuel).Isolated) (hp : (Drive.calls fuel).Prompt ∨ P)

/-- A command is about to be run at a place. -/
structure AtPlace (P : Prop) (q : QueueRef) (n : EntryRef) (p : Place) (e : Engine) : Prop where
  taken : Taken P q n p.pending e
  stands : p.Stands q [n] e

include hi hp

/-- A leaf. -/
theorem goes_leaf (h : AtPlace P q n p e) (hleaf : isLeaf (e.entry n).code.handler.behaviour) :
    Goes P fuel seconds q [n] p e ((do
      let _ ← serve (Drive.calls fuel) seconds q n p.pending (Commands.execute (Drive.calls fuel) n)
      pure .done : Action Exit) e) := by
  have served := serve_served seconds hi hp h.taken (Commands.execute (Drive.calls fuel) n)
    (Q := fun _ z => (z.queue q).pending = p.pending) (fun _ _ _ hr hq => hr.pending.trans hq)
    fun x hx => serves_leaf h.taken hx hleaf
  exact served.bind rfl (fun _ _ hg => hg.elim) fun _ e' advances hq => .inr ⟨advances, congrArg some hq.symm⟩

/-- A condition, given what its blocks lead to. -/
theorem goes_condition (h : AtPlace P q n p e) (hb : (e.entry n).code.handler.behaviour = .condition)
    (blocks : Nat → List EntryRef → Place → Action Exit)
    (hblocks : ∀ {i branch}, ((e.entry n).code.branches.getD [])[i]? = some branch →
      RunsBody P fuel seconds q branch.body (blocks i)) :
    Goes P fuel seconds q [n] p e ((do
      match ← serve (Drive.calls fuel) seconds q n p.pending (choice (Drive.calls fuel) q n) with
      | some (some (i, ns)) => blocks i ns p
      | _ => pure .done : Action Exit) e) := by
  have served := serve_served seconds hi hp h.taken (choice (Drive.calls fuel) q n)
    (fun _ _ _ hr hq => hq.remains hr) fun x hx => serves_choice hi hp h.taken hx hb
  refine served.bind rfl (fun _ _ hg => hg.elim) fun a e' advances hq => ?_
  match a, hq with
  | none, hq => exact .inr ⟨advances, congrArg some hq.symm⟩
  | some (i, ns), ⟨branch, hbranch, laid, hpending⟩ =>
    have fresh {Y : List EntryRef} : ∀ m ∈ ns, m < e.entries.size → m ∈ Y := fun m hm hlt =>
      absurd (Nat.lt_of_lt_of_le hlt (laid.new m hm)) (Nat.lt_irrefl _)
    exact (hblocks hbranch advances.ready laid hpending (h.stands.moves advances.moves fresh)).from
      advances fresh

/-- A command for loops, given what its block leads to.  It gets as far as a round only if it has one. -/
theorem goes_loop (h : AtPlace P q n p e) (hb : (e.entry n).code.handler.behaviour = .loop)
    (hmark : (e.entry n).code.isMarked = false)
    {rounds : Rounds → Int → Nat → List EntryRef → EntryRef → Action Exit}
    (hrounds : (e.entry n).code.firstBlock ≠ [] → ∃ body,
      RunsBody P fuel seconds q (e.entry n).code.firstBlock body ∧
        ∀ r first more ns mark, rounds r first more ns mark =
          iterate seconds q r p.pending body more first ns mark) :
    Goes P fuel seconds q [n] p e ((do
      match ← serve (Drive.calls fuel) seconds q n p.pending (control (Drive.calls fuel) q n p) with
      | some (.leave exit) => pure exit
      | some (.enter r first more ns mark) => rounds r first more ns mark
      | _ => pure .done : Action Exit) e) := by
  have served := serve_served seconds hi hp h.taken (control (Drive.calls fuel) q n p)
    (fun _ _ _ hr hq => hq.remains hr) fun x hx => serves_control hi hp h.taken hx hb hmark h.stands rfl
  refine served.bind rfl (fun _ _ hg => by rw [hg]; rfl) fun c e' advances hq => ?_
  match c, hq with
  | .pass, hq => exact .inr ⟨advances, congrArg some hq.symm⟩
  | .leave exit, hq => exact .inr ⟨advances, hq⟩
  | .enter r first more ns mark, ⟨howner, hne, round, hpending⟩ =>
    subst howner
    have here : (e'.entry r.owner).firstBlock ≠ [] := round.body ▸ hne
    have furnished := advances.ready.healthy.tidy.based.furnished r.owner
    obtain ⟨body, hbody, heq⟩ := hrounds fun hnil => by
      rw [← advances.moves.code h.taken.live.1] at hnil
      exact here (List.map_eq_nil_iff.1 (furnished.firstBlock.trans hnil))
    show Goes P fuel seconds q [r.owner] p e (rounds r first more ns mark e')
    rw [heq]
    exact goes_iterate hi h.taken.live.1 hbody (Nat.le_refl _) (sits_moves advances.moves h.stands.sits) advances round
      hpending

omit hi hp in
/-- The first command of a block is at its place. -/
theorem AtPlace.first {b : Nat} {c : Compiled} {cs : List Compiled} (ready : Ready P q e)
    (hcs : Compiled.isBlock (c :: cs) = true) (laid : Laid q b (c :: cs) (n :: ns) e)
    (hpending : (e.queue q).pending = n :: ns ++ p.pending) (stands : p.Stands q (n :: ns) e) :
    AtPlace P q n { p with rest := ns ++ p.rest } e := by
  have written (m : EntryRef) (hm : m ∈ n :: ns) : Written (e.entry m).code :=
    written_of_isProgram (isProgram_of_isBlock hcs
      (laid.codes ▸ List.mem_map_of_mem (f := fun m => (e.entry m).code) hm))
  have behind : Place.pending { p with rest := ns ++ p.rest } = ns ++ p.pending := List.append_assoc ..
  have sits : ∀ m ∈ ns ++ p.pending, m < e.entries.size ∧ (e.entry m).residing = some q := fun m hm =>
    (List.mem_append.1 hm).elim (fun hm => ⟨laid.tail.size m hm, laid.tail.residing m hm⟩) (stands.sits m)
  refine ⟨⟨ready, hpending.trans (behind ▸ rfl), laid.residing n List.mem_cons_self,
    (written n List.mem_cons_self).isLocal⟩, ?_, ?_, ?_⟩
  · exact fun m hm => (List.mem_append.1 hm).elim
      (fun hm => (written m (List.mem_cons_of_mem _ hm)).isLoopMark rfl) (stands.plain m)
  · rw [behind]
    exact sits
  · exact (stands.mono fun m hm => List.mem_singleton.1 hm ▸ List.mem_cons_self).loop

end Programs

mutual

/-- A command leads to where the queue gets. -/
theorem goes_single (hi : (Drive.calls fuel).Isolated) (hp : (Drive.calls fuel).Prompt ∨ P)
    (c : Compiled) (hc : c.isProgram = true) {n : EntryRef} {p : Place} {e : Engine}
    (h : AtPlace P q n p e) (hcode : (e.entry n).code = c) :
    Goes P fuel seconds q [n] p e (single (Drive.calls fuel) seconds q c n p e) := by
  have written := written_of_isProgram hc
  match c with
  | { handler, branches, .. } =>
    have hhandler : (e.entry n).code.handler = handler := congrArg Compiled.handler hcode
    have hbranches : (e.entry n).code.branches = branches := congrArg Compiled.branches hcode
    unfold single
    rcases written.behaviour with hb | hb | hb <;> dsimp only at hb
    · have leaf : isLeaf (e.entry n).code.handler.behaviour := hhandler ▸ hb
      rcases hb with hb | hb | hb <;> rw [hb] <;> exact goes_leaf hi hp h leaf
    · rw [hb]
      match branches with
      | none =>
        refine goes_condition hi hp h (hhandler ▸ hb) (fun _ _ _ => pure .done) fun {i branch} hbranch => ?_
        rw [hbranches] at hbranch
        exact nomatch hbranch
      | some bs =>
        refine goes_condition hi hp h (hhandler ▸ hb) (chosen (Drive.calls fuel) seconds q bs)
          fun {i branch} hbranch => ?_
        rw [hbranches] at hbranch
        exact runsBody_chosen hi hp bs (written.branches bs rfl) hbranch
    · rw [hb]
      have marked : (e.entry n).code.isMarked = false := hcode ▸ written.isMarked
      match branches with
      | none =>
        exact goes_loop hi hp h (hhandler ▸ hb) marked fun hne => absurd (firstBlock_of_none hbranches) hne
      | some bs =>
        refine goes_loop hi hp h (hhandler ▸ hb) marked fun hne => ?_
        obtain ⟨branch, hbranch, hbody⟩ := firstBlock_of_some hbranches hne
        exact ⟨_, hbody ▸ runsBody_chosen hi hp bs (written.branches bs rfl) hbranch, fun _ _ _ _ _ => rfl⟩

/-- A block leads to where the queue gets. -/
theorem runsBody_block (hi : (Drive.calls fuel).Isolated) (hp : (Drive.calls fuel).Prompt ∨ P)
    (cs : List Compiled) (hcs : Compiled.isBlock cs = true) :
    RunsBody P fuel seconds q cs (block (Drive.calls fuel) seconds q cs) := by
  intro b ns p e ready laid hpending stands
  match cs, ns with
  | [], [] =>
    unfold block
    exact .inr ⟨⟨.refl e, ready, .refl q [] e⟩, congrArg some hpending.symm⟩
  | c :: cs, n :: ns =>
    have first := AtPlace.first ready hcs laid hpending stands
    unfold Compiled.isBlock at hcs
    obtain ⟨hc, hcs⟩ := Bool.and_eq_true_iff.1 hcs
    unfold block
    refine Goes.bind (goes_single hi hp c hc first (List.cons.inj laid.codes).1) (fun _ => .inl rfl)
      fun exit e₁ advances hafter => ?_
    have head : e.Moves q (n :: ns) e₁ := advances.moves.mono fun m hm =>
      List.mem_singleton.1 hm ▸ List.mem_cons_self
    have reached : Advances P fuel seconds q (n :: ns) e e₁ := { advances with moves := head }
    cases exit with
    | beyond => exact .inl rfl
    | done =>
      have pending : (e₁.queue q).pending = ns ++ p.pending :=
        (Option.some.inj hafter).symm.trans (List.append_assoc ..)
      have behind : ∀ m ∈ ns, m < e.entries.size → m ∈ n :: ns := fun m hm _ => List.mem_cons_of_mem _ hm
      exact (runsBody_block hi hp cs hcs advances.ready (laid.tail.moves advances.moves) pending
        (stands.moves head behind)).from reached behind
    | next => exact .inr ⟨reached, hafter⟩
    | stop => exact .inr ⟨reached, hafter⟩
  | [], n :: ns => exact nomatch laid.codes
  | c :: cs, [] => exact nomatch laid.codes

/-- A chosen block leads to where the queue gets. -/
theorem runsBody_chosen (hi : (Drive.calls fuel).Isolated) (hp : (Drive.calls fuel).Prompt ∨ P)
    (bs : List (Branch Compiled)) (hbs : Compiled.arePrograms bs = true) {i : Nat} {branch : Branch Compiled}
    (hb : bs[i]? = some branch) :
    RunsBody P fuel seconds q branch.body (chosen (Drive.calls fuel) seconds q bs i) := by
  intro b ns p e ready laid hpending stands
  match bs, i with
  | ⟨_, _, body⟩ :: _, 0 =>
    cases hb
    unfold Compiled.arePrograms at hbs
    unfold chosen
    exact runsBody_block hi hp body (Bool.and_eq_true_iff.1 hbs).1 ready laid hpending stands
  | ⟨_, _, body⟩ :: rest, i + 1 =>
    unfold Compiled.arePrograms at hbs
    unfold chosen
    exact runsBody_chosen hi hp rest (Bool.and_eq_true_iff.1 hbs).2 hb ready laid hpending stands
  | [], _ => cases hb

end

end QueueScript.Structured
