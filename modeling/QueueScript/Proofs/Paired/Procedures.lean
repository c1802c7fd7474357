import QueueScript.Proofs.Paired.Commands
import QueueScript.Proofs.Structured.Serving

/-!
# Procedures side by side

Only commands that touch nothing but their queue get to run in a procedure, and the queue and the entries
of a procedure are made when it is called.  So a procedure goes alike on two engines that look alike and
have the same queues and entries from then on (`Paired.Owning`), by induction on how deep procedures nest
(`Drive.paired_calls`).  The same holds for all that an entry does before its command
(`executeWith_twin`), and for the whole run of an entry whose command touches nothing but its queue
(`ends_execute`).
-/

namespace QueueScript

/-- Procedures go alike on engines that are related, if the entries `D` are live. -/
def Calls.Oblivious (R : Pairing) (k : QueueRef) (D : List EntryRef) (calls : Calls) : Prop :=
  ∀ (name : String) (args : List Value) (e e' : Engine), e.Healthy → k ≤ e.queues.size →
    (∀ n ∈ D, e.Live n) → R e e' → Paired.Ends R Eq (calls.procedure name args e) (calls.procedure name args e')

namespace Paired

open Executor Discipline

variable {α : Type} {R : Pairing} {k : QueueRef} {D : List EntryRef} {m : EntryRef}
  {calls : Calls} {e e' e₀ : Engine} {s s' : Scope}

/-! ## Before a command -/

/-- Engines that are related, and what the entry `m` does before its command may have led from `e₀` to the
first one. -/
abbrev Within (R : Pairing) (m : EntryRef) (e₀ : Engine) : Pairing :=
  With R ((apart m True).Step e₀)

section Within

variable (hA : Acting R)

include hA

/-- What was resolved may be written on an entry that is live. -/
theorem noting_within (hm : e₀.Live m) : Noting (Within R m e₀) m := by
  have own {x : Engine} (h : (apart m True).Step e₀ x) : (apart m True).own x m :=
    (apart m True).own_mono h.2 ⟨rfl, hm⟩
  exact {
    toBlind := hA.toBlind.with fun event s h =>
      h.trans ((Apart.bookkeeping m True).emit event s h.1)
    jot := fun hf hw h =>
      ⟨hA.changeEntry m hw h.1, h.2.trans ((Apart.bookkeeping m True).jot h.2.1 (own h.2) hf)⟩
    finish := fun h => ⟨hA.changeEntry m (fun _ _ => rfl) h.1,
      h.2.trans ((Apart.bookkeeping m True).finish h.2.1 (own h.2)).1⟩ }

omit hA in
/-- Places are seen alike before a command too. -/
theorem seen_within (hs : Seen R s s') : Seen (Within R m e₀) s s' :=
  hs.with fun event s h => h.trans ((Apart.bookkeeping m True).emit event s h.1)

omit hA in
/-- Procedures are called alike before a command. -/
theorem calling_within (hc : calls.Oblivious R k D) (hi : calls.Isolated) (hk : k ≤ e₀.queues.size)
    (hD : ∀ n ∈ D, e₀.Live n) :
    Calling (Within R m e₀) calls := by
  refine fun name args => ⟨fun {e e'} h => ?_⟩
  have leaves := (Apart.procedureSafe (n := m) (P := True) hi (.inr trivial) e name args).run e h.2.1
    ((apart m True).refl e)
  refine (hc name args e e' h.2.1.1 (Nat.le_trans hk h.2.2.queues) (fun n hn => h.2.2.live (hD n hn)) h.1).with
    fun hr => ?_
  exact h.2.trans (leaves.step hr)

omit hA in
/-- An entry gets to its command alike. -/
theorem twin_enter (hR : Noting R m) (hc : Calling R calls) (hs : Seen R s s') :
    Twin R (enter calls m s) (enter calls m s') := by
  refine alike_entry hR.toBlind fun x w => twin_bind (steady_prelude hR hc none _) fun first => ?_
  cases first with
  | skip outcome =>
    refine twin_bind (twin_trace _ hs) fun _ => ?_
    exact twin_bind (twin_change fun _ _ h => hR.finish h) fun _ => steady_pure none
  | run saveAs =>
    refine twin_bind (steady_resolveArguments hR hc) fun _ => ?_
    exact twin_bind (steady_parse hR hc) fun _ => steady_pure (some saveAs)

/-- An entry is left alike. -/
theorem steady_leave (m : EntryRef) (saveAs : Option String) : Steady R (leave m saveAs) := by
  have rest : Steady R (do
      if !(← Action.entry m).code.handler.isHoldable then
        Entries.finish m) := by
    refine alike_entry hA.toBlind fun x w => ?_
    show Steady R (if !x.code.handler.isHoldable then Entries.finish m else pure ())
    split
    · exact steady_finish hA m
    · exact steady_pure ()
  cases saveAs with
  | none => exact rest
  | some name =>
    refine twin_bind (twin_bind (steady_residingQueue hA.toBlind m) fun found => ?_) fun _ => rest
    cases found with
    | some q => exact steady_changeMemory hA q _
    | none => exact steady_pure ()

/-- The entry is announced. -/
theorem related_announced (h : R e e') : R (announced m e) (announced m e') := by
  unfold announced
  rw [(hA.resembles h).residingQueue m]
  exact hA.announce m (fun x => x.code.render) (hA.changeEntry m (fun _ _ => rfl) h)

/-- The entry is announced from places from which the same may be shown, and as a command with the same
faults. -/
theorem seen_announced (h : R e e') : Seen R (announcedScope m e) (announcedScope m e') ∧
    (announcedCode m e').keyword = (announcedCode m e).keyword ∧
    ∀ f, failureText (announcedCode m e') f = failureText (announcedCode m e) f := by
  unfold announcedScope announcedCode
  rw [(hA.resembles h).residingQueue m]
  have related := hA.changeEntry m (f := ({ · with context := e.residingQueue m })) (fun _ _ => rfl) h
  refine ⟨hA.scope m related, (hA.resembles related).seeEntry (f := fun x => x.code.keyword) ?_ m,
    fun f => (hA.resembles related).seeEntry (f := fun x => failureText x.code f) ?_ m⟩
  · exact fun _ _ => rfl
  · intro x w
    cases f <;> rfl

/-- A failure is reported, and the entry is done. -/
theorem related_failed (message : String) (f : Option Failure) (hs : Seen R s s') (h : R e e') :
    R ((e.emit (.error message s f) s).changeEntry m ({ · with isFinished := true }))
      ((e'.emit (.error message s' f) s').changeEntry m ({ · with isFinished := true })) :=
  hA.changeEntry m (fun _ _ => rfl) (hs.emit (Event.error message · f) (fun _ _ => rfl) h)

/-- An entry is refused on both engines or on none. -/
theorem isRefused_same (h : R e e') (m : EntryRef) : isRefused e' m = isRefused e m := by
  have handler := (hA.resembles h).seeEntry (f := fun x => x.code.handler) (fun _ _ => rfl) m
  have procedural : (fun q => (e'.queue q).isProcedural) = fun q => (e.queue q).isProcedural :=
    funext ((hA.resembles h).seeQueue (f := Queue.isProcedural) fun _ _ => rfl)
  unfold isRefused
  rw [handler, (hA.resembles h).residingQueue m, procedural]

/-- A run ends before its command, or is cut off, or gets to its command, alike on both engines. -/
theorem executeWith_twin (hc : calls.Oblivious R k D) (hi : calls.Isolated) (hk : k ≤ e.queues.size)
    (hD : ∀ n ∈ D, e.Live n) (he : e.Healthy) (hm : e.Live m) (h : R e e') :
    (∃ ran y y', Within R m e y y' ∧ (y.entry m).isFinished = true ∧
      ∀ {α β : Type} (act : Action α) (act' : Action β),
        executeWith calls m act e = (.ok (ran, none), y) ∧
        executeWith calls m act' e' = (.ok (ran, none), y')) ∨
    (∃ y y', R.cut y y' ∧ ∀ {α β : Type} (act : Action α) (act' : Action β),
      executeWith calls m act e = (.error .exhausted, y) ∧
      executeWith calls m act' e' = (.error .exhausted, y')) ∨
    isRefused (announced m e) m = false ∧ ∃ code code' scope scope' saveAs x x',
      Within R m e x x' ∧ Seen R scope scope' ∧ (∀ f, failureText code' f = failureText code f) ∧
      ∀ {α β : Type} (act : Action α) (act' : Action β),
        executeWith calls m act e = conclude m code scope saveAs (act x) ∧
        executeWith calls m act' e' = conclude m code' scope' saveAs (act' x') := by
  have noting : (apart m True).Noting := Apart.bookkeeping m True
  have first := step_announced (n := m) noting (e := e) ⟨he, fun _ => trivial⟩ ⟨rfl, hm⟩
  have own := (apart m True).own_mono first.2 ⟨rfl, hm⟩
  have related := related_announced (m := m) hA h
  have same := isRefused_same hA related m
  obtain ⟨seen, keyword, text⟩ := seen_announced (m := m) hA h
  -- The end of an entry that is refused or fails.
  have ended {x x' : Engine} (hx : Within R m e x x') (message : String) (f : Option Failure) :
      Within R m e ((x.emit (.error message (announcedScope m e) f) (announcedScope m e)).changeEntry m
          ({ · with isFinished := true }))
        ((x'.emit (.error message (announcedScope m e') f) (announcedScope m e')).changeEntry m
          ({ · with isFinished := true })) ∧
      (((x.emit (.error message (announcedScope m e) f) (announcedScope m e)).changeEntry m
        ({ · with isFinished := true })).entry m).isFinished = true := by
    obtain ⟨step, marked⟩ := step_failed noting hx.2.1
      ((apart m True).own_mono hx.2.2 ⟨rfl, hm⟩) (.error message (announcedScope m e) f) (announcedScope m e)
    exact ⟨⟨related_failed hA message f seen hx.1, hx.2.trans step⟩, marked.2⟩
  cases hr : isRefused (announced m e) m with
  | true =>
    obtain ⟨within, marked⟩ := ended ⟨related, first⟩ ("The command '" ++
      (announcedCode m e).keyword ++ "' cannot be used in a procedure.") none
    refine .inl ⟨false, _, _, within, marked, fun act act' => ⟨executeWith_of_refused hr act, ?_⟩⟩
    rw [executeWith_of_refused (same.trans hr) act', keyword]
  | false =>
    have entered := (twin_enter (noting_within hA hm) (calling_within hc hi hk hD)
      (seen_within seen)).run ⟨related, first⟩
    have given := (gives_enter noting (Apart.procedureSafe hi (.inr trivial)) own
      (announcedScope m e)).run _ first.1 ((apart m True).refl _)
    have eq {α : Type} (act : Action α) : executeWith calls m act e = _ := executeWith_of_passes hr act
    have eq' {α : Type} (act : Action α) : executeWith calls m act e' = _ :=
      executeWith_of_passes (same.trans hr) act
    generalize enter calls m (announcedScope m e) (announced m e) = r at entered given eq
    generalize enter calls m (announcedScope m e') (announced m e') = r' at entered eq'
    obtain ⟨f | found, x⟩ := r <;> obtain ⟨f' | found', x'⟩ := r'
    · obtain ⟨rfl, cut, engines⟩ := entered
      by_cases hf : f = .exhausted
      · cases hf
        exact .inr (.inl ⟨x, x', cut, fun act act' => ⟨eq act, eq' act'⟩⟩)
      · obtain ⟨within, marked⟩ := ended (engines hf)
          (failureText (announcedCode m e) f) (some f)
        refine .inl ⟨false, _, _, within, marked, fun act act' => ⟨(eq act).trans ?_, (eq' act').trans ?_⟩⟩
        all_goals
          cases f with
          | exhausted => exact absurd rfl hf
          | _ =>
            dsimp only [failed]
            try rw [text]
    · exact entered.elim
    · exact entered.elim
    · obtain ⟨rfl, within⟩ := entered
      cases found with
      | none => exact .inl ⟨true, x, x', within, (given.2 rfl).2, fun act act' => ⟨eq act, eq' act'⟩⟩
      | some saveAs =>
        exact .inr (.inr ⟨rfl, _, _, _, _, saveAs, x, x', within, seen, text,
          fun act act' => ⟨eq act, eq' act'⟩⟩)

end Within

/-! ## Commands that touch nothing but their queue -/

section Local

/-- The entries `D` are live still while an entry runs. -/
theorem spares_within (hD : ∀ n ∈ D, e₀.Live n) (h : Within R m e₀ e e') : With R (Spares D) e e' :=
  ⟨h.1, h.2.1.1.tidy.based, fun n hn => (h.2.2.live (hD n hn)).2⟩

/-- What follows a command, which ended alike, goes alike. -/
theorem ends_conclude (hA : Acting R) {r r' : Except Failure α × Engine} (h : Ends R Eq r r')
    {code code' : Compiled} (ht : ∀ f, failureText code' f = failureText code f) (hs : Seen R s s') (saveAs : Option String) :
    Ends R Eq (conclude m code s saveAs r) (conclude m code' s' saveAs r') := by
  obtain ⟨f | a, x⟩ := r <;> obtain ⟨f' | a', x'⟩ := r'
  · obtain ⟨rfl, cut, engines⟩ := h
    have reported (hf : f ≠ .exhausted) : R (failed m code s f x) (failed m code' s' f x') := by
      unfold failed
      rw [ht]
      exact related_failed hA (failureText code f) (some f) hs (engines hf)
    cases f with
    | exhausted => exact .exhausted cut
    | _ => exact ⟨rfl, reported nofun⟩
  · exact h.elim
  · exact h.elim
  · have left := ((steady_leave hA m saveAs).run h.2).eq
    rw [leave_ok, leave_ok] at left
    exact ⟨by rw [h.1], left.2.2 nofun⟩

variable (hO : Owning R k D)

include hO

/-- A command on engines of which the first one is healthy. -/
theorem ends_conditionExecute (hc : Calling (Within R m e₀) calls) (hm : e₀.Live m)
    (hD : ∀ n ∈ D, e₀.Live n) (h : Within R m e₀ e e') :
    Ends R Eq (Commands.Condition.execute calls m e) (Commands.Condition.execute calls m e') := by
  have hR := (noting_within hO.toActing hm).toBlind
  have hB := hO.toBlind
  refine ((steady_requireQueue hR m).run h).bind (finer_with R _) ?_
  rintro q _ e₁ e₁' rfl h₁
  -- The blocks are those that the entry had at first.
  refine ends_look (f := fun x => (x.entry m).blocks) ?_ ?_
  · exact (hO.resembles h₁.1).seeEntry (f := Entry.blocks) (fun _ _ => rfl) m
  rw [h₁.2.2.blocks hm.1]
  refine ((alike_choose hR hc m 0 (e₀.entry m).blocks).run h₁).bind (finer_with R _) ?_
  rintro found _ e₃ e₃' ⟨rfl, chosen⟩ h₃
  cases found with
  | none => exact (steady_report hB m _).run h₃.1
  | some found =>
    refine ((steady_report hR m _).run h₃).bind (finer_with R _) fun _ _ x x' _ hx => ?_
    refine ends_injectBlock hO m q (spares_within hD hx) fun k hk => hx.2.2.kept (.inr ⟨m, ?_⟩)
    exact Entry.mem_inner (chosen _ rfl) hk

/-- A loop is executed alike, as a control, at its mark or at its start. -/
theorem ends_loopExecute (hc : Calling (Within R m e₀) calls) (hm : e₀.Live m)
    (hD : ∀ n ∈ D, e₀.Live n) (h : Within R m e₀ e e') :
    Ends R Eq (Commands.Loop.execute calls m e) (Commands.Loop.execute calls m e') := by
  have hR := (noting_within hO.toActing hm).toBlind
  -- A flag is looked up on healthy engines, and what follows is done on any of these.
  have asked (word : String) {f g : Action Unit}
      (hf : ∀ e e', Within R m e₀ e e' → Ends R Eq (f e) (f e'))
      (hg : ∀ e e', Within R m e₀ e e' → Ends R Eq (g e) (g e')) {e e' : Engine}
      (h : Within R m e₀ e e') : Ends R Eq
        ((do if ← Entries.flag calls m word then f else g : Action Unit) e)
        ((do if ← Entries.flag calls m word then f else g : Action Unit) e') := by
    refine ((steady_flag hR hc m word).run h).bind (finer_with R _) ?_
    rintro b _ e₁ e₁' rfl h₁
    cases b with
    | true => exact hf _ _ h₁
    | false => exact hg _ _ h₁
  refine ((steady_requireQueue hR m).run h).bind (finer_with R _) ?_
  rintro q _ e₁ e₁' rfl h₁
  refine asked _ (fun _ _ h => (steady_endEarly hO.toActing m q true).run h.1) (fun _ _ h₂ => ?_) h₁
  refine asked _ (fun _ _ h => (steady_endEarly hO.toActing m q false).run h.1) (fun _ _ h₃ => ?_) h₂
  refine asked _ (fun _ _ h₄ => ?_) (fun _ _ h₄ => ?_) h₃
  · exact ends_iterate hO q (spares_within hD h₄) fun owner ho => (h₄.2.1.1.tidy.owner ho).2
  · refine ends_startLoop hO q (spares_within (fun n hn => ?_) h₄)
    exact (List.mem_cons.1 hn).elim (fun same => same ▸ hm) (hD n)

/-- A command that touches nothing but its queue is executed alike. -/
theorem ends_localExecute (hc : Calling (Within R m e₀) calls) (hm : e₀.Live m)
    (hD : ∀ n ∈ D, e₀.Live n)
    (hl : (e.entry m).code.handler.behaviour.isLocal = true) (h : Within R m e₀ e e') :
    Ends R Eq (Commands.execute calls m e) (Commands.execute calls m e') := by
  refine ends_entry (hO.resembles h.1) fun w => ?_
  rw [Entry.waiting_handler]
  generalize (e.entry m).code.handler.behaviour = behaviour at hl ⊢
  cases behaviour with
  | stub => exact (steady_pure ()).run h.1
  | debug => exact (steady_debugExecute hO.toActing m).run h.1
  | define => exact (steady_defineExecute hO.toActing m).run h.1
  | determine => exact (steady_determineExecute hO.toActing m).run h.1
  | stop => exact (steady_stopExecute hO.toActing m).run h.1
  | condition => exact ends_conditionExecute hO hc hm hD h
  | loop => exact ends_loopExecute hO hc hm hD h
  | _ => cases hl

/-- An entry whose command touches nothing but its queue runs alike. -/
theorem ends_execute (hc : calls.Oblivious R k D) (hi : calls.Isolated) (hk : k ≤ e.queues.size)
    (hD : ∀ n ∈ D, e.Live n) (he : e.Healthy) (hm : e.Live m) (h : R e e')
    (hl : isRefused (announced m e) m = false →
      ((announced m e).entry m).code.handler.behaviour.isLocal = true) :
    Ends R Eq (execute calls m e) (execute calls m e') := by
  have forget {r r' : Except Failure (Bool × Option Unit) × Engine}
      (hr : Ends R Eq r r') : Ends R Eq (ran r) (ran r') := by
    obtain ⟨f | a, x⟩ := r <;> obtain ⟨f' | a', x'⟩ := r'
    · exact hr
    · exact hr.elim
    · exact hr.elim
    · exact ⟨by rw [hr.1], hr.2⟩
  let act := Commands.execute calls m
  rw [execute_eq, execute_eq]
  refine forget ?_
  obtain ⟨ran, y, y', within, -, eq⟩ | ⟨y, y', cut, eq⟩ |
    ⟨hr, code, code', scope, scope', saveAs, x, x', within, seen, text, eq⟩ :=
      executeWith_twin hO.toActing hc hi hk hD he hm h
  · rw [(eq act act).1, (eq act act).2]
    exact ⟨rfl, within.1⟩
  · rw [(eq act act).1, (eq act act).2]
    exact .exhausted cut
  · rw [(eq act act).1, (eq act act).2]
    refine ends_conclude hO.toActing (ends_localExecute hO (calling_within hc hi hk hD) hm hD ?_ within) text seen _
    have noting : (apart m True).Noting := Apart.bookkeeping m True
    have announced := step_announced (n := m) noting (e := e) ⟨he, fun _ => trivial⟩ ⟨rfl, hm⟩
    rw [within.2.2.code hm.1, ← announced.2.code hm.1]
    exact hl hr

end Local

/-! ## Turns of the queue of a procedure -/

section Turns

variable {b : Engine} {p : QueueRef}

/-- Engines that are related, while a procedure runs on the queue `p` of the first one. -/
abbrev Running (R : Pairing) (b : Engine) (p : QueueRef) : Pairing :=
  With R (Inside.Ready b p)

/-- What is done alike and keeps the discipline of the procedure. -/
theorem steady_running {a : Action α} (ha : Steady R a) (hs : ∀ e₀, (inside b p).Safe e₀ a) :
    Steady (Running R b p) a := by
  refine ⟨fun {e e'} h => (ha.run h.1).with fun hr => ?_⟩
  exact h.2.later (((hs e).run e h.2.1 ((inside b p).refl e)).step hr)

/-- A queue is active on both engines or on none. -/
theorem isActive_same (hA : Acting R) (h : R e e') (p : QueueRef) : Drive.isActive e' p = Drive.isActive e p :=
  (hA.resembles h).seeQueue (f := fun x => x.state == .running && x.replacedBy.isNone) (fun _ _ => rfl) p

variable (hO : Owning R k D)

include hO

/-- The entry that a queue from `k` on ran last is seen alike. -/
theorem last_same (h : R e e') (hk : k ≤ p) {f : Entry → α} :
    (e'.queue p).last.map (fun m => f (e'.entry m)) = (e.queue p).last.map fun m => f (e.entry m) := by
  obtain ⟨queue, entry⟩ := hO.own hk h
  rw [queue]
  cases hl : (e.queue p).last with
  | none => rfl
  | some m => exact congrArg (fun x => some (f x)) (hO.entry (entry m hl) h)

/-- A queue from `k` on waits on both engines or on none. -/
theorem isWaiting_same (h : R e e') (hk : k ≤ p) : Drive.isWaiting e' p = Drive.isWaiting e p := by
  have any (x : Engine) : Drive.isWaiting x p =
      (((x.queue p).last.map fun m => (x.entry m).isAwaited).getD false) := by
    unfold Drive.isWaiting
    cases (x.queue p).last <;> rfl
  rw [any, any, last_same hO (f := Entry.isAwaited) h hk]

variable (hc : calls.Oblivious R k D) (hi : calls.Isolated)

include hc hi

/-- A queue to which only its own commands may do something is back from an entry that it has begun. -/
theorem ends_returns {K : Charter} (h : R e e') (he : (confined K b p).inv e)
    (hm : (confined K b p).placed e p m) (hk : k ≤ e.queues.size) (hD : ∀ n ∈ D, e.Live n) :
    let returns : Action Bool := do
      let ran ← execute calls m
      Drive.note (.returned p m ran)
      pure ran
    Ends R Eq (returns e) (returns e') := by
  refine (ends_execute hO hc hi hk hD he.1 hm.1.inner.live h fun hr => ?_).bind (.refl R) ?_
  · have noting : (confined K b p).Noting := Inside.bookkeeping.toNoting
    have announced := step_announced noting he hm.1
    exact Inside.isLocal announced.1 ((confined K b p).placed_mono announced.2 hm) hr
  · rintro ran _ y y' rfl hy
    exact (twin_bind (steady_note hO _) fun _ => steady_pure ran).run hy

variable (hk : k ≤ p) (hD : ∀ n ∈ D, b.Live n)

include hk hD

/-- A procedure runs an entry alike. -/
theorem ends_runEntry (h : Running R b p e e') (hm : (inside b p).placed e p m) :
    Ends R Eq (Drive.runEntry calls p m e) (Drive.runEntry calls p m e') := by
  let began (before : Queue) (previous : Option Entry) (e : Engine) : Engine :=
    Engine.changeQueue { e with journal := .began p m before previous :: e.journal } p
      ({ · with last := some m })
  let rest : Action Bool := do
    let ran ← execute calls m
    Drive.note (.returned p m ran)
    pure ran
  have previous : (e'.queue p).last.map e'.entry = (e.queue p).last.map e.entry :=
    last_same hO (f := id) h.1 hk
  let x := began (e.queue p) ((e.queue p).last.map e.entry) e
  let x' := began (e.queue p) ((e.queue p).last.map e.entry) e'
  show Ends _ _ (rest x) (rest (began (e'.queue p) ((e'.queue p).last.map e'.entry) e'))
  rw [previous, (hO.own hk h.1).1]
  have made : m ∉ D := fun hn => absurd (hD m hn).1 (Nat.not_lt.2 hm.1.inner.old)
  have related : R x x' := hO.last p made (hO.note _ h.1)
  have noted := Inside.note h.2.1 (s := .began p m (e.queue p) ((e.queue p).last.map e.entry)) rfl
  have step : (inside b p).Step e x := noted.trans (Inside.last noted.1 ((inside b p).own_mono noted.2 hm.1))
  exact ends_returns hO hc hi related step.1 ((inside b p).placed_mono step.2 hm)
    (Nat.le_trans hk (Nat.le_of_lt step.1.2.here)) fun n hn => step.1.2.live (hD n hn)

/-- The queue of a procedure takes its steps alike. -/
theorem steady_step : Steady (Running R b p) (Drive.step calls p) := by
  refine ⟨fun {e e'} h => Ends.with ?_ fun hr => h.2.later ((Inside.leaves_turn hi h.2).step hr)⟩
  have active := isActive_same hO.toActing h.1 p
  have waiting := isWaiting_same hO h.1 hk
  have queue := (hO.own hk h.1).1
  cases ha : Drive.isActive e p with
  | false =>
    rw [Drive.step_of_inactive ha, Drive.step_of_inactive (active.trans ha)]
    exact ⟨rfl, h.1⟩
  | true =>
  cases hw : Drive.isWaiting e p with
  | true =>
    rw [Drive.step_of_waiting hw, Drive.step_of_waiting (waiting.trans hw)]
    exact ⟨rfl, h.1⟩
  | false =>
  cases hp : (e.queue p).pending with
  | nil =>
    rw [Drive.step_of_empty ha hw hp,
      Drive.step_of_empty (active.trans ha) (waiting.trans hw) (by rw [queue, hp])]
    exact (twin_bind (steady_finishQueue hO.toActing p) fun _ => steady_pure false).run h.1
  | cons m rest =>
    rw [Drive.step_of_pending ha hw hp,
      Drive.step_of_pending (active.trans ha) (waiting.trans hw) (by rw [queue, hp])]
    have placed : (inside b p).placed e p m := by
      refine Inside.running.waiting h.2.1 rfl ?_
      rw [hp]
      exact List.mem_cons_self
    have step : (inside b p).Step e (e.changeQueue p ({ · with pending := rest })) := by
      refine Inside.blocks.pending (fun _ => rest) h.2.1 rfl fun a ha => .inl ?_
      rw [hp]
      exact List.mem_cons_of_mem _ ha
    have taken : Running R b p (e.changeQueue p ({ · with pending := rest }))
        (e'.changeQueue p ({ · with pending := rest })) :=
      ⟨hO.changeQueue p (fun _ _ => rfl) (fun _ => rfl) h.1, h.2.later step⟩
    -- The queue of a procedure is instant, also when an entry has run.
    have leaves := Inside.runsEntries hi e p m rest h.2.1 rfl hp ha hw h.2.undelayed
    have ran := (ends_runEntry hO hc hi hk hD taken ((inside b p).placed_mono step.2 placed)).with
      (P := fun y => (y.queue p).pace = .instant) fun hr => (h.2.later (leaves.step hr)).2
    refine ran.bind (finer_with R _) ?_
    rintro ran _ y y' rfl hy
    rw [Drive.goesOnAfter_of_instant hy.2, Drive.goesOnAfter_of_instant (by rw [(hO.own hk hy.1).1, hy.2])]
    exact ⟨rfl, hy.1⟩

/-- The queue of a procedure advances alike. -/
theorem steady_advance (fuel : Nat) : Steady (Running R b p) (Drive.advance calls fuel p) :=
  twin_repeatWhile (steady_step hO hc hi hk hD) fuel

/-- The queue of a procedure has its turn alike. -/
theorem steady_heartbeat (fuel : Nat) : Steady (Running R b p) (Drive.heartbeat calls fuel p) := by
  refine ⟨fun {e e'} h => ?_⟩
  have queue := (hO.own hk h.1).1
  by_cases running : (e.queue p).state = .running
  · rw [Drive.heartbeat_of_instant running h.2.2,
      Drive.heartbeat_of_instant (by rw [queue, running]) (by rw [queue, h.2.2])]
    exact (steady_advance hO hc hi hk hD fuel).run h
  · rw [Drive.heartbeat_of_still running, Drive.heartbeat_of_still (by rwa [queue])]
    exact ⟨rfl, h⟩

/-- A procedure is run to completion alike. -/
theorem steady_runToCompletion (fuel : Nat) :
    Steady (Running R b p) (Drive.runToCompletion calls fuel p) := by
  have state : Steady (Running R b p) (Action.queue p) := steady_look fun _ _ h => (hO.own hk h.1).1
  refine twin_bind (twin_bind state fun x => ?_) fun _ => twin_repeatWhile ?_ fuel
  · split
    · exact twin_bind (steady_running (steady_launch hO.toActing p) fun _ => Inside.safe_launch) fun _ =>
        steady_heartbeat hO hc hi hk hD fuel
    · exact steady_pure ()
  · have active : Steady (Running R b p)
        (Action.look fun e => Drive.isActive e p && !Drive.isWaiting e p) := by
      refine steady_look fun e e' h => ?_
      rw [isActive_same hO.toActing h.1 p, isWaiting_same hO h.1 hk]
    refine twin_bind active fun goesOn => ?_
    split
    · exact twin_bind (steady_advance hO hc hi hk hD fuel) fun _ => steady_pure true
    · exact steady_pure false

end Turns

/-! ## Calls of procedures -/

section Calls

/-- A procedure has the same outcome. -/
theorem steady_outcome (hA : Acting R) (q : QueueRef) (name : String) : Steady R (Drive.outcome q name) := by
  have found : Steady R (Action.look (·.determinations? q)) := by
    refine steady_look fun e e' h => ?_
    have kept := (hA.resembles h).seeQueue (f := Queue.determinations) (fun _ _ => rfl) q
    have lists : e'.lists = e.lists := (hA.resembles h).see fun _ _ => rfl
    unfold Engine.determinations?
    rw [kept, lists]
  have value : Steady R (Drive.valueOf q name) := by
    refine twin_bind found fun found => ?_
    split
    · exact steady_pure _
    · exact alike_breakOff _
  refine alike_queue hA.toBlind fun x t => ?_
  show Steady R (if !x.state.isEnd then Queues.stop q >>= fun _ => Drive.valueOf q name
    else Drive.valueOf q name)
  split
  · exact twin_bind (steady_stop hA q) fun _ => value
  · exact value

variable (hO : Owning R k D)

include hO

/-- A script is loaded onto a queue alike. -/
theorem ends_load (q : QueueRef) (i : Nat) (args : List Value) (definitions : List (String × Value))
    (h : With R (Spares D) e e') (hD : ∀ n ∈ D, n < e.entries.size) :
    Ends R Eq (Scripts.load q i args definitions e) (Scripts.load q i args definitions e') := by
  have defined (pairs : List (String × Value)) {x x' : Engine} (hx : With R (Spares D) x x') :
      ∃ memories y', Queues.defineAll q pairs x = (.ok (), { x with memories }) ∧
        Queues.defineAll q pairs x' = (.ok (), y') ∧ With R (Spares D) { x with memories } y' := by
    obtain ⟨memories, run⟩ := Queues.defineAll_eq q pairs x
    have twin := (steady_defineAll hO.toActing q pairs).run hx.1
    rw [run] at twin
    obtain ⟨y', run', related⟩ := twin.ok
    exact ⟨memories, y', run, run', related, hx.2.of_tables rfl rfl⟩
  have parameters : (e'.script i).parameters = (e.script i).parameters :=
    (hO.resembles h.1).seeScript (f := ScriptRecord.parameters) (fun _ _ => rfl) i
  let go (parameters : List String) : Action Unit := do
    Scripts.bindParameters q parameters args
    Queues.defineAll q definitions
    Queues.append q (← Entries.cloneAll (← Scripts.baseEntries i))
  show Ends R Eq (go (e.script i).parameters e) (go (e'.script i).parameters e')
  rw [parameters]
  obtain ⟨_, x₁', run₁, run₁', h₁⟩ := defined ((e.script i).parameters.zip args) h
  obtain ⟨memories, x₂', run₂, run₂', h₂⟩ := defined definitions h₁
  obtain ⟨base, x, run, grows, based, isBase⟩ := Engine.baseEntries_based h₂.2.based i
  have twin := (steady_baseEntries hO.toActing i).run h₂.1
  rw [run] at twin
  obtain ⟨x', run', related⟩ := twin.ok
  have spares : Spares D x := ⟨based, fun n hn hb => h₂.2.apart n hn (grows.base (hD n hn) hb)⟩
  have loaded : Ends R Eq ((Entries.cloneAll base >>= Queues.append q) x)
      ((Entries.cloneAll base >>= Queues.append q) x') :=
    (ends_cloneAll hO ⟨related, spares⟩ isBase).bind (.refl R) fun ns _ _ _ hns h₃ =>
      hns ▸ (steady_append hO.toActing q ns).run h₃
  refine Eq.mpr (congrArg₂ _ ?_ ?_) loaded
  · exact (Action.bind_ok run₁).trans ((Action.bind_ok run₂).trans (Action.bind_ok run))
  · exact (Action.bind_ok run₁').trans ((Action.bind_ok run₂').trans (Action.bind_ok run'))

/-- A procedure goes alike if those that it calls do. -/
theorem ends_runProcedure (hc : calls.Oblivious R k D) (hi : calls.Isolated) (fuel : Nat) (name : String)
    (args : List Value) (he : e.Healthy) (hk : k ≤ e.queues.size) (hD : ∀ n ∈ D, e.Live n)
    (h : R e e') :
    Ends R Eq (Drive.runProcedure calls fuel name args e) (Drive.runProcedure calls fuel name args e') := by
  let run (q : QueueRef) (i : Nat) : Action Value := do
    Scripts.load q i args []
    Drive.runToCompletion calls fuel q
    Drive.outcome q name
  let go (i : Nat) (script : ScriptRef) : Action Value := do
    let q ← Queues.create .instant script.name { isProcedural := true, script := some script }
    run q i
  have named := (steady_procedureNamed hO.toActing name).run h
  obtain ⟨f, hf, found⟩ | ⟨i, found, -⟩ := Drive.procedureNamed_eq name e
  · rw [found] at named
    obtain ⟨x', found', related⟩ := named.error hf
    show Ends _ _ ((Drive.procedureNamed name >>= _) e) ((Drive.procedureNamed name >>= _) e')
    rw [Action.bind_error found, Action.bind_error found']
    exact .fail related
  rw [found] at named
  obtain ⟨x', found', related⟩ := named.ok
  have script : (⟨i, (x'.script i).name⟩ : ScriptRef) = ⟨i, (e.script i).name⟩ :=
    (hO.resembles related).seeScript (f := fun x => (⟨i, x.name⟩ : ScriptRef)) (fun _ _ => rfl) i
  have begun : Drive.runProcedure calls fuel name args e = go i ⟨i, (e.script i).name⟩ e :=
    Action.bind_ok found
  have begun' : Drive.runProcedure calls fuel name args e' = go i ⟨i, (x'.script i).name⟩ x' :=
    Action.bind_ok found'
  rw [begun, begun', script]
  obtain ⟨y, created, ready⟩ := Inside.ready_create he (e.script i).name (some ⟨i, (e.script i).name⟩)
  have made := (steady_createQueue hO.toActing .instant (e.script i).name
    { isProcedural := true, script := some ⟨i, (e.script i).name⟩ }).run related
  rw [created] at made
  obtain ⟨y', created', running⟩ := made.ok
  show Ends _ _ ((Queues.create _ _ _ >>= _) e) ((Queues.create _ _ _ >>= _) x')
  rw [Action.bind_ok created, Action.bind_ok created']
  have live {n : EntryRef} (hn : n ∈ D) : y.Live n := ready.1.2.live (hD n hn)
  have spares : Spares D y := ⟨ready.1.1.tidy.based, fun n hn => (live hn).2⟩
  have loading : (inside e e.queues.size).Safe y (Scripts.load e.queues.size i args []) :=
    safe_load Inside.running.toTurning rfl i args []
  have safe := loading.run y ready.1 ((inside e e.queues.size).refl y)
  have load := (ends_load hO e.queues.size i args [] ⟨running, spares⟩ fun n hn => (live hn).1).with
    (P := Inside.Ready e e.queues.size) fun hr => ready.later (safe.step hr)
  refine load.bind (finer_with R _) fun _ _ z z' _ hz => ?_
  refine ((steady_runToCompletion hO hc hi hk hD fuel).run hz).bind (finer_with R _) ?_
  exact fun _ _ w w' _ hw => (steady_outcome hO.toActing _ name).run hw.1

end Calls

end Paired

namespace Drive

/-- At every level of nesting, procedures go alike on engines that are related. -/
theorem paired_calls {R : Pairing} {k : QueueRef} {D : List EntryRef} (hO : Paired.Owning R k D)
    (fuel : Nat) : (calls fuel).Oblivious R k D := by
  induction fuel with
  | zero => exact fun _ _ _ _ _ _ _ h => .fail h
  | succ fuel ih =>
    intro name args e e' he hk hD h
    exact Paired.ends_runProcedure hO ih (isolated_calls fuel) fuel name args he hk hD h

end Drive

end QueueScript
