import QueueScript.Proofs.Tidy.Reachable

/-!
# Handing over background work

Work runs beside the queues and touches none of them.  When it settles, one handoff is queued; the
next beat takes all queued handoffs in order before any queue takes its turn.  A handoff applies its
outcome unless the queue of its entry, at the end of all replacements, was stopped, and the entry is
done afterwards in any case.  A failure of one handoff is reported and keeps no other from its turn.

What is queued and what is taken is followed along whole runs by `Trace`: nothing is lost, nothing is
taken twice, and the order is kept.
-/

namespace QueueScript

/-! ## Actions that are never cut off -/

namespace Action

variable {α β : Type}

/-- The action may fail, but it is never cut off. -/
structure Calm (a : Action α) : Prop where
  run (e : Engine) : (a e).1 ≠ .error .exhausted

/-- Nothing done. -/
theorem calm_pure (x : α) : Calm (pure x : Action α) :=
  ⟨fun _ => nofun⟩

/-- A look at the engine. -/
theorem calm_look (f : Engine → α) : Calm (look f) :=
  ⟨fun _ => nofun⟩

/-- A change of the engine. -/
theorem calm_change (f : Engine → Engine) : Calm (change f) :=
  ⟨fun _ => nofun⟩

/-- A plain failure. -/
theorem calm_fail {f : Failure} (hf : f ≠ .exhausted) : Calm (fail f : Action α) :=
  ⟨fun _ h => hf (by injection h)⟩

/-- One calm action after another. -/
theorem calm_bind {a : Action α} {f : α → Action β} (ha : Calm a) (hf : ∀ x, Calm (f x)) :
    Calm (a >>= f) := by
  refine ⟨fun e => ?_⟩
  have hae := ha.run e
  show (andThen a f e).1 ≠ _
  unfold andThen
  match hr : a e with
  | (.ok x, e') => exact (hf x).run e'
  | (.error err, e') =>
    rw [hr] at hae
    intro h
    injection h with h
    exact hae (congrArg _ h)

/-- One of two calm actions. -/
theorem calm_ite {c : Prop} [Decidable c] {a b : Action α} (ha : Calm a) (hb : Calm b) :
    Calm (if c then a else b) := by
  split
  · exact ha
  · exact hb

/-- Doing something for the items of two lists one after the other. -/
theorem each_append {f : α → Action Unit} (xs ys : List α) {e : Engine}
    (h : (each f xs e).1 = .ok ()) : each f (xs ++ ys) e = each f ys (each f xs e).2 := by
  induction xs generalizing e with
  | nil => rfl
  | cons x rest ih =>
    change (andThen (f x) (fun _ => each f rest) e).1 = _ at h
    change andThen (f x) (fun _ => each f (rest ++ ys)) e =
      each f ys (andThen (f x) (fun _ => each f rest) e).2
    unfold andThen at h ⊢
    rcases hr : f x e with ⟨r, e'⟩
    rw [hr] at h
    cases r with
    | ok u => exact ih h
    | error err => cases h

/-- A calm action on every item of a list. -/
theorem calm_each {f : α → Action Unit} {xs : List α} (h : ∀ x, Calm (f x)) : Calm (each f xs) := by
  induction xs with
  | nil => exact calm_pure ()
  | cons x rest ih => exact calm_bind (h x) fun _ => ih

end Action

/-! ## One handoff -/

namespace Background

/-- The outcome of work is dropped for this entry. -/
def Drops (e : Engine) (n : EntryRef) : Prop :=
  ∃ q, e.residingQueue n = some q ∧ (e.queue q).state = .stopped

open QueueScript.Action in
/-- An outcome is applied without being cut off. -/
theorem calm_apply (n : EntryRef) (o : Outcome) : Calm (apply n o) := by
  refine calm_bind (calm_look _) fun x => ?_
  have store (key : String) (v : Value) : Calm (Entries.store n key v) := calm_change _
  have report (message : String) (f : Option Failure) :
      Calm (do Action.error message (← Entries.scope n) f) :=
    calm_bind (calm_look _) fun _ => calm_change _
  cases o with
  | content b => exact store _ _
  | value v => exact store _ _
  | unusable message => exact calm_fail nofun
  | done =>
    dsimp only
    split
    · exact store _ _
    · exact calm_pure _
  | failure f =>
    dsimp only
    split
    · exact calm_bind (store _ _) fun _ => report _ _
    · exact report _ _
  | response r url isSilent =>
    exact calm_bind (calm_each fun kv => store _ _) fun _ => calm_ite (report _ _) (calm_pure _)

/-- A handoff for an entry whose queue was stopped only shows a trace and marks the entry. -/
theorem handOver_of_drops {e : Engine} {n : EntryRef} (h : Drops e n) (o : Outcome) :
    ∃ message, handOver n o e = (.ok (),
      (e.emit (.trace message (e.scope n)) (e.scope n)).changeEntry n
        ({ · with isFinished := true })) := by
  obtain ⟨q, hq, hs⟩ := h
  have hstopped : ((e.residingQueue n).filter fun q => (e.queue q).state == .stopped) = some q := by
    simp [hq, Option.filter, hs]
  refine ⟨"Discarding '" ++ (e.entry n).code.handler.name ++ "' result: queue '" ++
    (e.queue q).id ++ "' was stopped", ?_⟩
  simp only [handOver, Action.ensuring, bind, Action.andThen, Action.look, hstopped]
  rfl

/-- Any other handoff applies its outcome and then marks the entry. -/
theorem handOver_of_not_drops {e : Engine} {n : EntryRef} (h : ¬ Drops e n) (o : Outcome) :
    handOver n o e =
      ((apply n o e).1, (apply n o e).2.changeEntry n ({ · with isFinished := true })) := by
  have hnone : ((e.residingQueue n).filter fun q => (e.queue q).state == .stopped) = none := by
    simpa [Drops] using h
  simp only [handOver, Action.ensuring, bind, Action.andThen, Action.look, hnone]
  rfl

/-- What has become of an engine when an outcome was handed to its entry: nothing but a trace if the
queue was stopped, the applied outcome otherwise, a failure of which is reported.  The entry is marked
in any case. -/
def HandedOver (e : Engine) (n : EntryRef) (o : Outcome) (e' : Engine) : Prop :=
  (Drops e n → ∃ message, e' =
    (e.emit (.trace message (e.scope n)) (e.scope n)).changeEntry n
      ({ · with isFinished := true })) ∧
  (¬ Drops e n → ∃ z,
    (apply n o e = (.ok (), z) ∧ e' = z.changeEntry n ({ · with isFinished := true })) ∨
    ∃ f, apply n o e = (.error f, z) ∧
      e' = (z.changeEntry n ({ · with isFinished := true })).emit
        (.error ("Scheduled task failed: " ++ f.message) {} (some f)) {})

/-- An outcome that is applied without a failure and not dropped. -/
theorem HandedOver.eq_of_applied {e z e' : Engine} {n : EntryRef} {o : Outcome} (h : HandedOver e n o e')
    (hd : ¬ Drops e n) (applied : apply n o e = (.ok (), z)) :
    e' = z.changeEntry n ({ · with isFinished := true }) := by
  obtain ⟨z', ⟨applied', done⟩ | ⟨f, failed, -⟩⟩ := h.2 hd
  · have same : z' = z := congrArg Prod.snd (applied'.symm.trans applied)
    rw [done, same]
  · rw [applied] at failed
    cases failed

end Background

namespace Heartbeat

/-- The task that a handoff asks for when it is taken. -/
def followUp? : Handoff → Option Handoff
  | .task label count none true => some (.task label (count + 1) none false)
  | _ => none

/-- A handoff of work is taken without a failure. -/
theorem takeOverSafely_settle (e : Engine) (n : EntryRef) (o : Outcome) :
    ∃ e', takeOverSafely (.settle n o) e = (.ok (), e') ∧ Background.HandedOver e n o e' := by
  show ∃ e', Action.orElse (Background.handOver n o) _ e = (.ok (), e') ∧ _
  by_cases hd : Background.Drops e n
  · obtain ⟨message, h⟩ := Background.handOver_of_drops hd o
    simp only [Action.orElse, h]
    exact ⟨_, rfl, fun _ => ⟨message, rfl⟩, fun h => absurd hd h⟩
  · have hcalm := (Background.calm_apply n o).run e
    have h := Background.handOver_of_not_drops hd o
    match hr : Background.apply n o e with
    | (.ok _, z) =>
      simp only [hr] at h
      simp only [Action.orElse, h]
      exact ⟨_, rfl, fun h => absurd h hd, fun _ => ⟨z, .inl ⟨hr, rfl⟩⟩⟩
    | (.error f, z) =>
      simp only [hr] at h hcalm
      have hf : f ≠ .exhausted := fun hf => hcalm (congrArg _ hf)
      simp only [Action.orElse, h]
      refine ⟨(z.changeEntry n ({ · with isFinished := true })).emit
        (.error ("Scheduled task failed: " ++ f.message) {} (some f)) {}, ?_,
        fun h => absurd h hd, fun _ => ⟨z, .inr ⟨f, hr, rfl⟩⟩⟩
      cases f with
      | exhausted => exact absurd rfl hf
      | _ => rfl

/-- A task of the host is taken without a failure, and asks for another one at most. -/
theorem takeOverSafely_task (e : Engine) (label : String) (count : Nat) (error : Option String)
    (again : Bool) :
    ∃ events, takeOverSafely (.task label count error again) e = (.ok (),
      { e with
        fired := ⟨label, count, "handoff"⟩ :: e.fired
        events
        handoffs := e.handoffs ++ (followUp? (.task label count error again)).toList }) := by
  cases error with
  | some message =>
    obtain ⟨events, h⟩ := Engine.emit_eq { e with fired := ⟨label, count, "handoff"⟩ :: e.fired }
      (.error ("Scheduled task failed: " ++ message) {} (some (.host message))) {}
    refine ⟨events, Prod.ext rfl (h.trans ?_)⟩
    simp [followUp?]
  | none =>
    cases again with
    | true => exact ⟨_, rfl⟩
    | false =>
      refine ⟨e.events, Prod.ext rfl ?_⟩
      simp only [followUp?, Option.toList_none, List.append_nil]
      rfl

/-! ## All handoffs of a beat -/

/-- What is known after handoffs were taken from a tidy engine. -/
structure Taken (e : Engine) (hs : List Handoff) (e' : Engine) : Prop where
  tidy : e'.Tidy
  grows : e.Grows e'
  journal : e'.journal = e.journal
  handoffs : e'.handoffs = e.handoffs ++ hs.filterMap followUp?

/-- The outcome of background work is taken over. -/
theorem taken_settle {e : Engine} (he : e.Tidy) {n : EntryRef} (hn : e.Live n)
    (o : Outcome) : Taken e [.settle n o] (takeOverSafely (.settle n o) e).2 := by
  let P := fun (j : List Step) (h : List Handoff) => j = e.journal ∧ h = e.handoffs
  have safe : (Discipline.tidy P).Safe e (takeOverSafely (.settle n o)) :=
    Discipline.gives_orElse (Discipline.Tidy.safe_handOver hn o) fun f =>
      Discipline.safe_error Discipline.Tidy.bookkeeping.toNoting _ _ _
  obtain ⟨e', h, -⟩ := takeOverSafely_settle e n o
  have hl := safe.run e ⟨he, rfl, rfl⟩ (Engine.Grows.refl e)
  rw [h] at hl ⊢
  obtain ⟨⟨⟨ht, hj, hh⟩, hg⟩, -⟩ := hl
  exact ⟨ht, hg, hj, hh.trans (List.append_nil _).symm⟩

/-- The outcome of a task of the host is taken over. -/
theorem taken_task {e : Engine} (he : e.Tidy) (label : String) (count : Nat)
    (error : Option String) (again : Bool) :
    Taken e [.task label count error again]
      (takeOverSafely (.task label count error again) e).2 := by
  obtain ⟨events, h⟩ := takeOverSafely_task e label count error again
  rw [h]
  refine ⟨?_, Engine.grows_of_tables rfl rfl rfl, rfl, ?_⟩
  · refine ⟨he.pending, he.last, he.listeners, he.replacedBy, he.residing, he.owner, he.registry,
      he.inFlight, fun {n o} hmem => ?_, he.based.of_tables rfl rfl⟩
    rcases List.mem_append.1 hmem with hmem | hmem
    · exact he.handoffs hmem
    · unfold followUp? at hmem
      split at hmem <;> simp at hmem
  · cases hf : followUp? (.task label count error again) <;> simp [hf]

/-- Any handoff is taken over, and without a failure. -/
theorem taken_one {e : Engine} (he : e.Tidy) {h : Handoff}
    (hh : ∀ n o, h = .settle n o → e.Live n) :
    (takeOverSafely h e).1 = .ok () ∧ Taken e [h] (takeOverSafely h e).2 := by
  cases h with
  | settle n o =>
    obtain ⟨e', heq, -⟩ := takeOverSafely_settle e n o
    exact ⟨by rw [heq], taken_settle he (hh n o rfl) o⟩
  | task label count error again =>
    obtain ⟨events, heq⟩ := takeOverSafely_task e label count error again
    exact ⟨by rw [heq], taken_task he label count error again⟩

/-- One handoff is taken over and then the rest. -/
theorem each_cons {e : Engine} {h : Handoff} {rest : List Handoff}
    (hok : (takeOverSafely h e).1 = .ok ()) :
    Action.each takeOverSafely (h :: rest) e =
      Action.each takeOverSafely rest (takeOverSafely h e).2 := by
  show Action.andThen (takeOverSafely h) _ e = _
  unfold Action.andThen
  rcases hr : takeOverSafely h e with ⟨r, e'⟩
  rw [hr] at hok
  cases hok
  rfl

/-- All handoffs are taken, whichever of them fail. -/
theorem taken_each {e : Engine} (he : e.Tidy) {hs : List Handoff}
    (hh : ∀ n o, Handoff.settle n o ∈ hs → e.Live n) :
    (Action.each takeOverSafely hs e).1 = .ok () ∧
      Taken e hs (Action.each takeOverSafely hs e).2 := by
  induction hs generalizing e with
  | nil => exact ⟨rfl, he, Engine.Grows.refl e, rfl, by simp [Action.each, Action.done]⟩
  | cons h rest ih =>
    obtain ⟨hok, ht⟩ := taken_one he (h := h) fun n o hn => hh n o (by simp [hn])
    have hrest := ih ht.tidy fun n o hn => ht.grows.live (hh n o (List.mem_cons_of_mem _ hn))
    rw [each_cons hok]
    refine ⟨hrest.1, hrest.2.tidy, ht.grows.trans hrest.2.grows,
      hrest.2.journal.trans ht.journal, ?_⟩
    rw [hrest.2.handoffs, ht.handoffs]
    cases hf : followUp? h <;> simp [hf]

/-- The engine at the beginning of a beat, with all handoffs taken off. -/
def opened (e : Engine) (seconds : Option Float) : Engine :=
  { e with
    heartbeatTime := e.heartbeatTime + seconds.getD (defaultSeconds e) * 1000.0
    beats := e.beats + 1
    handoffs := [] }

/-- The engine when some handoffs of a beat were taken. -/
def takenUpTo (e : Engine) (seconds : Option Float) (hs : List Handoff) : Engine :=
  (Action.each takeOverSafely hs (opened e seconds)).2

/-- A beat begins on a tidy engine. -/
theorem opened_tidy {e : Engine} (he : e.Tidy) (seconds : Option Float) :
    (opened e seconds).Tidy :=
  ⟨he.pending, he.last, he.listeners, he.replacedBy, he.residing, he.owner, he.registry, he.inFlight,
    fun h => absurd h List.not_mem_nil, he.based.of_tables rfl rfl⟩

/-- Any number of handoffs is taken over, one after another. -/
theorem taken_upTo {e : Engine} (he : e.Tidy) (seconds : Option Float) (hs : List Handoff)
    (hh : ∀ h ∈ hs, h ∈ e.handoffs) :
    (Action.each takeOverSafely hs (opened e seconds)).1 = .ok () ∧
      Taken (opened e seconds) hs (takenUpTo e seconds hs) :=
  taken_each (opened_tidy he seconds) fun _ _ hn => he.handoffs (hh _ hn)

/-- One more handoff is taken. -/
theorem takenUpTo_concat {e : Engine} (he : e.Tidy) (seconds : Option Float) {hs : List Handoff}
    {h : Handoff} (hh : ∀ g ∈ hs ++ [h], g ∈ e.handoffs) :
    takenUpTo e seconds (hs ++ [h]) = (takeOverSafely h (takenUpTo e seconds hs)).2 := by
  obtain ⟨hok, htaken⟩ := taken_upTo he seconds hs fun g hg => hh g (List.mem_append_left _ hg)
  have hone := taken_one htaken.tidy (h := h) fun n o hn =>
    htaken.grows.live (he.handoffs (hn ▸ hh h (by simp)))
  calc takenUpTo e seconds (hs ++ [h])
      = (Action.each takeOverSafely [h] (takenUpTo e seconds hs)).2 :=
        congrArg Prod.snd (Action.each_append hs [h] hok)
    _ = (Action.each takeOverSafely [] (takeOverSafely h (takenUpTo e seconds hs)).2).2 := by
        rw [each_cons hone.1]

/-- A beat takes all handoffs, and then every registered queue takes its turn. -/
theorem tick_eq {e : Engine} (he : e.Tidy) (fuel : Nat) (seconds : Option Float) :
    tick fuel seconds e = beatAll fuel (takenUpTo e seconds e.handoffs) := by
  have hok := (taken_upTo he seconds e.handoffs fun _ h => h).1
  show Action.andThen (Action.each takeOverSafely e.handoffs) (fun _ => beatAll fuel)
    (opened e seconds) = _
  unfold Action.andThen takenUpTo
  rcases hr : Action.each takeOverSafely e.handoffs (opened e seconds) with ⟨r, e'⟩
  rw [hr] at hok
  cases hok
  rfl

/-- Turns of queues hand over nothing. -/
theorem beatAll_handoffs {e : Engine} (he : e.Tidy) (fuel : Nat) :
    (beatAll fuel e).2.handoffs = e.handoffs := by
  let P := fun (_ : List Step) (h : List Handoff) => h = e.handoffs
  have notes : Discipline.Tidy.Notes P := ⟨fun _ h _ _ _ => h, fun _ _ _ h => h⟩
  have safe : (Discipline.tidy P).Safe e (beatAll fuel) :=
    Discipline.safe_beatAll Discipline.Tidy.bookkeeping.emit Discipline.Tidy.turns.toPacing
      (Discipline.Tidy.calls_runsEntries notes fuel) fun he _ hp => he.1.registry hp
  exact (safe.kept ⟨he, rfl⟩).cut

end Heartbeat

/-! ## Handoffs along runs -/

namespace Operation

/-- The handoffs that an operation takes. -/
def takes (e : Engine) : Operation → List Handoff
  | tick _ => e.handoffs
  | _ => []

/-- The handoffs that an operation queues. -/
def queues (e : Engine) : Operation → List Handoff
  | settle i =>
    match e.inFlight[i]? with
    | some w =>
      [.settle w.entry (Background.perform { e with inFlight := e.inFlight.eraseIdx i } w.job).2]
    | none => []
  | schedule label error again => [.task label 0 error again]
  | tick _ => e.handoffs.filterMap Heartbeat.followUp?
  | _ => []

/-- Settling work changes nothing but the work under way, the world and the handoffs. -/
theorem settleAt_eq (e : Engine) (i : Nat) :
    ∃ files clock webPlans webCalls, Background.settleAt i e = (.ok (),
      { e with
        inFlight := e.inFlight.eraseIdx i, files, clock, webPlans, webCalls
        handoffs := e.handoffs ++ (settle i).queues e }) := by
  cases hw : e.inFlight[i]? with
  | none =>
    refine ⟨e.files, e.clock, e.webPlans, e.webCalls, ?_⟩
    have herase : e.inFlight.eraseIdx i = e.inFlight :=
      List.eraseIdx_of_length_le (List.getElem?_eq_none_iff.1 hw)
    simp only [Background.settleAt, Action.change, queues, hw, herase, List.append_nil]
  | some w =>
    obtain ⟨files, clock, webPlans, webCalls, h⟩ :=
      Background.perform_eq { e with inFlight := e.inFlight.eraseIdx i } w.job
    refine ⟨files, clock, webPlans, webCalls, ?_⟩
    simp only [Background.settleAt, Action.change, queues, hw, Background.settleOne, h]

/-- Operations that have nothing to do with handoffs leave them alone. -/
theorem handoffs_plain {e : Engine} (he : e.Tidy) (fuel : Nat) {op : Operation} (hop : op.IsPlain)
    (hv : op.Valid e) : (op.act fuel e).2.handoffs = e.handoffs := by
  let P := fun (_ : List Step) (h : List Handoff) => h = e.handoffs
  have notes : Discipline.Tidy.Notes P := ⟨fun _ h _ _ _ => h, fun _ _ _ h => h⟩
  have kept : (Discipline.tidy P).Kept (op.act fuel e) :=
    Discipline.kept_plain Discipline.Tidy.hosting (Discipline.Tidy.calls_runsEntries notes) fuel hop
      ⟨he, rfl⟩ hv
  exact kept.cut

/-- Only a beat takes handoffs over. -/
theorem takes_plain {op : Operation} (hop : op.IsPlain) (e : Engine) : op.takes e = [] := by
  cases op with
  | tick seconds => exact hop.elim
  | _ => rfl

/-- Only the end of background work queues a handoff. -/
theorem queues_plain {op : Operation} (hop : op.IsPlain) (e : Engine) : op.queues e = [] := by
  cases op with
  | settle i => exact hop.elim
  | schedule label error again => exact hop.elim
  | tick seconds => exact hop.elim
  | _ => rfl

/-- Between two beats handoffs only queue up, and a beat takes them all. -/
theorem handoffs_act {e : Engine} (he : e.Tidy) (fuel : Nat) {op : Operation} (hv : op.Valid e) :
    op.takes e ++ (op.act fuel e).2.handoffs = e.handoffs ++ op.queues e := by
  by_cases hop : op.IsPlain
  · rw [takes_plain hop, queues_plain hop, handoffs_plain he fuel hop hv]
    simp
  · cases op with
    | schedule label error again => rfl
    | settle i =>
      obtain ⟨files, clock, webPlans, webCalls, h⟩ := settleAt_eq e i
      show (Background.settleAt i e).2.handoffs = _
      rw [h]
    | tick seconds =>
      have htaken := (Heartbeat.taken_upTo he seconds e.handoffs fun _ h => h).2
      show e.handoffs ++ (Heartbeat.tick fuel seconds e).2.handoffs = _
      rw [Heartbeat.tick_eq he, Heartbeat.beatAll_handoffs htaken.tidy, htaken.handoffs]
      rfl
    | _ => exact absurd trivial hop

end Operation

/-- Runs of an engine with the handoffs that were queued and those that were taken, in order. -/
inductive Trace (e₀ : Engine) : List Handoff → List Handoff → Engine → Prop where
  | first : Trace e₀ [] [] e₀
  | next {e : Engine} {queued taken : List Handoff} (fuel : Nat) (op : Operation) :
      Trace e₀ queued taken e → op.Valid e → (op.act fuel e).1 ≠ .error .exhausted →
        Trace e₀ (queued ++ op.queues e) (taken ++ op.takes e) (op.act fuel e).2

/-- An operation that succeeds was not cut off. -/
theorem Trace.ok {e₀ e : Engine} {queued taken : List Handoff} (h : Trace e₀ queued taken e)
    (fuel : Nat) (op : Operation) (hv : op.Valid e) (hx : (op.act fuel e).1.toBool = true) :
    Trace e₀ (queued ++ op.queues e) (taken ++ op.takes e) (op.act fuel e).2 := by
  refine .next fuel op h hv fun hx' => ?_
  rw [hx'] at hx
  cases hx

namespace Trace

variable {config : Config} {modules : List CommandModule} {queued taken : List Handoff}
  {e e₀ : Engine}

/-- What a trace leads to is reachable. -/
theorem reachable (h : Trace e₀ queued taken e) : Reachable e₀ e := by
  induction h with
  | first => exact .first
  | next fuel op _ hv hx ih => exact .next fuel op ih hv hx

/-- Every handoff that was queued was taken once, in order, or still waits. -/
theorem conserved (h : Trace (Host.create config modules) queued taken e) :
    queued = taken ++ e.handoffs := by
  induction h with
  | first => exact ((List.nil_append _).trans (Host.create_isNew config modules).handoffs).symm
  | next fuel op ht hv _ ih =>
    rw [ih, List.append_assoc, List.append_assoc, Operation.handoffs_act ht.reachable.tidy fuel hv]

end Trace

/-- When an outcome has been handed to an entry, the entry is done. -/
theorem Background.HandedOver.isFinished {e e' : Engine} {n : EntryRef} {o : Outcome}
    (h : HandedOver e n o e') (hn : n < e'.entries.size) : (e'.entry n).isFinished = true := by
  have marked (z : Engine) (hz : n < z.entries.size) :
      ((z.changeEntry n ({ · with isFinished := true })).entry n).isFinished = true := by
    rw [z.entry_changeEntry_self hz]
  by_cases hd : Drops e n
  · obtain ⟨message, rfl⟩ := h.1 hd
    exact marked _ (by simpa using hn)
  · obtain ⟨z, ⟨-, rfl⟩ | ⟨f, -, rfl⟩⟩ := h.2 hd
    · exact marked z (by simpa using hn)
    · obtain ⟨events, heq⟩ := Engine.emit_eq (z.changeEntry n ({ · with isFinished := true }))
        (.error ("Scheduled task failed: " ++ f.message) {} (some f)) {}
      rw [heq] at hn ⊢
      exact marked z (by simpa using hn)

/-- Work is handed over by a single writer.  Settling work changes no queue and no entry and queues
one handoff; handoffs are taken once, in order, by the first beat after they were queued, before any
queue takes its turn; an outcome is applied unless the queue that the entry runs on now was stopped;
and the entry is done afterwards, whatever happened. -/
theorem handoff_single_writer {config : Config} {modules : List CommandModule}
    {queued taken : List Handoff} {e : Engine}
    (h : Trace (Host.create config modules) queued taken e) :
    queued = taken ++ e.handoffs ∧
    (∀ i w, e.inFlight[i]? = some w → ∃ outcome files clock webPlans webCalls,
      Background.settleAt i e = (.ok (),
        { e with
          inFlight := e.inFlight.eraseIdx i, files, clock, webPlans, webCalls
          handoffs := e.handoffs ++ [.settle w.entry outcome] })) ∧
    (∀ fuel (op : Operation), op.Valid e →
      op.takes e ++ (op.act fuel e).2.handoffs = e.handoffs ++ op.queues e) ∧
    ∀ fuel seconds,
      Heartbeat.tick fuel seconds e =
        Heartbeat.beatAll fuel (Heartbeat.takenUpTo e seconds e.handoffs) ∧
      (Heartbeat.takenUpTo e seconds e.handoffs).journal = e.journal ∧
      (Heartbeat.tick fuel seconds e).2.handoffs = e.handoffs.filterMap Heartbeat.followUp? ∧
      ∀ before n o after, e.handoffs = before ++ .settle n o :: after →
        let x := Heartbeat.takenUpTo e seconds before
        let y := Heartbeat.takenUpTo e seconds (before ++ [.settle n o])
        (∀ q, x.residingQueue n = some q → (x.queue q).replacedBy = none) ∧
          Background.HandedOver x n o y ∧ (y.entry n).isFinished = true := by
  have he := h.reachable.tidy
  refine ⟨h.conserved, fun i w hw => ?_, fun fuel op hv => ?_, fun fuel seconds => ?_⟩
  · obtain ⟨files, clock, webPlans, webCalls, heq⟩ := Operation.settleAt_eq e i
    simp only [Operation.queues, hw] at heq
    exact ⟨_, files, clock, webPlans, webCalls, heq⟩
  · exact Operation.handoffs_act he fuel hv
  · have hall := (Heartbeat.taken_upTo he seconds e.handoffs fun _ h => h).2
    refine ⟨Heartbeat.tick_eq he fuel seconds, hall.journal, ?_, fun before n o after hsplit => ?_⟩
    · rw [Heartbeat.tick_eq he, Heartbeat.beatAll_handoffs hall.tidy, hall.handoffs]
      rfl
    · have hmem : ∀ g ∈ before ++ [Handoff.settle n o], g ∈ e.handoffs := by
        intro g hg
        rw [hsplit]
        rcases List.mem_append.1 hg with hg | hg
        · exact List.mem_append_left _ hg
        · rw [List.mem_singleton.1 hg]
          simp
      have hx := (Heartbeat.taken_upTo he seconds before fun g hg =>
        hmem g (List.mem_append_left _ hg)).2
      have hy := (Heartbeat.taken_upTo he seconds _ hmem).2
      obtain ⟨y, heq, hover⟩ :=
        Heartbeat.takeOverSafely_settle (Heartbeat.takenUpTo e seconds before) n o
      have hyeq : Heartbeat.takenUpTo e seconds (before ++ [.settle n o]) = y := by
        rw [Heartbeat.takenUpTo_concat he seconds hmem, heq]
      rw [hyeq] at hy ⊢
      refine ⟨fun q hq => hx.tidy.residingQueue_end hq, hover, hover.isFinished ?_⟩
      exact Nat.lt_of_lt_of_le (he.handoffs (hmem _ List.mem_concat_self)).1 hy.grows.entries

/-- A request that is waited for: its outcome is handed over by the next beat. -/
theorem handoff_single_writer_request :
    let e₁ := ((Operation.runCommands "~webget http://a.b" none {} true).act 10
      (Host.create {} [])).2
    let e₂ := ((Operation.settle 0).act 10 e₁).2
    e₁.inFlight.length = 1 ∧ e₂.handoffs.length = 1 ∧
      ∀ before n o after, e₂.handoffs = before ++ .settle n o :: after →
        ((Heartbeat.takenUpTo e₂ none (before ++ [.settle n o])).entry n).isFinished = true := by
  intro e₁ e₂
  have ran := Trace.ok (Trace.first : Trace (Host.create {} []) [] [] _) 10
    (.runCommands "~webget http://a.b" none {} true) trivial (by decide +kernel)
  have settled := Trace.ok ran 10 (.settle 0) trivial (by decide +kernel)
  obtain ⟨-, -, -, beats⟩ := handoff_single_writer settled
  refine ⟨by decide +kernel, by decide +kernel, fun before n o after hsplit => ?_⟩
  exact ((beats 0 none).2.2.2 before n o after hsplit).2.2

end QueueScript
