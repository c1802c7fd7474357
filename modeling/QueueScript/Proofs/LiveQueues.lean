import QueueScript.Proofs.Upkeep.Runs

/-!
# Live queues and the registry

A queue is alive while it runs or is paused.  The registry lists live queues only, each under its own
id, and none that was replaced (`Engine.Listed`).  The converse needs care: a queue that is started under
the id of a live queue takes its place in the registry, and no beat reaches the other one any more.  If
queues are only started under free ids, every live queue is listed, so no two of them share an id.
-/

namespace QueueScript

/-- Whether a queue in a state is alive. -/
def QueueState.isAlive : QueueState → Bool
  | .running | .paused => true
  | .idle | .stopped | .finished => false

/-- A queue that has ended is not alive. -/
theorem QueueState.isAlive_of_isEnd {s : QueueState} (h : s.isEnd = true) : s.isAlive = false := by
  cases s with
  | idle | running | paused => cases h
  | stopped | finished => rfl

/-! ## What the life of queues is made of -/

/-- All queues have the ids, states, listeners and replacements that they had, and nobody was told
anything. -/
structure Engine.SameLives (e e' : Engine) : Prop where
  queues : e'.queues.size = e.queues.size
  id (q : QueueRef) : (e'.queue q).id = (e.queue q).id
  state (q : QueueRef) : (e'.queue q).state = (e.queue q).state
  listeners (q : QueueRef) : (e'.queue q).listeners = (e.queue q).listeners
  replacedBy (q : QueueRef) : (e'.queue q).replacedBy = (e.queue q).replacedBy
  registry : e'.registry = e.registry
  fired : e'.fired = e.fired

/-- A quiet change leaves the lives of queues as they are. -/
theorem Engine.SameLives.of_quiet {e e' : Engine} (h : e.Quiet e') : e.SameLives e' where
  queues := h.queues
  id q := (h.queue q).id
  state q := (h.queue q).state
  listeners q := (h.queue q).listeners
  replacedBy q := (h.queue q).replacedBy
  registry := h.registry
  fired := h.fired

/-- Entries that are put on a queue do not change its life. -/
theorem Engine.SameLives.of_put (e : Engine) (q : QueueRef) (xs ys : List Entry)
    (f : List EntryRef → List EntryRef) : e.SameLives ((e.grown xs).put q ys f) where
  queues := (e.grown (xs ++ ys)).size_changeQueue q _
  id := (e.grown xs).queue_put_keep q ys f fun _ _ => rfl
  state := (e.grown xs).queue_put_keep q ys f fun _ _ => rfl
  listeners := (e.grown xs).queue_put_keep q ys f fun _ _ => rfl
  replacedBy := (e.grown xs).queue_put_keep q ys f fun _ _ => rfl
  registry := rfl
  fired := rfl

/-- An entry that a queue begins does not change its life. -/
theorem Engine.SameLives.of_begun (e : Engine) (q : QueueRef) (n : EntryRef) (rest : List EntryRef) :
    e.SameLives (e.begun q n rest) where
  queues := (Engine.size_changeQueue _ q _).trans (e.size_changeQueue q _)
  id := e.queue_begun_keep q n rest (fun _ _ => rfl) fun _ _ => rfl
  state := e.queue_begun_keep q n rest (fun _ _ => rfl) fun _ _ => rfl
  listeners := e.queue_begun_keep q n rest (fun _ _ => rfl) fun _ _ => rfl
  replacedBy := e.queue_begun_keep q n rest (fun _ _ => rfl) fun _ _ => rfl
  registry := rfl
  fired := rfl

/-- What is pending does not change the life of a queue. -/
theorem Engine.SameLives.of_pending (e : Engine) (q : QueueRef) (f : List EntryRef → List EntryRef) :
    e.SameLives (e.changeQueue q fun x => { x with pending := f x.pending }) where
  queues := e.size_changeQueue q _
  id := e.queue_changeQueue_keep (f := fun x => { x with pending := f x.pending }) (fun _ => rfl) q
  state := e.queue_changeQueue_keep (f := fun x => { x with pending := f x.pending }) (fun _ => rfl) q
  listeners := e.queue_changeQueue_keep (f := fun x => { x with pending := f x.pending }) (fun _ => rfl) q
  replacedBy := e.queue_changeQueue_keep (f := fun x => { x with pending := f x.pending }) (fun _ => rfl) q
  registry := rfl
  fired := rfl

/-- A property of the lives of queues, whatever their entries, is kept up if it survives the moments in
which they change. -/
structure Upkeep.OfLives (S : Prop) (C : Engine → QueueRef → Prop) (J : Engine → Prop) : Prop where
  same {e e' : Engine} : J e → e.SameLives e' → J e'
  make {e : Engine} {x : Queue} : e.Orderly → J e → x.IsNew → J (e.withQueue x)
  launch {e : Engine} {q : QueueRef} : e.Orderly → J e → q < e.queues.size →
    (e.queue q).state = .idle → (S → e.registered? (e.queue q).id = none) → J (e.launched q)
  close {e e' : Engine} {q : QueueRef} {s : QueueState} : e.Orderly → J e → q < e.queues.size →
    (e.queue q).state.isEnd = false → s.isEnd = true → e.Closes q s e' → J e'
  convert {e e' : Engine} {q : QueueRef} : e.Orderly → J e → q < e.queues.size → C e q →
    e.Converts q e' → J e'
  listen {e : Engine} {q : QueueRef} (n : EntryRef) : J e → (e.queue q).state.isEnd = false →
    J (e.changeQueue q fun x => { x with listeners := x.listeners ++ [.finish n] })
  active {e : Engine} {q : QueueRef} : e.Orderly → J e → Drive.isActive e q = true →
    (e.queue q).pace = .instant → C e q
  registered {e : Engine} {q : QueueRef} {id : String} : e.Orderly → J e →
    e.registered? id = some q → (e.queue q).pace = .instant → C e q

/-- What is about the lives of queues only is kept up where these change. -/
theorem Upkeep.OfLives.upkeep {S : Prop} {C : Engine → QueueRef → Prop} {J : Engine → Prop}
    (h : Upkeep.OfLives S C J) : Upkeep S False C J where
  quiet _ hj hq _ := h.same hj (.of_quiet hq)
  fill _ hj _ _ _ := h.same hj (.of_put _ _ _ _ _)
  drop count _ hj _ _ := h.same hj (.of_pending _ _ (List.drop count))
  make := h.make
  launch := h.launch
  close ho hj hq hend hs hc _ := h.close ho hj hq hend hs hc
  convert ho hj hq hC hc _ := h.convert ho hj hq hC hc
  begins _ hj _ _ _ := h.same hj (.of_begun _ _ _ _)
  back _ _ _ hj := h.same hj ⟨rfl, fun _ => rfl, fun _ => rfl, fun _ => rfl, fun _ => rfl, rfl, rfl⟩
  listen := h.listen
  active := h.active
  registered := h.registered

/-! ## What is registered -/

namespace Engine

/-- The registry lists live queues that were not replaced, each under its id, and queues that were
replaced are stopped. -/
structure Listed (e : Engine) : Prop where
  alive {k : String} {q : QueueRef} : e.registry.get? k = some q → (e.queue q).state.isAlive = true
  key {k : String} {q : QueueRef} : e.registry.get? k = some q → Text.lower (e.queue q).id = k
  replaced {q p : QueueRef} : (e.queue q).replacedBy = some p → (e.queue q).state = .stopped

namespace Listed

variable {e e' : Engine} {q p : QueueRef}

/-- A queue that is not stopped was not replaced. -/
theorem current (h : e.Listed) (hp : (e.queue p).state ≠ .stopped) : (e.queue p).replacedBy = none := by
  cases hr : (e.queue p).replacedBy with
  | none => rfl
  | some t => exact absurd (h.replaced hr) hp

/-- The registry is right where no life has changed. -/
theorem same (h : e.Listed) (hs : e.SameLives e') : e'.Listed where
  alive {k q} hk := by
    rw [hs.registry] at hk
    rw [hs.state]
    exact h.alive hk
  key {k q} hk := by
    rw [hs.registry] at hk
    rw [hs.id]
    exact h.key hk
  replaced {q p} hr := by
    rw [hs.replacedBy] at hr
    rw [hs.state]
    exact h.replaced hr

/-- A new queue is not in the registry yet. -/
theorem make (ho : e.Orderly) (h : e.Listed) {x : Queue} (hx : x.IsNew) : (e.withQueue x).Listed := by
  have old {k : String} {q : QueueRef} (hk : e.registry.get? k = some q) :
      (e.withQueue x).queue q = e.queue q :=
    e.queue_withQueue_of_lt (ho.healthy.tidy.listed_lt hk)
  refine ⟨fun {k q} hk => ?_, fun {k q} hk => ?_, fun {q p} hr => ?_⟩
  · rw [old hk]
    exact h.alive hk
  · rw [old hk]
    exact h.key hk
  · rw [e.queue_withQueue] at hr ⊢
    split at hr
    · rw [hx.replacedBy] at hr
      cases hr
    · rename_i hne
      rw [if_neg hne]
      exact h.replaced hr

/-- A queue that starts is put in the registry. -/
theorem launch (h : e.Listed) (hq : q < e.queues.size) (hidle : (e.queue q).state = .idle) :
    (e.launched q).Listed := by
  have here := e.queue_launched hq
  -- A queue is found under the key it was just put under, or where it was found before.
  have found {k : String} {p : QueueRef} (hk : (e.launched q).registry.get? k = some p) :
      p = q ∧ k = Text.lower (e.queue q).id ∨ e.registry.get? k = some p := by
    by_cases hkey : k = Text.lower (e.queue q).id
    · refine .inl ⟨?_, hkey⟩
      subst hkey
      exact (Option.some.inj ((Keyed.get?_put_self _ _ _).symm.trans hk)).symm
    · exact .inr ((Keyed.get?_put_of_ne _ _ hkey).symm.trans hk)
  refine ⟨fun {k p} hk => ?_, fun {k p} hk => ?_, fun {p t} hr => ?_⟩
  · by_cases hp : p = q
    · rw [hp, here]
      rfl
    · rw [e.queue_launched_of_ne hp]
      exact h.alive ((found hk).resolve_left fun hf => hp hf.1)
  · rcases found hk with ⟨rfl, rfl⟩ | hk
    · rw [here]
    · have id : ((e.launched q).queue p).id = (e.queue p).id :=
        e.queue_changeQueue_keep (f := ({ · with state := .running })) (g := Queue.id) (fun _ => rfl) q p
      rw [id]
      exact h.key hk
  · by_cases hp : p = q
    · rw [hp, here] at hr
      have stopped := h.replaced (q := q) hr
      rw [hidle] at stopped
      cases stopped
    · rw [e.queue_launched_of_ne hp] at hr ⊢
      exact h.replaced hr

/-- What is still registered when a queue has ended was registered before, and is not that queue. -/
theorem found_closed (h : e.Listed) {s : QueueState} (hc : e.Closes q s e') {k : String}
    (hk : e'.registry.get? k = some p) : p ≠ q ∧ e.registry.get? k = some p := by
  rw [hc.registry, Queues.registry_unregistered] at hk
  split at hk
  · rename_i hq
    have hkey : k ≠ Text.lower (e.queue q).id := by
      rintro rfl
      rw [Keyed.get?_erase_self] at hk
      cases hk
    have before := (Keyed.get?_erase_of_ne _ hkey).symm.trans hk
    refine ⟨?_, before⟩
    rintro rfl
    exact hkey (h.key before).symm
  · rename_i hq
    refine ⟨?_, hk⟩
    rintro rfl
    rw [← h.key hk] at hk
    exact hq hk

/-- A queue that ends leaves the registry. -/
theorem close (h : e.Listed) (hend : (e.queue q).state.isEnd = false) {s : QueueState}
    (hc : e.Closes q s e') : e'.Listed := by
  refine ⟨fun {k p} hk => ?_, fun {k p} hk => ?_, fun {p t} hr => ?_⟩
  · obtain ⟨hp, hk⟩ := h.found_closed hc hk
    rw [hc.other hp]
    exact h.alive hk
  · obtain ⟨hp, hk⟩ := h.found_closed hc hk
    rw [hc.other hp]
    exact h.key hk
  · by_cases hp : p = q
    · rw [hp, hc.replacedBy] at hr
      rw [h.replaced hr] at hend
      cases hend
    · rw [hc.other hp] at hr ⊢
      exact h.replaced hr

/-- What is registered when a queue has been replaced is its replacement, or is another queue and was
registered before. -/
theorem found_converted (ho : e.Orderly) (h : e.Listed) (hc : e.Converts q e') {k : String}
    (hk : e'.registry.get? k = some p) :
    p = e.queues.size ∧ k = Text.lower (e.queue q).id ∨
      p ≠ q ∧ e'.queue p = e.queue p ∧ k ≠ Text.lower (e.queue q).id ∧ e.registry.get? k = some p := by
  rw [hc.registry] at hk
  by_cases hkey : k = Text.lower (e.queue q).id
  · refine .inl ⟨?_, hkey⟩
    subst hkey
    exact (Option.some.inj ((Keyed.get?_put_self _ _ _).symm.trans hk)).symm
  · have before := (Keyed.get?_put_of_ne _ _ hkey).symm.trans hk
    have hp : p ≠ q := by
      rintro rfl
      exact hkey (h.key before).symm
    exact .inr ⟨hp, hc.other hp (Nat.ne_of_lt (ho.healthy.tidy.listed_lt before)), hkey, before⟩

/-- The replacement of a queue takes its place in the registry. -/
theorem convert (ho : e.Orderly) (h : e.Listed) (hc : e.Converts q e') : e'.Listed := by
  refine ⟨fun {k p} hk => ?_, fun {k p} hk => ?_, fun {p t} hr => ?_⟩
  · obtain ⟨rfl, -⟩ | ⟨-, same, -, hk⟩ := h.found_converted ho hc hk
    · rw [hc.newState]
      rfl
    · rw [same]
      exact h.alive hk
  · obtain ⟨rfl, rfl⟩ | ⟨-, same, -, hk⟩ := h.found_converted ho hc hk
    · rw [hc.newId]
    · rw [same]
      exact h.key hk
  · by_cases ht : p = e.queues.size
    · rw [ht, hc.newReplacedBy] at hr
      cases hr
    · by_cases hp : p = q
      · rw [hp, hc.old]
      · rw [hc.other hp ht] at hr ⊢
        exact h.replaced hr

/-- A live queue is paused or runs again. -/
theorem changeState (h : e.Listed) {s : QueueState} (halive : (e.queue q).state.isAlive = true)
    (hs : s.isAlive = true) : (e.changeQueue q ({ · with state := s })).Listed := by
  have id (p : QueueRef) : ((e.changeQueue q ({ · with state := s })).queue p).id = (e.queue p).id :=
    e.queue_changeQueue_keep (f := ({ · with state := s })) (g := Queue.id) (fun _ => rfl) q p
  refine ⟨fun {k p} hk => ?_, fun {k p} hk => ?_, fun {p t} hr => ?_⟩
  · rw [e.queue_changeQueue]
    split
    · exact hs
    · exact h.alive hk
  · rw [id]
    exact h.key hk
  · rw [e.queue_changeQueue] at hr ⊢
    split
    · rename_i hp
      rw [if_pos hp] at hr
      have stopped := h.replaced (q := p) hr
      rw [← hp.1] at stopped
      rw [stopped] at halive
      cases halive
    · rename_i hp
      rw [if_neg hp] at hr
      exact h.replaced hr

/-- A listener leaves the registry as it is. -/
theorem listen (h : e.Listed) (l : Listener) :
    (e.changeQueue q fun x => { x with listeners := x.listeners ++ [l] }).Listed := by
  let f : Queue → Queue := fun x => { x with listeners := x.listeners ++ [l] }
  have id (p : QueueRef) : ((e.changeQueue q f).queue p).id = (e.queue p).id :=
    e.queue_changeQueue_keep (f := f) (g := Queue.id) (fun _ => rfl) q p
  have state (p : QueueRef) : ((e.changeQueue q f).queue p).state = (e.queue p).state :=
    e.queue_changeQueue_keep (f := f) (g := Queue.state) (fun _ => rfl) q p
  have replacedBy (p : QueueRef) : ((e.changeQueue q f).queue p).replacedBy = (e.queue p).replacedBy :=
    e.queue_changeQueue_keep (f := f) (g := Queue.replacedBy) (fun _ => rfl) q p
  refine ⟨fun {k p} hk => ?_, fun {k p} hk => ?_, fun {p t} hr => ?_⟩
  · rw [state]
    exact h.alive hk
  · rw [id]
    exact h.key hk
  · rw [replacedBy] at hr
    rw [state]
    exact h.replaced hr

/-- The host keeps the registry right. -/
theorem hosting : Upkeep.Hosting (fun _ _ => True) False False (fun _ _ => True) Engine.Listed where
  toUpkeep := Upkeep.OfLives.upkeep {
    same := same
    make := fun ho h hx => h.make ho hx
    launch := fun _ h hq hidle _ => h.launch hq hidle
    close := fun _ h _ hend _ hc => h.close hend hc
    convert := fun ho h _ _ hc => h.convert ho hc
    listen := fun _ h _ => h.listen _
    active := fun _ _ _ _ => trivial
    registered := fun _ _ _ _ => trivial }
  allows {e op} _ := by
    cases op with
    | forceToTimed q delay => trivial
    | start q => exact nofun
    | runToCompletion q => exact nofun
    | runScript name options starts => exact nofun
    | runCommands source name options starts => exact nofun
    | append q source => exact nofun
    | inject q source => exact nofun
    | _ => trivial
  pause _ h _ _ hs := h.changeState (by rw [hs]; rfl) rfl
  resume _ h _ _ hs := h.changeState (by rw [hs]; rfl) rfl
  hear _ h _ _ _ := h.listen _
  late _ h _ _ _ := ⟨h.alive, h.key, h.replaced⟩
  task _ _ h := ⟨h.alive, h.key, h.replaced⟩

end Listed

/-- The registry of a new engine is right. -/
theorem IsNew.listed {e : Engine} (h : e.IsNew) : e.Listed where
  alive hk := by
    rw [h.registry] at hk
    cases hk
  key hk := by
    rw [h.registry] at hk
    cases hk
  replaced hr := by
    rw [h.queue_eq] at hr
    cases hr

end Engine

/-- Everything reachable is orderly and has its registry right. -/
theorem Reachable.orderly_listed {config : Config} {e : Engine}
    (h : Reachable (Host.create config []) e) : e.Orderly ∧ e.Listed :=
  (Discipline.Upheld.step_runs Engine.Listed.hosting
    ⟨Host.create_orderly config, (Host.create_isNew config []).listed⟩
    (Host.create_isNew config []).underway h.runs).1

/-! ## What is alive -/

/-- Live queues, and only these, are registered. -/
structure Engine.AllListed (e : Engine) : Prop extends Engine.Listed e where
  found {q : QueueRef} : (e.queue q).state.isAlive = true → e.registered? (e.queue q).id = some q

/-- The queue is alive or its id is free, so that a queue under its id takes the place of no other. -/
def Engine.MayRestart (e : Engine) (q : QueueRef) : Prop :=
  (e.queue q).state.isAlive = true ∨ e.registered? (e.queue q).id = none

/-- The operation starts queues only under ids that are free. -/
def Operation.StartsFree (e : Engine) : Operation → Prop
  | .start q | .runToCompletion q =>
    (e.queue q).state = .idle → e.registered? (e.queue q).id = none
  | .runScript _ options starts | .runCommands _ _ options starts => starts = true → e.Vacant options.id
  | .forceToTimed q _ => e.MayRestart q
  | _ => True

namespace Engine.AllListed

variable {e e' : Engine} {q p : QueueRef}

/-- Live queues whose ids agree up to case are the same. -/
theorem unique (h : e.AllListed) (hp : (e.queue p).state.isAlive = true)
    (hq : (e.queue q).state.isAlive = true)
    (hid : Text.lower (e.queue p).id = Text.lower (e.queue q).id) : p = q := by
  have found := h.found hp
  unfold registered? at found
  rw [hid] at found
  exact Option.some.inj (found.symm.trans (h.found hq))

/-- All live queues are in the registry where no life has changed. -/
theorem same (h : e.AllListed) (hs : e.SameLives e') : e'.AllListed where
  toListed := h.toListed.same hs
  found {q} hq := by
    rw [hs.state] at hq
    unfold registered?
    rw [hs.id, hs.registry]
    exact h.found hq

/-- A new queue is not alive yet. -/
theorem make (ho : e.Orderly) (h : e.AllListed) {x : Queue} (hx : x.IsNew) :
    (e.withQueue x).AllListed where
  toListed := h.toListed.make ho hx
  found {q} hq := by
    rw [e.queue_withQueue] at hq ⊢
    split at hq
    · rw [hx.state] at hq
      cases hq
    · rename_i hne
      rw [if_neg hne]
      exact h.found hq

/-- A queue that starts under a free id is in the registry, and so are the others. -/
theorem launch (h : e.AllListed) (hq : q < e.queues.size) (hidle : (e.queue q).state = .idle)
    (hfree : e.registered? (e.queue q).id = none) : (e.launched q).AllListed where
  toListed := h.toListed.launch hq hidle
  found {p} hp := by
    show (e.registry.put (Text.lower (e.queue q).id) q).get? _ = some p
    by_cases hpq : p = q
    · rw [hpq, e.queue_launched hq]
      exact Keyed.get?_put_self _ _ _
    · rw [e.queue_launched_of_ne hpq] at hp ⊢
      have found := h.found hp
      refine (Keyed.get?_put_of_ne _ _ fun hk => ?_).trans found
      unfold registered? at found hfree
      rw [hk, hfree] at found
      cases found

/-- A queue that ends leaves the others in the registry. -/
theorem close (h : e.AllListed) (hend : (e.queue q).state.isEnd = false) {s : QueueState}
    (hs : s.isEnd = true) (hc : e.Closes q s e') : e'.AllListed where
  toListed := h.toListed.close hend hc
  found {p} hp := by
    by_cases hpq : p = q
    · rw [hpq, hc.state, QueueState.isAlive_of_isEnd hs] at hp
      cases hp
    · unfold registered?
      rw [hc.other hpq] at hp ⊢
      have found := h.found hp
      rw [hc.registry, Queues.registry_unregistered]
      split
      · rename_i hq
        refine (Keyed.get?_erase_of_ne _ fun hk => ?_).trans found
        unfold registered? at found
        rw [hk, hq] at found
        exact hpq (Option.some.inj found).symm
      · exact found

/-- The replacement of a queue that was in the registry is there instead. -/
theorem convert (ho : e.Orderly) (h : e.AllListed) (hr : e.MayRestart q) (hc : e.Converts q e') :
    e'.AllListed where
  toListed := h.toListed.convert ho hc
  found {p} hp := by
    unfold registered?
    rw [hc.registry]
    by_cases ht : p = e.queues.size
    · rw [ht, hc.newId]
      exact Keyed.get?_put_self _ _ _
    · by_cases hpq : p = q
      · rw [hpq, hc.old] at hp
        cases hp
      · rw [hc.other hpq ht] at hp ⊢
        have found := h.found hp
        refine (Keyed.get?_put_of_ne _ _ fun hk => ?_).trans found
        rcases hr with halive | hfree
        · exact hpq (h.unique hp halive hk)
        · unfold registered? at found hfree
          rw [hk, hfree] at found
          cases found

/-- The state of a live queue changes, or its listeners, and nothing else of it. -/
theorem changeQueue (h : e.AllListed) {f : Queue → Queue} (hl : (e.changeQueue q f).Listed)
    (hf : ∀ x, (f x).id = x.id)
    (hs : ((f (e.queue q)).state.isAlive = true → (e.queue q).state.isAlive = true)) :
    (e.changeQueue q f).AllListed where
  toListed := hl
  found {p} hp := by
    have id := e.queue_changeQueue_keep hf q p
    unfold registered?
    rw [id]
    refine h.found ?_
    rw [e.queue_changeQueue] at hp
    split at hp
    · rename_i hqp
      rw [← hqp.1] at hp ⊢
      exact hs hp
    · exact hp

/-- A host that starts queues under free ids only keeps all of them in the registry. -/
theorem hosting : Upkeep.Hosting Operation.StartsFree True False Engine.MayRestart Engine.AllListed where
  toUpkeep := Upkeep.OfLives.upkeep {
    same := same
    make := fun ho h hx => h.make ho hx
    launch := fun _ h hq hidle hs => h.launch hq hidle (hs trivial)
    close := fun _ h _ hend hs hc => h.close hend hs hc
    convert := fun ho h _ hr hc => h.convert ho hr hc
    listen := fun _ h _ => h.changeQueue (h.toListed.listen _) (fun _ => rfl) id
    active := fun {e q} _ _ ha _ => by
      have running : (e.queue q).state = .running := by
        have := (Bool.and_eq_true_iff.1 ha).1
        simpa using this
      exact .inl (by rw [running]; rfl)
    registered := fun _ h hid _ => .inl (h.alive hid) }
  allows {e op} ha := by
    cases op with
    | start q => exact fun _ => ha
    | runToCompletion q => exact fun _ => ha
    | runScript name options starts => exact fun _ => ha
    | runCommands source name options starts => exact fun _ => ha
    | forceToTimed q delay => exact ha
    | append q source => exact nofun
    | inject q source => exact nofun
    | _ => trivial
  pause _ h _ _ hs :=
    h.changeQueue (h.toListed.changeState (by rw [hs]; rfl) rfl) (fun _ => rfl) fun _ => by rw [hs]; rfl
  resume _ h _ _ hs :=
    h.changeQueue (h.toListed.changeState (by rw [hs]; rfl) rfl) (fun _ => rfl) fun _ => by rw [hs]; rfl
  hear _ h _ _ _ := h.changeQueue (h.toListed.listen _) (fun _ => rfl) id
  late _ h _ _ _ := ⟨⟨h.alive, h.key, h.replaced⟩, h.found⟩
  task _ _ h := ⟨⟨h.alive, h.key, h.replaced⟩, h.found⟩

end Engine.AllListed

/-- As long as queues are started under free ids only, live queues have ids that differ in more than
case, and each of them is the one that is registered under its id, so that every beat reaches it. -/
theorem live_ids_unique {config : Config} {e : Engine}
    (h : Runs Operation.StartsFree (Host.create config []) e) {q : QueueRef}
    (hq : (e.queue q).state.isAlive = true) :
    e.registered? (e.queue q).id = some q ∧ q ∈ e.registry.values ∧
      ∀ p, p ≠ q → (e.queue p).state.isAlive = true →
        Text.lower (e.queue p).id ≠ Text.lower (e.queue q).id := by
  have first : (Host.create config []).AllListed :=
    ⟨(Host.create_isNew config []).listed, fun {q} hq => by
      rw [(Host.create_isNew config []).queue_eq] at hq
      cases hq⟩
  have listed : e.AllListed :=
    (Discipline.Upheld.step_runs Engine.AllListed.hosting ⟨Host.create_orderly config, first⟩
      (Host.create_isNew config []).underway h).1.2
  have found := listed.found hq
  refine ⟨found, ?_, fun p hpq hp hid => hpq (listed.unique hp hq hid)⟩
  obtain ⟨x, hx, rfl⟩ := Keyed.mem_of_get? found
  exact List.mem_map_of_mem hx

/-- Two queues that wait: one makes its id, the other one is given a free one. -/
theorem live_ids_unique_waits :
    let e₁ := ((Operation.runCommands "wait 1" none {} true).act 10 (Host.create {} [])).2
    let e₂ := ((Operation.runCommands "wait 1" none { id := some "B" } true).act 10 e₁).2
    (e₂.queue 1).state.isAlive = true ∧ (e₂.queue 3).state.isAlive = true ∧
      e₂.registered? (e₂.queue 3).id = some 3 ∧
        Text.lower (e₂.queue 1).id ≠ Text.lower (e₂.queue 3).id := by
  intro e₁ e₂
  obtain ⟨ok₁, free, ok₂, alive₁, alive₃⟩ :
      ((Operation.runCommands "wait 1" none {} true).act 10 (Host.create {} [])).1.toBool = true ∧
      e₁.registered? "B" = none ∧
      ((Operation.runCommands "wait 1" none { id := some "B" } true).act 10 e₁).1.toBool = true ∧
      (e₂.queue 1).state.isAlive = true ∧ (e₂.queue 3).state.isAlive = true := by decide +kernel
  have run₁ : Runs Operation.StartsFree (Host.create {} []) e₁ :=
    .ok .first 10 (.runCommands "wait 1" none {} true) trivial (fun _ => nofun) ok₁
  have run₂ : Runs Operation.StartsFree (Host.create {} []) e₂ := by
    refine run₁.ok 10 (.runCommands "wait 1" none { id := some "B" } true) trivial ?_ ok₂
    rintro - k ⟨⟩
    exact free
  obtain ⟨registered, -, others⟩ := live_ids_unique run₂ alive₃
  exact ⟨alive₁, alive₃, registered, others 1 (by decide) alive₁⟩

/-- A host that starts a queue under the id of a live one gets two live queues with one id, and only
the later one is registered. -/
theorem live_ids_clash :
    let e₁ := ((Operation.runCommands "wait 1" none { id := some "a" } true).act 10 (Host.create {} [])).2
    let e₂ := ((Operation.runCommands "wait 1" none { id := some "A" } true).act 10 e₁).2
    Reachable (Host.create {} []) e₂ ∧
      (e₂.queue 1).state.isAlive = true ∧ (e₂.queue 3).state.isAlive = true ∧
        Text.lower (e₂.queue 1).id = Text.lower (e₂.queue 3).id ∧
          e₂.registered? (e₂.queue 1).id = some 3 ∧ 1 ∉ e₂.registry.values := by
  intro e₁ e₂
  obtain ⟨ok₁, ok₂, clash⟩ :
      ((Operation.runCommands "wait 1" none { id := some "a" } true).act 10 (Host.create {} [])).1.toBool = true ∧
      ((Operation.runCommands "wait 1" none { id := some "A" } true).act 10 e₁).1.toBool = true ∧
      (e₂.queue 1).state.isAlive = true ∧ (e₂.queue 3).state.isAlive = true ∧
        Text.lower (e₂.queue 1).id = Text.lower (e₂.queue 3).id ∧
          e₂.registered? (e₂.queue 1).id = some 3 ∧ 1 ∉ e₂.registry.values := by decide +kernel
  have run₁ : Reachable (Host.create {} []) e₁ :=
    .ok .first 10 (.runCommands "wait 1" none { id := some "a" } true) trivial ok₁
  exact ⟨run₁.ok 10 (.runCommands "wait 1" none { id := some "A" } true) trivial ok₂, clash⟩

end QueueScript
