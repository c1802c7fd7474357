import QueueScript.Proofs.LiveQueues

/-!
# Completion is reported once

A listener of the host waits on the queue it was given to.  When that queue is replaced, the listener
moves on; when the queue that it waits on ends, it is told and forgotten.  So there is one place where a
listener waits, until it has been told (`Engine.Heard`), and this place is the last one in the chain of
replacements (`Engine.LeadsTo`).
-/

namespace QueueScript

/-! ## Listeners under a label -/

/-- Whether a listener is one of the host under a label. -/
def Listener.isUnder (label : String) : Listener → Bool
  | .finish _ => false
  | .notify l _ => l == label

/-- The calls of listeners under a label. -/
def Engine.callsOf (e : Engine) (label : String) : List Firing :=
  e.fired.filter fun f => f.label == label && f.state != "handoff"

/-- No state has the name of a handoff. -/
theorem QueueState.name_ne_handoff (s : QueueState) : s.name ≠ "handoff" := by
  cases s <;> decide

/-- A queue that ends calls every listener under a label, if none of them fails. -/
theorem Listener.filter_firings (label : String) (q : QueueRef) (s : QueueState) {ls : List Listener}
    (hc : ∀ l ∈ ls, l.isCalm = true) :
    (Listener.firings q s ls).filter (fun f => f.label == label && f.state != "handoff") =
      (ls.filter (·.isUnder label)).map fun _ => ⟨label, q + 1, s.name⟩ := by
  induction ls with
  | nil => rfl
  | cons l rest ih =>
    have ih := ih fun l hl => hc l (List.mem_cons_of_mem _ hl)
    cases l with
    | finish n => exact ih
    | notify name error =>
      cases error with
      | some message => exact absurd (hc _ List.mem_cons_self) nofun
      | none =>
        unfold Listener.firings
        by_cases hl : name = label
        · subst hl
          simp [Listener.isUnder, s.name_ne_handoff, ih]
        · simp [Listener.isUnder, hl, ih]

namespace Engine

/-- A listener under a label waits on one queue, or on none, and these are its calls. -/
structure Heard (label : String) (w : Option QueueRef) (calls : List Firing) (e : Engine) : Prop where
  waits (p : QueueRef) : (e.queue p).listeners.filter (·.isUnder label) =
    if w = some p then [.notify label none] else []
  calls : e.callsOf label = calls

/-- Queues that have ended have no listeners left, and no listener fails. -/
structure Hears (e : Engine) : Prop extends Listed e where
  told {q : QueueRef} : (e.queue q).state.isEnd = true → (e.queue q).listeners = []
  calm {q : QueueRef} {l : Listener} : l ∈ (e.queue q).listeners → l.isCalm = true

/-- Where a listener that was given to a queue stands: it waits on the last queue of the chain, or it has
been told of the end of that queue.  A listener that was not given to a queue yet waits nowhere. -/
def Tracks (label : String) (home : Option QueueRef) (w : Option QueueRef) (calls : List Firing)
    (e : Engine) : Prop :=
  match home with
  | none => w = none ∧ calls = []
  | some q => ∃ t, e.LeadsTo q t ∧ t < e.queues.size ∧ (e.queue t).replacedBy = none ∧
    (((e.queue t).state.isEnd = false ∧ w = some t ∧ calls = []) ∨
      ((e.queue t).state.isEnd = true ∧ w = none ∧ calls = [⟨label, t + 1, (e.queue t).state.name⟩]))

/-- Listeners are told once, among them the one under a label. -/
structure Reports (label : String) (home : Option QueueRef) (e : Engine) : Prop extends Hears e where
  tracked : ∃ w calls, e.Heard label w calls ∧ e.Tracks label home w calls

namespace Heard

variable {label : String} {w : Option QueueRef} {calls : List Firing} {e e' : Engine} {q : QueueRef}

/-- What was heard stays so while listeners and calls do. -/
theorem same (h : e.Heard label w calls) (hl : ∀ p, (e'.queue p).listeners = (e.queue p).listeners)
    (hf : e'.fired = e.fired) : e'.Heard label w calls := by
  refine ⟨fun p => ?_, ?_⟩
  · rw [hl]
    exact h.waits p
  · unfold callsOf
    rw [hf]
    exact h.calls

/-- Another listener is given to a queue. -/
theorem listen (h : e.Heard label w calls) {l : Listener} (hl : l.isUnder label = false) :
    Heard label w calls (e.changeQueue q fun x => { x with listeners := x.listeners ++ [l] }) := by
  refine ⟨fun p => ?_, h.calls⟩
  rw [e.queue_changeQueue]
  split
  · simpa [hl] using h.waits p
  · exact h.waits p

/-- Somebody else is called. -/
theorem call (h : e.Heard label w calls) {firing : Firing}
    (hf : (firing.label == label && firing.state != "handoff") = false) :
    Heard label w calls { e with fired := firing :: e.fired } := by
  refine ⟨h.waits, ?_⟩
  unfold callsOf
  rw [List.filter_cons_of_neg (by simp [hf])]
  exact h.calls

/-- A new queue has no listeners. -/
theorem make (h : e.Heard label w calls) {x : Queue} (hx : x.IsNew) :
    (e.withQueue x).Heard label w calls := by
  refine ⟨fun p => ?_, h.calls⟩
  rw [e.queue_withQueue]
  split
  · rename_i hp
    have none := h.waits p
    rw [e.queue_of_size_le (Nat.le_of_eq hp.symm)] at none
    rw [hx.listeners]
    exact none
  · exact h.waits p

/-- The queue that a listener waits on ends. -/
theorem close_here (h : e.Heard label (some q) calls) {s : QueueState} (hc : e.Closes q s e')
    (hcalm : ∀ l ∈ (e.queue q).listeners, l.isCalm = true) :
    e'.Heard label none (⟨label, q + 1, s.name⟩ :: calls) := by
  refine ⟨fun p => ?_, ?_⟩
  · rw [if_neg nofun]
    by_cases hp : p = q
    · rw [hp, hc.listeners]
      rfl
    · rw [hc.other hp, h.waits p, if_neg fun hq => hp (Option.some.inj hq).symm]
  · have here := h.waits q
    rw [if_pos rfl] at here
    unfold callsOf
    rw [hc.fired, List.filter_append, List.filter_reverse, Listener.filter_firings label q s hcalm, here]
    exact congrArg (_ :: ·) h.calls

/-- A queue ends that the listener does not wait on. -/
theorem close_other (h : e.Heard label w calls) (hw : w ≠ some q) {s : QueueState} (hc : e.Closes q s e')
    (hcalm : ∀ l ∈ (e.queue q).listeners, l.isCalm = true) : e'.Heard label w calls := by
  refine ⟨fun p => ?_, ?_⟩
  · by_cases hp : p = q
    · rw [hp, hc.listeners, if_neg hw]
      rfl
    · rw [hc.other hp]
      exact h.waits p
  · have here := h.waits q
    rw [if_neg hw] at here
    unfold callsOf
    rw [hc.fired, List.filter_append, List.filter_reverse, Listener.filter_firings label q s hcalm, here]
    exact h.calls

/-- A queue is replaced, and the listeners move to the queue that comes in its place. -/
theorem convert (h : e.Heard label w calls) (hq : q < e.queues.size) (hc : e.Converts q e') :
    e'.Heard label (if w = some q then some e.queues.size else w) calls := by
  have new : w ≠ some e.queues.size := by
    rintro rfl
    have none := h.waits e.queues.size
    rw [e.queue_of_size_le (Nat.le_refl _), if_pos rfl] at none
    cases none
  refine ⟨fun p => ?_, ?_⟩
  · by_cases ht : p = e.queues.size
    · rw [ht, hc.newListeners, h.waits q]
      by_cases hw : w = some q
      · simp [hw]
      · simp [hw, new]
    · by_cases hp : p = q
      · subst hp
        rw [hc.old]
        by_cases hw : w = some p
        · simp [hw, Ne.symm ht]
        · simp [hw]
      · rw [hc.other hp ht, h.waits p]
        by_cases hw : w = some q
        · simp [hw, Ne.symm ht, Ne.symm hp]
        · simp [hw]
  · unfold callsOf
    rw [hc.fired]
    exact h.calls

end Heard

/-! ## Listeners that do not fail -/

namespace Hears

variable {e e' : Engine} {q : QueueRef}

/-- Listeners are told as before where no life has changed. -/
theorem same (h : e.Hears) (hs : e.SameLives e') : e'.Hears where
  toListed := h.toListed.same hs
  told {q} hend := by
    rw [hs.state] at hend
    rw [hs.listeners]
    exact h.told hend
  calm {q l} hl := by
    rw [hs.listeners] at hl
    exact h.calm hl

/-- A new queue has no listeners to tell. -/
theorem make (ho : e.Orderly) (h : e.Hears) {x : Queue} (hx : x.IsNew) : (e.withQueue x).Hears where
  toListed := h.toListed.make ho hx
  told {q} hend := by
    rw [e.queue_withQueue] at hend ⊢
    split
    · exact hx.listeners
    · rename_i hq
      rw [if_neg hq] at hend
      exact h.told hend
  calm {q l} hl := by
    rw [e.queue_withQueue] at hl
    split at hl
    · rw [hx.listeners] at hl
      cases hl
    · exact h.calm hl

/-- A queue changes its state, but does not end. -/
theorem changeState (h : e.Hears) {s : QueueState} (hs : s.isEnd = false)
    (hl : (e.changeQueue q ({ · with state := s })).Listed) :
    (e.changeQueue q ({ · with state := s })).Hears where
  toListed := hl
  told {p} hend := by
    rw [e.queue_changeQueue] at hend ⊢
    split at hend
    · rw [hs] at hend
      cases hend
    · rename_i hp
      rw [if_neg hp]
      exact h.told hend
  calm {p l} hl := by
    have same := e.queue_changeQueue_keep (f := ({ · with state := s })) (g := Queue.listeners)
      (fun _ => rfl) q p
    rw [same] at hl
    exact h.calm hl

/-- A queue that starts keeps its listeners. -/
theorem launch (h : e.Hears) (hq : q < e.queues.size) (hidle : (e.queue q).state = .idle) :
    (e.launched q).Hears where
  toListed := h.toListed.launch hq hidle
  told {p} hend := by
    by_cases hp : p = q
    · rw [hp, e.queue_launched hq] at hend
      cases hend
    · rw [e.queue_launched_of_ne hp] at hend ⊢
      exact h.told hend
  calm {p l} hl := by
    by_cases hp : p = q
    · rw [hp, e.queue_launched hq] at hl
      exact h.calm hl
    · rw [e.queue_launched_of_ne hp] at hl
      exact h.calm hl

/-- A queue that ends has told its listeners. -/
theorem close (h : e.Hears) (hend : (e.queue q).state.isEnd = false) {s : QueueState}
    (hc : e.Closes q s e') : e'.Hears where
  toListed := h.toListed.close hend hc
  told {p} hp := by
    by_cases hpq : p = q
    · rw [hpq]
      exact hc.listeners
    · rw [hc.other hpq] at hp ⊢
      exact h.told hp
  calm {p l} hl := by
    by_cases hpq : p = q
    · rw [hpq, hc.listeners] at hl
      cases hl
    · rw [hc.other hpq] at hl
      exact h.calm hl

/-- The replacement of a queue takes its listeners over. -/
theorem convert (ho : e.Orderly) (h : e.Hears) (hc : e.Converts q e') : e'.Hears where
  toListed := h.toListed.convert ho hc
  told {p} hp := by
    by_cases ht : p = e.queues.size
    · rw [ht, hc.newState] at hp
      cases hp
    · by_cases hpq : p = q
      · rw [hpq, hc.old]
      · rw [hc.other hpq ht] at hp ⊢
        exact h.told hp
  calm {p l} hl := by
    by_cases ht : p = e.queues.size
    · rw [ht, hc.newListeners] at hl
      exact h.calm hl
    · by_cases hpq : p = q
      · rw [hpq, hc.old] at hl
        cases hl
      · rw [hc.other hpq ht] at hl
        exact h.calm hl

/-- A queue that has not ended gets a listener. -/
theorem listen (h : e.Hears) {l : Listener} (hl : l.isCalm = true)
    (hend : (e.queue q).state.isEnd = false) :
    (e.changeQueue q fun x => { x with listeners := x.listeners ++ [l] }).Hears where
  toListed := h.toListed.listen l
  told {p} hp := by
    rw [e.queue_changeQueue] at hp ⊢
    split at hp
    · rename_i hq
      rw [← hq.1, hend] at hp
      cases hp
    · rename_i hq
      rw [if_neg hq]
      exact h.told hp
  calm {p k} hk := by
    rw [e.queue_changeQueue] at hk
    split at hk
    · rcases List.mem_append.1 hk with hk | hk
      · exact h.calm hk
      · rw [List.mem_singleton.1 hk]
        exact hl
    · exact h.calm hk

end Hears

/-! ## Where a listener stands -/

namespace Tracks

variable {label : String} {home w : Option QueueRef} {calls : List Firing} {e e' : Engine} {q : QueueRef}

/-- Replacements and ends stay as they are. -/
theorem same (h : e.Tracks label home w calls) (hq : e.queues.size ≤ e'.queues.size)
    (hr : ∀ p, (e'.queue p).replacedBy = (e.queue p).replacedBy)
    (hs : ∀ p, (e'.queue p).state = (e.queue p).state ∨
      (e'.queue p).state.isEnd = false ∧ (e.queue p).state.isEnd = false) :
    e'.Tracks label home w calls := by
  cases home with
  | none => exact h
  | some q =>
    obtain ⟨t, leads, ht, last, place⟩ := h
    refine ⟨t, leads.same hr, Nat.lt_of_lt_of_le ht hq, (hr t).trans last, ?_⟩
    rcases hs t with hs | ⟨hnew, hold⟩
    · rw [hs]
      exact place
    · rw [hnew]
      rw [hold] at place
      rcases place with ⟨-, hw⟩ | ⟨hend, -⟩
      · exact .inl ⟨rfl, hw⟩
      · cases hend

/-- A queue that the listener waits on ends, or another one. -/
theorem close (h : e.Tracks label home w calls) (hend : (e.queue q).state.isEnd = false)
    {s : QueueState} (hs : s.isEnd = true) (hc : e.Closes q s e') :
    (w = some q → e'.Tracks label home none (⟨label, q + 1, s.name⟩ :: calls)) ∧
      (w ≠ some q → e'.Tracks label home w calls) := by
  cases home with
  | none =>
    refine ⟨fun hw => ?_, fun _ => h⟩
    rw [h.1] at hw
    cases hw
  | some r =>
    obtain ⟨t, leads, here, last, place⟩ := h
    have here : t < e'.queues.size := Nat.lt_of_lt_of_eq here hc.queues.symm
    have replacedBy (p : QueueRef) : (e'.queue p).replacedBy = (e.queue p).replacedBy := by
      by_cases hp : p = q
      · rw [hp]
        exact hc.replacedBy
      · rw [hc.other hp]
    refine ⟨fun hw => ?_, fun hw => ?_⟩
    · rcases place with ⟨-, rfl, rfl⟩ | ⟨-, rfl, -⟩
      · cases hw
        refine ⟨q, leads.same replacedBy, here, (replacedBy q).trans last, .inr ⟨?_, rfl, ?_⟩⟩
        · rw [hc.state]
          exact hs
        · rw [hc.state]
      · cases hw
    · have ht : t ≠ q := by
        rintro rfl
        rcases place with ⟨-, rfl, -⟩ | ⟨hend', -⟩
        · exact hw rfl
        · rw [hend] at hend'
          cases hend'
      refine ⟨t, leads.same replacedBy, here, (replacedBy t).trans last, ?_⟩
      rw [hc.other ht]
      exact place

/-- A queue is replaced that has neither ended nor been replaced before. -/
theorem convert (h : e.Tracks label home w calls) (hq : q < e.queues.size)
    (hend : (e.queue q).state.isEnd = false) (hlast : (e.queue q).replacedBy = none)
    (hc : e.Converts q e') :
    e'.Tracks label home (if w = some q then some e.queues.size else w) calls := by
  cases home with
  | none =>
    obtain ⟨rfl, rfl⟩ := h
    exact ⟨rfl, rfl⟩
  | some r =>
    obtain ⟨t, leads, here, last, place⟩ := h
    have grown : e.queues.size < e'.queues.size := by
      rw [hc.queues]
      exact Nat.lt_succ_self _
    have size (p : QueueRef) (hp : p = e.queues.size) : (e.queue p).replacedBy = none := by
      rw [e.queue_of_size_le (Nat.le_of_eq hp.symm)]
      rfl
    -- Queues that were replaced before still are, by the same queues.
    have chain : e'.LeadsTo r t := by
      refine leads.kept fun p u hr => ?_
      rw [hc.other]
      · exact hr
      · rintro rfl
        rw [hlast] at hr
        cases hr
      · intro hp
        rw [size p hp] at hr
        cases hr
    by_cases ht : t = q
    · subst ht
      rcases place with ⟨-, rfl, rfl⟩ | ⟨hend', -⟩
      · rw [if_pos rfl]
        refine ⟨e.queues.size, chain.concat ?_, grown, hc.newReplacedBy, .inl ⟨?_, rfl, rfl⟩⟩
        · rw [hc.old]
        · rw [hc.newState]
          rfl
      · rw [hend] at hend'
        cases hend'
    · have hw : w ≠ some q := by
        rintro rfl
        rcases place with ⟨-, hw, -⟩ | ⟨-, hw, -⟩
        · exact ht (Option.some.inj hw).symm
        · cases hw
      rw [if_neg hw]
      have same := hc.other ht (Nat.ne_of_lt here)
      refine ⟨t, chain, Nat.lt_trans here grown, ?_, ?_⟩
      · rw [same]
        exact last
      · rw [same]
        exact place

end Tracks

/-- The queue has neither ended nor been replaced. -/
def Pending (e : Engine) (q : QueueRef) : Prop :=
  (e.queue q).state.isEnd = false ∧ (e.queue q).replacedBy = none

end Engine

/-- The operation replaces only queues that have neither ended nor been replaced, and asks to be told
under other labels than the given one, without failing. -/
def Operation.Polite (label : String) (e : Engine) : Operation → Prop
  | .forceToTimed q _ => e.Pending q
  | .listen _ l error => l ≠ label ∧ error = none
  | _ => True

namespace Engine.Reports

variable {label : String} {home : Option QueueRef} {e e' : Engine} {q : QueueRef}

/-- Reports are as before where no life has changed. -/
theorem same (h : e.Reports label home) (hs : e.SameLives e') : e'.Reports label home := by
  obtain ⟨w, calls, heard, tracks⟩ := h.tracked
  refine ⟨h.toHears.same hs, w, calls, heard.same hs.listeners hs.fired, ?_⟩
  exact tracks.same (Nat.le_of_eq hs.queues.symm) hs.replacedBy fun p => .inl (hs.state p)

/-- A new queue is none that anybody listens to. -/
theorem make (ho : e.Orderly) (h : e.Reports label home) {x : Queue} (hx : x.IsNew) :
    (e.withQueue x).Reports label home := by
  obtain ⟨w, calls, heard, tracks⟩ := h.tracked
  refine ⟨h.toHears.make ho hx, w, calls, heard.make hx, ?_⟩
  have new : e.queue e.queues.size = default := e.queue_of_size_le (Nat.le_refl _)
  refine tracks.same (by simp) (fun p => ?_) fun p => ?_
  · rw [e.queue_withQueue]
    split
    · rename_i hp
      rw [hp, new, hx.replacedBy]
      rfl
    · rfl
  · rw [e.queue_withQueue]
    split
    · rename_i hp
      rw [hp, new, hx.state]
      exact .inl rfl
    · exact .inl rfl

/-- A queue changes its state, but does not end. -/
theorem changeState (h : e.Reports label home) {s : QueueState} (hs : s.isEnd = false)
    (hend : (e.queue q).state.isEnd = false) (hl : (e.changeQueue q ({ · with state := s })).Listed) :
    (e.changeQueue q ({ · with state := s })).Reports label home := by
  obtain ⟨w, calls, heard, tracks⟩ := h.tracked
  have keep {α : Type} (g : Queue → α) (hg : ∀ x : Queue, g { x with state := s } = g x) (p : QueueRef) :
      g ((e.changeQueue q ({ · with state := s })).queue p) = g (e.queue p) :=
    e.queue_changeQueue_keep hg q p
  refine ⟨h.toHears.changeState hs hl, w, calls, heard.same (keep Queue.listeners fun _ => rfl) rfl, ?_⟩
  refine tracks.same (Nat.le_of_eq (e.size_changeQueue q _).symm) (keep Queue.replacedBy fun _ => rfl)
    fun p => ?_
  rw [e.queue_changeQueue]
  split
  · rename_i hp
    rw [← hp.1]
    exact .inr ⟨hs, hend⟩
  · exact .inl rfl

/-- A queue that starts has nothing to report. -/
theorem launch (h : e.Reports label home) (hq : q < e.queues.size)
    (hidle : (e.queue q).state = .idle) : (e.launched q).Reports label home := by
  obtain ⟨w, calls, heard, tracks⟩ := h.tracked
  have keep {α : Type} (g : Queue → α) (hg : ∀ x : Queue, g { x with state := .running } = g x)
      (p : QueueRef) : g ((e.launched q).queue p) = g (e.queue p) :=
    e.queue_changeQueue_keep hg q p
  refine ⟨h.toHears.launch hq hidle, w, calls, heard.same (keep Queue.listeners fun _ => rfl) rfl, ?_⟩
  refine tracks.same (Nat.le_of_eq (e.size_changeQueue q _).symm) (keep Queue.replacedBy fun _ => rfl)
    fun p => ?_
  by_cases hp : p = q
  · rw [hp, e.queue_launched hq, hidle]
    exact .inr ⟨rfl, rfl⟩
  · rw [e.queue_launched_of_ne hp]
    exact .inl rfl

/-- A queue that ends reports once. -/
theorem close (h : e.Reports label home) (hend : (e.queue q).state.isEnd = false) {s : QueueState}
    (hs : s.isEnd = true) (hc : e.Closes q s e') : e'.Reports label home := by
  obtain ⟨w, calls, heard, tracks⟩ := h.tracked
  have calm : ∀ l ∈ (e.queue q).listeners, l.isCalm = true := fun l hl => h.calm hl
  obtain ⟨here, other⟩ := tracks.close hend hs hc
  refine ⟨h.toHears.close hend hc, ?_⟩
  by_cases hw : w = some q
  · subst hw
    exact ⟨none, _, heard.close_here hc calm, here rfl⟩
  · exact ⟨w, calls, heard.close_other hw hc calm, other hw⟩

/-- The replacement of a queue is going to report in its place. -/
theorem convert (ho : e.Orderly) (h : e.Reports label home) (hq : q < e.queues.size) (hp : e.Pending q)
    (hc : e.Converts q e') : e'.Reports label home := by
  obtain ⟨w, calls, heard, tracks⟩ := h.tracked
  exact ⟨h.toHears.convert ho hc, _, calls, heard.convert hq hc, tracks.convert hq hp.1 hp.2 hc⟩

/-- A listener under another label does not change the reports. -/
theorem listen (h : e.Reports label home) {l : Listener} (hl : l.isCalm = true)
    (hu : l.isUnder label = false) (hend : (e.queue q).state.isEnd = false) :
    (e.changeQueue q fun x => { x with listeners := x.listeners ++ [l] }).Reports label home := by
  obtain ⟨w, calls, heard, tracks⟩ := h.tracked
  let f : Queue → Queue := fun x => { x with listeners := x.listeners ++ [l] }
  have keep {α : Type} (g : Queue → α) (hg : ∀ x : Queue, g (f x) = g x) (p : QueueRef) :
      g ((e.changeQueue q f).queue p) = g (e.queue p) := e.queue_changeQueue_keep hg q p
  refine ⟨h.toHears.listen hl hend, w, calls, heard.listen hu, ?_⟩
  exact tracks.same (Nat.le_of_eq (e.size_changeQueue q f).symm) (keep Queue.replacedBy fun _ => rfl)
    fun p => .inl (keep Queue.state (fun _ => rfl) p)

/-- Somebody else is called. -/
theorem call (h : e.Reports label home) {firing : Firing}
    (hf : (firing.label == label && firing.state != "handoff") = false) :
    Reports label home { e with fired := firing :: e.fired } := by
  obtain ⟨w, calls, heard, tracks⟩ := h.tracked
  refine ⟨⟨⟨h.alive, h.key, h.replaced⟩, h.told, h.calm⟩, w, calls, heard.call hf, ?_⟩
  exact tracks.same (Nat.le_refl _) (fun _ => rfl) fun _ => .inl rfl

/-- A polite host keeps reports right. -/
theorem hosting (label : String) (home : Option QueueRef) :
    Upkeep.Hosting (Operation.Polite label) False False Engine.Pending (Engine.Reports label home) where
  toUpkeep := Upkeep.OfLives.upkeep {
    same := same
    make := fun ho h hx => h.make ho hx
    launch := fun _ h hq hidle _ => h.launch hq hidle
    close := fun _ h _ hend hs hc => h.close hend hs hc
    convert := fun ho h hq hp hc => h.convert ho hq hp hc
    listen := fun _ h hend => h.listen rfl rfl hend
    active := fun {e q} _ _ ha _ => by
      obtain ⟨running, current⟩ := Bool.and_eq_true_iff.1 ha
      refine ⟨?_, Option.isNone_iff_eq_none.1 current⟩
      rw [eq_of_beq running]
      rfl
    registered := fun {e q id} _ h hid _ => by
      have alive := h.alive hid
      refine ⟨?_, h.current fun hs => ?_⟩
      · cases hs : (e.queue q).state with
        | idle | running | paused => rfl
        | stopped | finished =>
          rw [hs] at alive
          cases alive
      · rw [hs] at alive
        cases alive }
  allows {e op} ha := by
    cases op with
    | start q => exact nofun
    | runToCompletion q => exact nofun
    | runScript name options starts => exact nofun
    | runCommands source name options starts => exact nofun
    | forceToTimed q delay => exact ha
    | append q source => exact nofun
    | inject q source => exact nofun
    | _ => trivial
  pause _ h _ _ hs :=
    h.changeState rfl (by rw [hs]; rfl) (h.toListed.changeState (by rw [hs]; rfl) rfl)
  resume _ h _ _ hs :=
    h.changeState rfl (by rw [hs]; rfl) (h.toListed.changeState (by rw [hs]; rfl) rfl)
  hear {e q l error} _ h _ ha hend := by
    obtain ⟨hl, rfl⟩ := ha
    exact h.listen rfl (by simpa [Listener.isUnder] using hl) hend
  late {e q l error} _ h _ ha _ := h.call (by simp [ha.1])
  task l count h := h.call (by simp)

/-- A listener under a label that nobody uses is given to a queue. -/
theorem given (h : e.Reports label none) (hq : q < e.queues.size) (hp : e.Pending q) :
    (e.changeQueue q fun x => { x with listeners := x.listeners ++ [.notify label none] }).Reports
      label (some q) := by
  obtain ⟨w, calls, heard, rfl, rfl⟩ := h.tracked
  let l : Listener := .notify label none
  let f : Queue → Queue := fun x => { x with listeners := x.listeners ++ [l] }
  have here : (e.changeQueue q f).queue q = f (e.queue q) := e.queue_changeQueue_self hq f
  refine ⟨h.toHears.listen rfl hp.1, some q, [], ⟨fun p => ?_, heard.calls⟩, q, .here q, ?_, ?_, .inl ?_⟩
  · have nobody := heard.waits p
    rw [if_neg nofun] at nobody
    rw [e.queue_changeQueue]
    split
    · rename_i hqp
      rw [List.filter_append, nobody, if_pos (congrArg some hqp.1)]
      simp [Listener.isUnder]
    · rename_i hqp
      rw [nobody, if_neg]
      intro hw
      cases hw
      exact hqp ⟨rfl, hq⟩
  · exact Nat.lt_of_lt_of_eq hq (e.size_changeQueue q f).symm
  · exact (congrArg Queue.replacedBy here).trans hp.2
  · exact ⟨(congrArg (·.state.isEnd) here).trans hp.1, rfl, rfl⟩

end Engine.Reports

/-- A new engine has reported nothing. -/
theorem Host.create_reports (config : Config) (label : String) :
    (Host.create config []).Reports label none := by
  have new := Host.create_isNew config []
  have quiet (p : QueueRef) : ((Host.create config []).queue p).listeners = [] := by
    rw [new.queue_eq]
    rfl
  refine ⟨⟨new.listed, fun _ => quiet _, fun {p l} hl => ?_⟩, none, [], ⟨fun p => ?_, rfl⟩, rfl, rfl⟩
  · rw [quiet] at hl
    cases hl
  · rw [quiet]
    rfl

/-- A listener that does not fail is called once, when the queue that it was given to ends, or the last
one that came in its place: in every engine of a run it has been called if that queue has ended, with the
number of that queue and the state it ended in, and has not been called otherwise.  What is registered is
alive and was not replaced, and replacements go to later queues, so that following them comes to an
end. -/
theorem completion_reported_once {config : Config} {label : String} {q : QueueRef} {fuel : Nat}
    {e₀ e : Engine} (h₀ : Runs (Operation.Polite label) (Host.create config []) e₀)
    (hq : q < e₀.queues.size) (hp : e₀.Pending q)
    (h : Runs (Operation.Polite label) ((Operation.listen q label none).act fuel e₀).2 e) :
    (let last := e.queue (e.follow q)
     last.replacedBy = none ∧ e.callsOf label =
       if last.state.isEnd then [⟨label, e.follow q + 1, last.state.name⟩] else []) ∧
    (∀ id p, e.registered? id = some p →
      (e.queue p).state.isAlive = true ∧ (e.queue p).replacedBy = none) ∧
    ∀ p r, (e.queue p).replacedBy = some r → p < r ∧ r < e.queues.size := by
  obtain ⟨⟨-, reports₀⟩, -⟩ := Discipline.Upheld.step_runs (Engine.Reports.hosting label none)
    ⟨Host.create_orderly config, Host.create_reports config label⟩
    (Host.create_isNew config []).underway h₀
  let e₁ := e₀.changeQueue q fun x => { x with listeners := x.listeners ++ [.notify label none] }
  have given : (Operation.listen q label none).act fuel e₀ = (.ok (), e₁) := by
    show (if (e₀.queue q).state.isEnd then _ else _ : Action Unit) e₀ = _
    rw [hp.1]
    rfl
  have idle₁ : e₁.Orderly ∧ e₁.underway = [] := by
    have reached : Reachable (Host.create config []) ((Operation.listen q label none).act fuel e₀).2 :=
      Reachable.ok (h₀.reachable .first) fuel (.listen q label none) hq (by rw [given]; rfl)
    rw [given] at reached
    exact reached.orderly
  rw [given] at h
  obtain ⟨⟨orderly, reports⟩, -⟩ := Discipline.Upheld.step_runs (Engine.Reports.hosting label (some q))
    ⟨idle₁.1, reports₀.given hq hp⟩ idle₁.2 h
  have tidy := orderly.healthy.tidy
  refine ⟨?_, fun id p hid => ?_, fun p r hr => tidy.replacedBy hr⟩
  · obtain ⟨w, calls, heard, t, leads, here, last, place⟩ := reports.tracked
    have size : q < e.queues.size := leads.start_lt tidy here
    rw [leads.follow_eq tidy size last]
    refine ⟨last, heard.calls.trans ?_⟩
    rcases place with ⟨hend, -, rfl⟩ | ⟨hend, -, rfl⟩
    · rw [hend]
      rfl
    · rw [if_pos hend]
  · have alive := reports.alive hid
    refine ⟨alive, reports.current fun hs => ?_⟩
    rw [hs] at alive
    cases alive

/-- A queue is replaced when it waits, and the host replaces it once more.  The listener is told by the
third queue, when the next beat finds it without entries. -/
theorem completion_reported_once_replaced :
    let e₀ := ((Operation.runCommands "wait 1\ndebug hi" none {} false).act 10 (Host.create {} [])).2
    let e₁ := ((Operation.listen 0 "done" none).act 10 e₀).2
    let e₂ := ((Operation.start 0).act 10 e₁).2
    let e₃ := ((Operation.forceToTimed 1 none).act 10 e₂).2
    let e₄ := ((Operation.tick none).act 10 e₃).2
    e₃.follow 0 = 2 ∧ e₃.callsOf "done" = [] ∧ e₄.follow 0 = 2 ∧
      e₄.callsOf "done" = [⟨"done", 3, "finished"⟩] := by
  intro e₀ e₁ e₂ e₃ e₄
  obtain ⟨⟨ok₀, size₀, pending⟩, ⟨size₁, ok₂⟩, ⟨size₂, polite, ok₃⟩, ok₄, ⟨place₃, state₃⟩, place₄, state₄⟩ :
      (((Operation.runCommands "wait 1\ndebug hi" none {} false).act 10 (Host.create {} [])).1.toBool = true ∧
        0 < e₀.queues.size ∧ (e₀.queue 0).state.isEnd = false ∧ (e₀.queue 0).replacedBy = none) ∧
      (0 < e₁.queues.size ∧ ((Operation.start 0).act 10 e₁).1.toBool = true) ∧
      (1 < e₂.queues.size ∧ ((e₂.queue 1).state.isEnd = false ∧ (e₂.queue 1).replacedBy = none) ∧
        ((Operation.forceToTimed 1 none).act 10 e₂).1.toBool = true) ∧
      ((Operation.tick none).act 10 e₃).1.toBool = true ∧
      (e₃.follow 0 = 2 ∧ (e₃.queue 2).state.isEnd = false) ∧
      e₄.follow 0 = 2 ∧ (e₄.queue 2).state = .finished := by decide +kernel
  have run₀ : Runs (Operation.Polite "done") (Host.create {} []) e₀ :=
    .ok .first 10 (.runCommands "wait 1\ndebug hi" none {} false) trivial trivial ok₀
  have run₂ : Runs (Operation.Polite "done") e₁ e₂ := .ok .first 10 (.start 0) size₁ trivial ok₂
  have run₃ : Runs (Operation.Polite "done") e₁ e₃ := run₂.ok 10 (.forceToTimed 1 none) size₂ polite ok₃
  have run₄ : Runs (Operation.Polite "done") e₁ e₄ := run₃.ok 10 (.tick none) trivial trivial ok₄
  have before := (completion_reported_once run₀ size₀ pending run₃).1.2
  have after := (completion_reported_once run₀ size₀ pending run₄).1.2
  rw [place₃, state₃] at before
  rw [place₄, state₄] at after
  exact ⟨place₃, before, place₄, after⟩

end QueueScript
