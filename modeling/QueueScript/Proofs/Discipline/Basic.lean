import QueueScript.Engine.Drive
import QueueScript.Proofs.Tables

/-!
# Disciplines of an engine

A *discipline* is a way of keeping an eye on an engine while it works: an invariant, the changes of
the engine that are counted as progress, and the entries, queues and commands that an action may be
given.  An action is *safe* from an engine on when, run on any later engine that satisfies the
invariant, it leaves one that is later still and satisfies it again, whether it succeeds or fails.

What a command may do is said once, as laws of a discipline (`Discipline.Bookkeeping` and the
structures built on it).  Every command is then safe for every discipline with these laws, and an
invariant of all runs is proved by giving a discipline and its laws.

A run that is cut off because its fuel is used up stops in the middle of its work, so a discipline
says apart, in `cut`, what is known then.
-/

namespace QueueScript

instance : LawfulMonad Action := by
  refine LawfulMonad.mk' _ (fun a => ?_) (fun a f => rfl) fun a f g => ?_
  · funext e
    show Action.andThen a Action.done e = a e
    unfold Action.andThen
    match a e with
    | (.ok x, e) => rfl
    | (.error err, e) => rfl
  · funext e
    show Action.andThen (Action.andThen a f) g e = Action.andThen a (fun x => f x >>= g) e
    unfold Action.andThen
    match a e with
    | (.ok x, e) => rfl
    | (.error err, e) => rfl

namespace Action

variable {α β : Type} {a : Action α} {e e' : Engine}

/-- An action that succeeds hands its result and its engine on. -/
theorem bind_ok {f : α → Action β} {x : α} (h : a e = (.ok x, e')) : (a >>= f) e = f x e' := by
  show andThen a f e = _
  unfold andThen
  rw [h]

/-- An action that fails ends what was to follow. -/
theorem bind_error {g : α → Action β} {f : Failure} (h : a e = (.error f, e')) :
    (a >>= g) e = (.error f, e') := by
  show andThen a g e = _
  unfold andThen
  rw [h]

/-- What has succeeded has succeeded step by step. -/
theorem ok_of_bind {f : α → Action β} {y : β} (h : (a >>= f) e = (.ok y, e')) :
    ∃ x e₁, a e = (.ok x, e₁) ∧ f x e₁ = (.ok y, e') := by
  cases ha : a e with
  | mk r e₁ =>
    cases r with
    | ok x => exact ⟨x, e₁, rfl, (bind_ok ha).symm.trans h⟩
    | error f =>
      rw [bind_error ha] at h
      cases h

/-- What succeeds needs no handler. -/
theorem orElse_ok {handle : Failure → Action α} {x : α} (h : a e = (.ok x, e')) :
    orElse a handle e = (.ok x, e') := by
  unfold orElse
  rw [h]

/-- A run that is cut off is not handled. -/
theorem orElse_exhausted {handle : Failure → Action α} (h : a e = (.error .exhausted, e')) :
    orElse a handle e = (.error .exhausted, e') := by
  unfold orElse
  rw [h]

/-- A failure is handled where it left the engine. -/
theorem orElse_error {handle : Failure → Action α} {f : Failure} (hf : f ≠ .exhausted)
    (h : a e = (.error f, e')) : orElse a handle e = handle f e' := by
  unfold orElse
  rw [h]
  cases f with
  | exhausted => exact absurd rfl hf
  | _ => rfl

end Action

/-- What is kept while an engine works. -/
structure Discipline where
  /-- What holds between any two steps. -/
  inv : Engine → Prop
  /-- The first engine may turn into the second one. -/
  le : Engine → Engine → Prop
  /-- What holds when a run is cut off. -/
  cut : Engine → Prop
  /-- The entries that actions may be given. -/
  own : Engine → EntryRef → Prop
  /-- The queues that actions may be given. -/
  mine : Engine → QueueRef → Prop
  /-- The queues that were made not long ago, so that the host knows nothing of them. -/
  fresh : Engine → QueueRef → Prop
  /-- The entries that were put on a queue. -/
  placed : Engine → QueueRef → EntryRef → Prop
  /-- The commands that may be made into entries. -/
  fits : Compiled → Prop
  /-- The sources that may be compiled. -/
  reads : String → Prop := fun _ => True
  /-- The queues that a host may put entries at the head of. -/
  yields : Engine → QueueRef → Prop := fun _ _ => True
  /-- What is known of an entry that was just taken off the head of a queue. -/
  taken : Engine → QueueRef → EntryRef → Prop := fun _ _ _ => True
  /-- The entry needs no further attention from the command it runs. -/
  cared : Engine → EntryRef → Prop
  /-- The entry is done. -/
  marked : Engine → EntryRef → Prop
  refl (e : Engine) : le e e
  trans {e e' e'' : Engine} : le e e' → le e' e'' → le e e''
  own_mono {e e' : Engine} {n : EntryRef} : le e e' → own e n → own e' n
  mine_mono {e e' : Engine} {q : QueueRef} : le e e' → mine e q → mine e' q
  fresh_mono {e e' : Engine} {q : QueueRef} : le e e' → fresh e q → fresh e' q
  placed_mono {e e' : Engine} {q : QueueRef} {n : EntryRef} :
    le e e' → placed e q n → placed e' q n
  placed_own {e : Engine} {q : QueueRef} {n : EntryRef} : placed e q n → own e n
  cared_mono {e e' : Engine} {n : EntryRef} : le e e' → cared e n → cared e' n
  marked_mono {e e' : Engine} {n : EntryRef} : le e e' → marked e n → marked e' n
  marked_cared {e : Engine} {n : EntryRef} : marked e n → cared e n

namespace Discipline

/-- A run may be cut off anywhere.  Without this a discipline forbids that a run is cut off at all. -/
class Lenient (D : Discipline) : Prop where
  inv_cut {e : Engine} : D.inv e → D.cut e

/-- All sources may be compiled, a host may put entries anywhere, and no entry that is taken off a queue
needs to be known. -/
class Open (D : Discipline) : Prop where
  reads (source : String) : D.reads source
  yields (e : Engine) (q : QueueRef) : D.yields e q
  taken (e : Engine) (q : QueueRef) (n : EntryRef) : D.taken e q n

variable {α β : Type} {D : Discipline} {e e₀ e₁ : Engine}

/-! ## Safe actions -/

/-- The second engine is one that the first one may turn into, and satisfies the invariant. -/
def Step (D : Discipline) (e e' : Engine) : Prop :=
  D.inv e' ∧ D.le e e'

/-- The end of an action that began on the engine `e`. -/
def Leaves (D : Discipline) (e : Engine) (Q : α → Engine → Prop) : Except Failure α × Engine → Prop
  | (.ok a, e') => D.Step e e' ∧ Q a e'
  | (.error .exhausted, e') => D.cut e'
  | (.error _, e') => D.Step e e'

/-- From `e₀` on, the action keeps the discipline and its results satisfy `Q`. -/
structure Gives (D : Discipline) (e₀ : Engine) (a : Action α) (Q : α → Engine → Prop) : Prop where
  run (e : Engine) : D.inv e → D.le e₀ e → D.Leaves e Q (a e)

/-- From `e₀` on, the action keeps the discipline. -/
def Safe (D : Discipline) (e₀ : Engine) (a : Action α) : Prop :=
  D.Gives e₀ a fun _ _ => True

/-- An engine is a step away from itself. -/
theorem Step.refl (h : D.inv e) : D.Step e e :=
  ⟨h, D.refl e⟩

/-- Steps follow one another. -/
theorem Step.trans {e e' e'' : Engine} (h : D.Step e e') (h' : D.Step e' e'') : D.Step e e'' :=
  ⟨h'.1, D.trans h.2 h'.2⟩

/-- A failure that keeps the discipline. -/
theorem leaves_error {Q : α → Engine → Prop} {f : Failure} {e' : Engine} (hf : f ≠ .exhausted)
    (h : D.Step e e') : D.Leaves e Q (.error f, e') := by
  cases f with
  | exhausted => exact absurd rfl hf
  | _ => exact h

/-- A failure leaves an engine in the same way, whatever the results would have been. -/
theorem leaves_error_of {Q : α → Engine → Prop} {R : β → Engine → Prop} {f : Failure} {e' : Engine}
    (h : D.Leaves e Q (.error f, e')) : D.Leaves e R (.error f, e') := by
  cases f with
  | exhausted => exact h
  | _ => exact h

/-- What an action leaves behind is counted from any earlier engine. -/
theorem Leaves.from {Q : α → Engine → Prop} {r : Except Failure α × Engine} (h : D.le e e₁)
    (hr : D.Leaves e₁ Q r) : D.Leaves e Q r := by
  obtain ⟨r, e'⟩ := r
  cases r with
  | ok a => exact ⟨⟨hr.1.1, D.trans h hr.1.2⟩, hr.2⟩
  | error f =>
    cases f with
    | exhausted => exact hr
    | _ => exact ⟨hr.1, D.trans h hr.2⟩

/-- Less may be asked of the results. -/
theorem Leaves.mono {Q R : α → Engine → Prop} {r : Except Failure α × Engine}
    (hr : D.Leaves e Q r) (h : ∀ a e', D.Step e e' → Q a e' → R a e') : D.Leaves e R r := by
  obtain ⟨r, e'⟩ := r
  cases r with
  | ok a => exact ⟨hr.1, h a e' hr.1 hr.2⟩
  | error f => exact leaves_error_of hr

/-- What is known of the results besides. -/
theorem Leaves.and {Q R : α → Engine → Prop} {r : Except Failure α × Engine} (hr : D.Leaves e Q r)
    (h : ∀ a e', r = (.ok a, e') → R a e') : D.Leaves e (fun a e' => Q a e' ∧ R a e') r := by
  obtain ⟨r, e'⟩ := r
  cases r with
  | ok a => exact ⟨hr.1, hr.2, h a e' rfl⟩
  | error f => exact leaves_error_of hr

/-- What is safe from an engine on is safe from every later one on. -/
theorem Gives.later {a : Action α} {Q : α → Engine → Prop} (h : D.Gives e₀ a Q)
    (hle : D.le e₀ e₁) : D.Gives e₁ a Q :=
  ⟨fun e he hl => h.run e he (D.trans hle hl)⟩

/-- What keeps the discipline from an engine on keeps it from every later one on. -/
theorem Safe.later {a : Action α} (h : D.Safe e₀ a) (hle : D.le e₀ e₁) : D.Safe e₁ a :=
  Gives.later h hle

/-- Less may be asked of the results of an action. -/
theorem Gives.mono {a : Action α} {Q R : α → Engine → Prop} (h : D.Gives e₀ a Q)
    (hQR : ∀ x e', D.inv e' → D.le e₀ e' → Q x e' → R x e') : D.Gives e₀ a R :=
  ⟨fun e he hl => (h.run e he hl).mono fun x e' hs hq => hQR x e' hs.1 (D.trans hl hs.2) hq⟩

/-- An action with known results keeps the discipline. -/
theorem Gives.safe {a : Action α} {Q : α → Engine → Prop} (h : D.Gives e₀ a Q) : D.Safe e₀ a :=
  h.mono fun _ _ _ _ _ => trivial

/-! ## Actions built from others -/

/-- A result and nothing done. -/
theorem gives_pure {Q : α → Engine → Prop} {a : α} (h : ∀ e, D.inv e → D.le e₀ e → Q a e) :
    D.Gives e₀ (pure a : Action α) Q :=
  ⟨fun e he hl => ⟨Step.refl he, h e he hl⟩⟩

/-- Nothing done. -/
theorem safe_pure (a : α) : D.Safe e₀ (pure a : Action α) :=
  gives_pure fun _ _ _ => trivial

/-- A plain failure changes nothing, so that its results may be anything. -/
theorem gives_fail {Q : α → Engine → Prop} {f : Failure} (hf : f ≠ .exhausted) :
    D.Gives e₀ (Action.fail f : Action α) Q :=
  ⟨fun _ he _ => leaves_error hf (Step.refl he)⟩

/-- A run is cut off. -/
theorem gives_exhausted [D.Lenient] {Q : α → Engine → Prop} :
    D.Gives e₀ (Action.fail .exhausted : Action α) Q :=
  ⟨fun _ he _ => Lenient.inv_cut he⟩

/-- One action after another, counted from an engine before the first one. -/
theorem leaves_bindFrom {a : Action α} {f : α → Action β} {Q : α → Engine → Prop}
    {R : β → Engine → Prop} {y : Engine} (ha : D.Leaves e Q (a y))
    (hf : ∀ x e₁, D.inv e₁ → D.le e e₁ → Q x e₁ → D.Leaves e₁ R (f x e₁)) :
    D.Leaves e R ((a >>= f) y) := by
  show D.Leaves e R (Action.andThen a f y)
  unfold Action.andThen
  match hr : a y with
  | (.ok x, e₁) =>
    rw [hr] at ha
    exact (hf x e₁ ha.1.1 ha.1.2 ha.2).from ha.1.2
  | (.error err, e₁) =>
    rw [hr] at ha
    exact leaves_error_of ha

/-- One action after another on one engine. -/
theorem leaves_bind {a : Action α} {f : α → Action β} {Q : α → Engine → Prop}
    {R : β → Engine → Prop} (ha : D.Leaves e Q (a e))
    (hf : ∀ x e₁, D.inv e₁ → D.le e e₁ → Q x e₁ → D.Leaves e₁ R (f x e₁)) :
    D.Leaves e R ((a >>= f) e) :=
  leaves_bindFrom ha hf

/-- One action after another, the second one looked at only where the first one ends. -/
theorem gives_bindAt {a : Action α} {f : α → Action β} {Q : α → Engine → Prop}
    {R : β → Engine → Prop} (ha : D.Gives e₀ a Q)
    (hf : ∀ x e₁, D.inv e₁ → D.le e₀ e₁ → Q x e₁ → D.Leaves e₁ R (f x e₁)) :
    D.Gives e₀ (a >>= f) R :=
  ⟨fun e he hl => leaves_bind (ha.run e he hl) fun x e₁ he₁ hl₁ hq =>
    hf x e₁ he₁ (D.trans hl hl₁) hq⟩

/-- One action after another, the second one safe from where the first one ends. -/
theorem gives_bind {a : Action α} {f : α → Action β} {Q : α → Engine → Prop}
    {R : β → Engine → Prop} (ha : D.Gives e₀ a Q)
    (hf : ∀ x e₁, D.inv e₁ → D.le e₀ e₁ → Q x e₁ → D.Gives e₁ (f x) R) :
    D.Gives e₀ (a >>= f) R :=
  gives_bindAt ha fun x e₁ he hl hq => (hf x e₁ he hl hq).run e₁ he (D.refl e₁)

/-- One action after another, both safe from the same engine on. -/
theorem safe_bind {a : Action α} {f : α → Action β} {R : β → Engine → Prop} (ha : D.Safe e₀ a)
    (hf : ∀ x, D.Gives e₀ (f x) R) : D.Gives e₀ (a >>= f) R :=
  gives_bind ha fun x _ _ hl _ => (hf x).later hl

/-- A function of the result. -/
theorem gives_map {a : Action α} {f : α → β} {R : β → Engine → Prop}
    (ha : D.Gives e₀ a fun x e => R (f x) e) : D.Gives e₀ (f <$> a) R :=
  gives_bindAt ha fun _ _ he _ hr => ⟨Step.refl he, hr⟩

/-- A function of the result keeps the discipline. -/
theorem safe_map {a : Action α} {f : α → β} (ha : D.Safe e₀ a) : D.Safe e₀ (f <$> a) :=
  gives_map ha

/-- What is seen of the engine is seen of a later one. -/
theorem gives_look {f : Engine → α} {Q : α → Engine → Prop}
    (h : ∀ e, D.inv e → D.le e₀ e → Q (f e) e) : D.Gives e₀ (Action.look f) Q :=
  ⟨fun e he hl => ⟨Step.refl he, h e he hl⟩⟩

/-- The engine is looked at. -/
theorem safe_look (f : Engine → α) : D.Safe e₀ (Action.look f) :=
  gives_look fun _ _ _ => trivial

/-- An action that goes on with what is seen of the engine. -/
theorem look_bind {f : Engine → α} {k : α → Action β} {R : β → Engine → Prop}
    (h : ∀ e₁, D.inv e₁ → D.le e₀ e₁ → D.Gives e₁ (k (f e₁)) R) :
    D.Gives e₀ (Action.look f >>= k) R := by
  refine ⟨fun e he hl => ?_⟩
  exact (h e he hl).run e he (D.refl e)

/-- A change of the engine is safe when it is a step of the discipline. -/
theorem safe_change {f : Engine → Engine} (h : ∀ e, D.inv e → D.le e₀ e → D.Step e (f e)) :
    D.Safe e₀ (Action.change f) :=
  ⟨fun e he hl => ⟨h e he hl, trivial⟩⟩

/-- The result of something that may fail, with what is known where it does not. -/
theorem gives_ofExcept {ε : Type} {wrap : ε → Failure} {r : Except ε α} {Q : α → Engine → Prop}
    (hw : ∀ err, wrap err ≠ .exhausted) (h : ∀ a, r = .ok a → ∀ e, D.inv e → D.le e₀ e → Q a e) :
    D.Gives e₀ (Action.ofExcept wrap r) Q := by
  cases r with
  | ok a => exact gives_pure (h a rfl)
  | error err => exact gives_fail (hw err)

/-- The result of something that may fail plainly. -/
theorem safe_ofExcept {ε : Type} {wrap : ε → Failure} (r : Except ε α)
    (hw : ∀ err, wrap err ≠ .exhausted) : D.Safe e₀ (Action.ofExcept wrap r) :=
  gives_ofExcept hw fun _ _ _ _ _ => trivial

/-- The result of something that may fail in any way. -/
theorem safe_ofExcept_any [D.Lenient] {ε : Type} {wrap : ε → Failure} (r : Except ε α) :
    D.Safe e₀ (Action.ofExcept wrap r) := by
  cases r with
  | ok a => exact safe_pure a
  | error err =>
    by_cases h : wrap err = .exhausted
    · show D.Safe e₀ (Action.fail (wrap err))
      rw [h]
      exact gives_exhausted
    · exact gives_fail h

/-- An argument is refused. -/
theorem gives_refuse {Q : α → Engine → Prop} (f : ArgumentFault) :
    D.Gives e₀ (Action.refuse f : Action α) Q :=
  gives_fail nofun

/-- A command breaks off. -/
theorem gives_breakOff {Q : α → Engine → Prop} (f : RuntimeFault) :
    D.Gives e₀ (Action.breakOff f : Action α) Q :=
  gives_fail nofun

/-- One of two actions. -/
theorem safe_ite {c : Prop} [Decidable c] {a b : Action α} (ha : D.Safe e₀ a) (hb : D.Safe e₀ b) :
    D.Safe e₀ (if c then a else b) := by
  split
  · exact ha
  · exact hb

/-- A failure that is handled: the handler starts from where the failure left the engine. -/
theorem gives_orElse {a : Action α} {handle : Failure → Action α} {Q : α → Engine → Prop}
    (ha : D.Gives e₀ a Q) (hh : ∀ f, D.Gives e₀ (handle f) Q) :
    D.Gives e₀ (Action.orElse a handle) Q := by
  refine ⟨fun e he hl => ?_⟩
  have hae := ha.run e he hl
  unfold Action.orElse
  match hr : a e with
  | (.ok x, e₁) => rw [hr] at hae; exact hae
  | (.error f, e₁) =>
    rw [hr] at hae
    cases f with
    | exhausted => exact hae
    | _ => exact ((hh _).run e₁ hae.1 (D.trans hl hae.2)).from hae.2

/-- An action and a change that is made after it in any case, also after a run that was cut off. -/
theorem safe_ensuring {a : Action α} {f : Engine → Engine} (ha : D.Safe e₀ a)
    (hf : ∀ e, D.inv e → D.le e₀ e → D.Step e (f e)) (hcut : ∀ e, D.cut e → D.cut (f e)) :
    D.Safe e₀ (Action.ensuring a (Action.change f)) := by
  refine ⟨fun e he hl => ?_⟩
  have hae := ha.run e he hl
  show D.Leaves e _ ((a e).1, f (a e).2)
  generalize a e = r at hae ⊢
  obtain ⟨r, e₁⟩ := r
  cases r with
  | ok x => exact ⟨hae.1.trans (hf e₁ hae.1.1 (D.trans hl hae.1.2)), trivial⟩
  | error err =>
    cases err with
    | exhausted => exact hcut e₁ hae
    | _ => exact leaves_error nofun (Step.trans hae (hf e₁ hae.1 (D.trans hl hae.2)))

/-! ## Actions on lists -/

/-- An action on every item of a list. -/
theorem safe_each {f : α → Action Unit} {xs : List α} (h : ∀ x ∈ xs, D.Safe e₀ (f x)) :
    D.Safe e₀ (Action.each f xs) := by
  induction xs with
  | nil => exact safe_pure ()
  | cons x rest ih =>
    refine safe_bind (h x (by simp)) fun _ => ?_
    exact ih fun y hy => h y (by simp [hy])

/-- What an action makes true of an item, and progress keeps, is true of all items in the end. -/
theorem gives_each {f : α → Action Unit} {Q : α → Engine → Prop} {xs : List α}
    (hQ : ∀ {x e e'}, D.le e e' → Q x e → Q x e') (h : ∀ x ∈ xs, D.Gives e₀ (f x) fun _ e => Q x e) :
    D.Gives e₀ (Action.each f xs) fun _ e => ∀ x ∈ xs, Q x e := by
  induction xs generalizing e₀ with
  | nil => exact gives_pure fun _ _ _ => by simp
  | cons x rest ih =>
    refine gives_bind (h x (by simp)) fun _ e₁ _ hl hx => ?_
    have hrest := ih fun y hy => (h y (List.mem_cons_of_mem _ hy)).later hl
    refine hrest.mono fun _ e _ hl₂ hys y hy => ?_
    rcases List.mem_cons.1 hy with rfl | hy
    · exact hQ hl₂ hx
    · exact hys y hy

/-- The results of an action for each item all satisfy what progress keeps. -/
theorem gives_collect {f : α → Action β} {Q : β → Engine → Prop} {xs : List α}
    (hQ : ∀ {b e e'}, D.le e e' → Q b e → Q b e') (h : ∀ x ∈ xs, D.Gives e₀ (f x) Q) :
    D.Gives e₀ (Action.collect f xs) fun bs e => ∀ b ∈ bs, Q b e := by
  induction xs generalizing e₀ with
  | nil => exact gives_pure fun _ _ _ => by simp
  | cons x rest ih =>
    refine gives_bind (h x (by simp)) fun b e₁ _ hl hb => ?_
    have hrest : D.Gives e₁ (Action.collect f rest) fun bs e => ∀ b ∈ bs, Q b e :=
      ih fun y hy => (h y (by simp [hy])).later hl
    refine gives_bind hrest fun bs e₂ _ hl₂ hbs => gives_pure fun e _ hl₃ => ?_
    intro c hc
    rcases List.mem_cons.1 hc with rfl | hc
    · exact hQ (D.trans hl₂ hl₃) hb
    · exact hQ hl₃ (hbs c hc)

/-- An action on every item of a list, with the results collected. -/
theorem safe_collect {f : α → Action β} {xs : List α} (h : ∀ x ∈ xs, D.Safe e₀ (f x)) :
    D.Safe e₀ (Action.collect f xs) :=
  (gives_collect (fun _ _ => trivial) h).safe

/-- Tests one after another until one holds. -/
theorem safe_someHolds {test : α → Action Bool} {xs : List α} (h : ∀ x ∈ xs, D.Safe e₀ (test x)) :
    D.Safe e₀ (Action.someHolds test xs) := by
  induction xs with
  | nil => exact safe_pure false
  | cons x rest ih =>
    refine safe_bind (h x (by simp)) fun b => ?_
    cases b with
    | true => exact safe_pure true
    | false => exact ih fun y hy => h y (by simp [hy])

/-- Tests one after another until one fails. -/
theorem safe_allHold {test : α → Action Bool} {xs : List α} (h : ∀ x ∈ xs, D.Safe e₀ (test x)) :
    D.Safe e₀ (Action.allHold test xs) := by
  induction xs with
  | nil => exact safe_pure true
  | cons x rest ih =>
    refine safe_bind (h x (by simp)) fun b => ?_
    cases b with
    | true => exact ih fun y hy => h y (by simp [hy])
    | false => exact safe_pure false

/-- A step that is repeated while it says so.  `L` holds before every step that is taken. -/
theorem leaves_repeatWhile [D.Lenient] {step : Action Bool} {L : Engine → Prop}
    (h : ∀ e, D.inv e → D.le e₀ e → L e → D.Leaves e (fun b e' => b = true → L e') (step e))
    (fuel : Nat) (he : D.inv e) (hl : D.le e₀ e) (hL : L e) :
    D.Leaves e (fun _ _ => True) (Action.repeatWhile step fuel e) := by
  induction fuel generalizing e with
  | zero => exact Lenient.inv_cut he
  | succ fuel ih =>
    have hs := h e he hl hL
    unfold Action.repeatWhile
    match hr : step e with
    | (.ok true, e₁) =>
      rw [hr] at hs
      exact (ih hs.1.1 (D.trans hl hs.1.2) (hs.2 rfl)).from hs.1.2
    | (.ok false, e₁) => rw [hr] at hs; exact ⟨hs.1, trivial⟩
    | (.error f, e₁) => rw [hr] at hs; exact leaves_error_of hs

/-- A step that is taken over and over keeps the discipline, also when it is cut off. -/
theorem safe_repeatWhile [D.Lenient] {step : Action Bool} (h : D.Safe e₀ step) (fuel : Nat) :
    D.Safe e₀ (Action.repeatWhile step fuel) := by
  refine ⟨fun _ he hl => leaves_repeatWhile (L := fun _ => True) ?_ fuel he hl trivial⟩
  exact fun e he hl _ => (h.run e he hl).mono fun _ _ _ _ _ => trivial

/-! ## A further invariant -/

/-- The discipline, and something further that holds between any two steps. -/
def also (D : Discipline) (S : Engine → Prop) : Discipline :=
  { D with inv := fun e => D.inv e ∧ S e }

section Also

variable {S : Engine → Prop} {e' : Engine}

instance [D.Lenient] : (D.also S).Lenient :=
  ⟨fun h => Lenient.inv_cut (D := D) h.1⟩

instance [D.Open] : (D.also S).Open :=
  ⟨Open.reads (D := D), Open.yields (D := D), Open.taken (D := D)⟩

/-- A step that keeps the further invariant as well. -/
theorem Step.also (h : D.Step e e') (hS : S e') : (D.also S).Step e e' :=
  ⟨⟨h.1, hS⟩, h.2⟩

/-- An end that keeps the further invariant as well, unless it was cut off. -/
theorem Leaves.also {Q : α → Engine → Prop} {r : Except Failure α × Engine} (h : D.Leaves e Q r)
    (hS : r.1 ≠ .error .exhausted → S r.2) : (D.also S).Leaves e Q r := by
  obtain ⟨r, e'⟩ := r
  cases r with
  | ok x => exact ⟨h.1.also (hS nofun), h.2⟩
  | error f =>
    cases f with
    | exhausted => exact h
    | _ => exact Step.also h (hS nofun)

/-- An action that keeps the further invariant as well, unless it was cut off. -/
theorem Gives.also {a : Action α} {Q : α → Engine → Prop} (h : D.Gives e₀ a Q)
    (hS : ∀ e, D.inv e → D.le e₀ e → S e → (a e).1 ≠ .error .exhausted → S (a e).2) :
    (D.also S).Gives e₀ a Q :=
  ⟨fun e he hl => (h.run e he.1 hl).also (hS e he.1 hl he.2)⟩

end Also

end Discipline

end QueueScript
