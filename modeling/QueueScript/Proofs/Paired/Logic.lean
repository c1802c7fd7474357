import QueueScript.Engine.Drive

/-!
# Two runs side by side

Actions are run on two engines that are related in some way, and end alike: with the same results and
with engines that are related again (`Paired.Ends`).  A relation says besides what is left of it when runs
are cut off (`Pairing`), which is nothing for some and all of it for others.  The rules for this follow the
ways in which actions are put together, and hold of any relation.
-/

namespace QueueScript

/-! ## Relations between engines -/

/-- A relation between engines, and what is left of it when runs on them are cut off. -/
structure Pairing where
  /-- The engines are related. -/
  related : Engine → Engine → Prop
  /-- What is known of the engines that runs leave when they are cut off. -/
  cut : Engine → Engine → Prop
  related_cut {e e' : Engine} : related e e' → cut e e'

namespace Pairing

instance : CoeFun Pairing fun _ => Engine → Engine → Prop :=
  ⟨related⟩

/-- A relation of which nothing is left when runs are cut off. -/
abbrev bare (related : Engine → Engine → Prop) : Pairing :=
  ⟨related, fun _ _ => True, fun _ => trivial⟩

instance : Coe (Engine → Engine → Prop) Pairing :=
  ⟨bare⟩

/-- What is related by the first is related by the second one. -/
structure Finer (R R₁ : Pairing) : Prop where
  related {e e' : Engine} : R e e' → R₁ e e'
  cut {e e' : Engine} : R.cut e e' → R₁.cut e e'

/-- What is related by a relation is related by it. -/
theorem Finer.refl (R : Pairing) : R.Finer R :=
  ⟨id, id⟩

end Pairing

/-! ## Actions on two engines -/

namespace Paired

variable {α β : Type} {R R₁ : Pairing} {S : α → α → Prop} {T : β → β → Prop}

/-- Two runs end alike: with results that are related by `S`, or with one failure, and with engines that
are related again, or that may be left by runs that were cut off. -/
def Ends (R : Pairing) (S : α → α → Prop) :
    Except Failure α × Engine → Except Failure α × Engine → Prop
  | (.ok a, e), (.ok a', e') => S a a' ∧ R e e'
  | (.error f, e), (.error f', e') => f = f' ∧ R.cut e e' ∧ (f ≠ .exhausted → R e e')
  | _, _ => False

/-- On engines that are related the actions end alike, their results related by `S`. -/
structure Alike (R : Pairing) (S : α → α → Prop) (a a' : Action α) : Prop where
  run {e e' : Engine} : R e e' → Ends R S (a e) (a' e')

/-- On engines that are related the actions end alike, with the same results. -/
abbrev Twin (R : Pairing) (a a' : Action α) : Prop :=
  Alike R Eq a a'

/-- The action ends alike on engines that are related. -/
abbrev Steady (R : Pairing) (a : Action α) : Prop :=
  Twin R a a

/-- The engines are related, and this is known of the first one. -/
abbrev With (R : Pairing) (P : Engine → Prop) : Pairing :=
  ⟨fun e e' => R e e' ∧ P e, R.cut, fun h => R.related_cut h.1⟩

/-- What is known besides may be left out. -/
theorem finer_with (R : Pairing) (P : Engine → Prop) : (With R P).Finer R :=
  ⟨And.left, id⟩

/-- Runs that fail alike. -/
theorem Ends.fail {f : Failure} {e e' : Engine} (h : R e e') :
    Ends R S (.error f, e) (.error f, e') :=
  ⟨rfl, R.related_cut h, fun _ => h⟩

/-- Runs that are cut off. -/
theorem Ends.exhausted {e e' : Engine} (h : R.cut e e') :
    Ends R S (.error .exhausted, e) (.error .exhausted, e') :=
  ⟨rfl, h, fun hf => absurd rfl hf⟩

/-- Runs that end alike give the same results. -/
theorem Ends.eq {r r' : Except Failure α × Engine} (h : Ends R Eq r r') :
    r'.1 = r.1 ∧ R.cut r.2 r'.2 ∧ (r.1 ≠ .error .exhausted → R r.2 r'.2) := by
  obtain ⟨r | r, e⟩ := r <;> obtain ⟨r' | r', e'⟩ := r'
  · exact ⟨by rw [h.1], h.2.1, fun hr => h.2.2 fun hf => hr (congrArg _ hf)⟩
  · exact h.elim
  · exact h.elim
  · exact ⟨by rw [h.1], R.related_cut h.2, fun _ => h.2⟩

/-- The results of runs that end alike may be related in a weaker way. -/
theorem Ends.imp {S' : α → α → Prop} {r r' : Except Failure α × Engine} (h : Ends R S r r')
    (hS : ∀ a a', S a a' → S' a a') : Ends R S' r r' := by
  obtain ⟨r | r, e⟩ := r <;> obtain ⟨r' | r', e'⟩ := r'
  · exact h
  · exact h.elim
  · exact h.elim
  · exact ⟨hS _ _ h.1, h.2⟩

/-- If the first run gives a value, the second one gives it too. -/
theorem Ends.ok {a : α} {e : Engine} {r' : Except Failure α × Engine} (h : Ends R Eq (.ok a, e) r') :
    ∃ e', r' = (.ok a, e') ∧ R e e' := by
  obtain ⟨r' | a', e'⟩ := r'
  · exact h.elim
  · obtain ⟨rfl, engines⟩ := h
    exact ⟨e', rfl, engines⟩

/-- If the first run fails, the second one fails in the same way. -/
theorem Ends.error {f : Failure} {e : Engine} {r' : Except Failure α × Engine}
    (h : Ends R S (.error f, e) r') (hf : f ≠ .exhausted) : ∃ e', r' = (.error f, e') ∧ R e e' := by
  obtain ⟨f' | a', e'⟩ := r'
  · obtain ⟨rfl, -, engines⟩ := h
    exact ⟨e', rfl, engines hf⟩
  · exact h.elim

/-- What is known besides of the first of the engines. -/
theorem Ends.with {P : Engine → Prop} {r r' : Except Failure α × Engine} (h : Ends R S r r')
    (hP : r.1 ≠ .error .exhausted → P r.2) : Ends (With R P) S r r' := by
  obtain ⟨r | r, e⟩ := r <;> obtain ⟨r' | r', e'⟩ := r'
  · exact ⟨h.1, h.2.1, fun hf => ⟨h.2.2 hf, hP fun hr => hf (Except.error.inj hr)⟩⟩
  · exact h.elim
  · exact h.elim
  · exact ⟨h.1, h.2, hP nofun⟩

/-- What follows two runs that end alike, with engines that are related in another way from then on. -/
theorem Ends.bind {a a' : Action α} {f f' : α → Action β} {e e' : Engine}
    (h : Ends R S (a e) (a' e')) (hR : R.Finer R₁)
    (hf : ∀ x x' e₁ e₁', S x x' → R e₁ e₁' → Ends R₁ T (f x e₁) (f' x' e₁')) :
    Ends R₁ T ((a >>= f) e) ((a' >>= f') e') := by
  show Ends R₁ T (Action.andThen a f e) (Action.andThen a' f' e')
  unfold Action.andThen
  generalize a e = r at h ⊢
  generalize a' e' = r' at h ⊢
  obtain ⟨r | r, e₁⟩ := r <;> obtain ⟨r' | r', e₁'⟩ := r'
  · exact ⟨h.1, hR.cut h.2.1, fun hf => hR.related (h.2.2 hf)⟩
  · exact h.elim
  · exact h.elim
  · exact hf _ _ _ _ h.1 h.2

/-- A failure that is handled. -/
theorem Ends.orElse {a a' : Action α} {handle handle' : Failure → Action α} {e e' : Engine}
    (h : Ends R Eq (a e) (a' e'))
    (hh : ∀ f e₁ e₁', R e₁ e₁' → Ends R Eq (handle f e₁) (handle' f e₁')) :
    Ends R Eq (Action.orElse a handle e) (Action.orElse a' handle' e') := by
  unfold Action.orElse
  generalize a e = r at h ⊢
  generalize a' e' = r' at h ⊢
  obtain ⟨r | r, e₁⟩ := r <;> obtain ⟨r' | r', e₁'⟩ := r'
  · obtain ⟨rfl, cut, engines⟩ := h
    cases r with
    | exhausted => exact .exhausted cut
    | _ => exact hh _ _ _ (engines nofun)
  · exact h.elim
  · exact h.elim
  · exact h

/-- One action after another, of which the first gives results that are related by `S`. -/
theorem alike_bind {a a' : Action α} {f f' : α → Action β} (ha : Alike R S a a')
    (hf : ∀ x x', S x x' → Alike R T (f x) (f' x')) : Alike R T (a >>= f) (a' >>= f') :=
  ⟨fun h => (ha.run h).bind (.refl R) fun _ _ _ _ hx h₁ => (hf _ _ hx).run h₁⟩

/-- One action after another, of which the first gives the same results. -/
@[grind ←]
theorem twin_bind {a a' : Action α} {f f' : α → Action β} (ha : Twin R a a')
    (hf : ∀ x, Alike R T (f x) (f' x)) : Alike R T (a >>= f) (a' >>= f') :=
  alike_bind ha fun x _ h => h ▸ hf x

/-- Results that are related may be given. -/
@[grind ←]
theorem alike_pure {a a' : α} (h : S a a') : Alike R S (pure a : Action α) (pure a') :=
  ⟨fun hl => ⟨h, hl⟩⟩

/-- One failure may be raised on both engines. -/
@[grind ←]
theorem alike_fail (f : Failure) : Alike R S (Action.fail f : Action α) (Action.fail f) :=
  ⟨.fail⟩

/-- A command may break off on both engines. -/
@[grind ←]
theorem alike_breakOff (f : RuntimeFault) :
    Alike R S (Action.breakOff f : Action α) (Action.breakOff f) :=
  alike_fail _

/-- Arguments may be refused on both engines. -/
@[grind ←]
theorem alike_refuse (f : ArgumentFault) :
    Alike R S (Action.refuse f : Action α) (Action.refuse f) :=
  alike_fail _

/-- One result may be given on both engines. -/
@[grind ←]
theorem steady_pure (a : α) : Steady R (pure a : Action α) :=
  alike_pure rfl

/-- What is made of the same result is the same. -/
@[grind ←]
theorem twin_map {a a' : Action α} {f : α → β} (ha : Twin R a a') : Twin R (f <$> a) (f <$> a') :=
  twin_bind ha fun x => steady_pure (f x)

/-- What was found out already is given, or fails, on both engines. -/
@[grind ←]
theorem steady_ofExcept {ε : Type} (wrap : ε → Failure) (r : Except ε α) :
    Steady R (Action.ofExcept wrap r) := by
  cases r with
  | ok a => exact steady_pure a
  | error err => exact alike_fail _

/-- A failure that is handled. -/
@[grind ←]
theorem twin_orElse {a a' : Action α} {handle handle' : Failure → Action α} (ha : Twin R a a')
    (hh : ∀ f, Twin R (handle f) (handle' f)) :
    Twin R (Action.orElse a handle) (Action.orElse a' handle') :=
  ⟨fun h => (ha.run h).orElse fun f _ _ h₁ => (hh f).run h₁⟩

/-- What is done for each of a list is done alike, one after the other. -/
@[grind ←]
theorem twin_each {f f' : α → Action Unit} {xs : List α} (h : ∀ x, Twin R (f x) (f' x)) :
    Twin R (Action.each f xs) (Action.each f' xs) := by
  induction xs with
  | nil => exact steady_pure ()
  | cons x rest ih => exact twin_bind (h x) fun _ => ih

/-- The results for each of a list are the same. -/
@[grind ←]
theorem twin_collect {f f' : α → Action β} {xs : List α} (h : ∀ x, Twin R (f x) (f' x)) :
    Twin R (Action.collect f xs) (Action.collect f' xs) := by
  induction xs with
  | nil => exact steady_pure []
  | cons x rest ih => exact twin_bind (h x) fun b => twin_bind ih fun bs => steady_pure (b :: bs)

/-- Tests that decide alike find alike whether one of a list passes. -/
@[grind ←]
theorem twin_someHolds {test test' : α → Action Bool} {xs : List α}
    (h : ∀ x, Twin R (test x) (test' x)) :
    Twin R (Action.someHolds test xs) (Action.someHolds test' xs) := by
  induction xs with
  | nil => exact steady_pure false
  | cons x rest ih =>
    refine twin_bind (h x) fun b => ?_
    cases b with
    | true => exact steady_pure true
    | false => exact ih

/-- Tests that decide alike find alike whether all of a list pass. -/
@[grind ←]
theorem twin_allHold {test test' : α → Action Bool} {xs : List α}
    (h : ∀ x, Twin R (test x) (test' x)) :
    Twin R (Action.allHold test xs) (Action.allHold test' xs) := by
  induction xs with
  | nil => exact steady_pure true
  | cons x rest ih =>
    refine twin_bind (h x) fun b => ?_
    cases b with
    | true => exact ih
    | false => exact steady_pure false

/-- A step that is repeated while it says so. -/
@[grind ←]
theorem twin_repeatWhile {step step' : Action Bool} (h : Twin R step step') (fuel : Nat) :
    Twin R (Action.repeatWhile step fuel) (Action.repeatWhile step' fuel) := by
  induction fuel with
  | zero => exact alike_fail _
  | succ fuel ih =>
    refine ⟨fun {e e'} hl => ?_⟩
    have first := h.run hl
    unfold Action.repeatWhile
    generalize step e = r at first ⊢
    generalize step' e' = r' at first ⊢
    obtain ⟨r | r, e₁⟩ := r <;> obtain ⟨r' | r', e₁'⟩ := r'
    · exact first
    · exact first.elim
    · exact first.elim
    · obtain ⟨rfl, engines⟩ := first
      cases r with
      | true => exact ih.run engines
      | false => exact ⟨rfl, engines⟩

/-- A look that shows the same on related engines goes alike. -/
theorem steady_look {f : Engine → α} (hf : ∀ e e', R e e' → f e' = f e) : Steady R (Action.look f) :=
  ⟨fun h => ⟨(hf _ _ h).symm, h⟩⟩

/-- What follows a look that shows the same on both engines. -/
theorem ends_look {f : Engine → α} {k k' : α → Action β} {e e' : Engine} (same : f e' = f e)
    (hk : Ends R T (k (f e) e) (k' (f e) e')) :
    Ends R T ((Action.look f >>= k) e) ((Action.look f >>= k') e') := by
  show Ends R T (k (f e) e) (k' (f e') e')
  rwa [same]

/-- Changes that keep engines related go alike. -/
theorem twin_change {f f' : Engine → Engine} (hf : ∀ e e', R e e' → R (f e) (f' e')) :
    Twin R (Action.change f) (Action.change f') :=
  ⟨fun h => ⟨rfl, hf _ _ h⟩⟩

end Paired

end QueueScript
