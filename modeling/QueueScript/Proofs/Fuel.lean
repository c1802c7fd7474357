import Mathlib.Data.List.Forall2
import QueueScript.Proofs.Structured.Apart

/-!
# More fuel changes nothing

Fuel bounds how deep procedures and queues nest and how many entries a turn runs.  A run that needs more
is cut off; a run that is not cut off does not depend on how much there is.  So an action with more fuel
is a *longer* run of the same action: it gives the same result on the same engine wherever the shorter
one is not cut off (`Action.Longer`).
-/

namespace QueueScript

/-! ## Longer runs -/

namespace Action

variable {α α' β β' : Type} {S : α → α' → Prop} {T : β → β' → Prop}

/-- The first run was cut off, or both runs ended in the same way on the same engine, with results that
are related by `S`. -/
def Outlasts (S : α → α' → Prop) (r : Except Failure α × Engine) (r' : Except Failure α' × Engine) : Prop :=
  match r with
  | (.ok x, e) => ∃ x', r' = (.ok x', e) ∧ S x x'
  | (.error .exhausted, _) => True
  | (.error f, e) => r' = (.error f, e)

/-- Wherever the first action is not cut off, the second one does the same. -/
structure Longer (S : α → α' → Prop) (a : Action α) (a' : Action α') : Prop where
  run (e : Engine) : Outlasts S (a e) (a' e)

/-- A run that fails is outlasted by one that fails in the same way. -/
theorem outlasts_error {e : Engine} {f : Failure} {r : Except Failure α' × Engine}
    (h : r = (.error f, e)) : Outlasts S (.error f, e) r := by
  cases f with
  | exhausted => trivial
  | _ => exact h

namespace Longer

/-- An action is a longer run of itself. -/
theorem refl (a : Action α) : Longer Eq a a := by
  refine ⟨fun e => ?_⟩
  rcases a e with ⟨f | x, y⟩
  · exact outlasts_error rfl
  · exact ⟨x, rfl, rfl⟩

/-- Any action is a longer run of one that is cut off. -/
theorem exhausted (a' : Action α') : Longer S (fail .exhausted) a' :=
  ⟨fun _ => trivial⟩

/-- Giving a value needs no fuel. -/
theorem pure {x : α} {x' : α'} (h : S x x') : Longer S (Pure.pure x) (Pure.pure x') :=
  ⟨fun _ => ⟨x', rfl, h⟩⟩

/-- Failing needs no fuel. -/
theorem fail (f : Failure) : Longer S (Action.fail f) (Action.fail f) :=
  ⟨fun _ => outlasts_error rfl⟩

/-- One action after another runs longer if both do. -/
theorem bind {a : Action α} {a' : Action α'} {f : α → Action β} {f' : α' → Action β'}
    (ha : Longer S a a') (hf : ∀ x x', S x x' → Longer T (f x) (f' x')) :
    Longer T (a >>= f) (a' >>= f') := by
  refine ⟨fun e => ?_⟩
  have first := ha.run e
  match hr : a e with
  | (.ok x, y) =>
    rw [hr] at first
    obtain ⟨x', hr', hx⟩ := first
    rw [bind_ok hr, bind_ok hr']
    exact (hf x x' hx).run y
  | (.error f, y) =>
    rw [bind_error hr]
    by_cases hf : f = .exhausted
    · rw [hf]
      trivial
    · have same : a' e = (.error f, y) := by
        rw [hr] at first
        cases f with
        | exhausted => exact absurd rfl hf
        | _ => exact first
      exact outlasts_error (bind_error same)

/-- One action after another, of which the first gives the same results. -/
theorem andThen {a a' : Action α} {f : α → Action β} {f' : α → Action β'} (ha : Longer Eq a a')
    (hf : ∀ x, Longer T (f x) (f' x)) : Longer T (a >>= f) (a' >>= f') :=
  ha.bind fun x _ h => h ▸ hf x

/-- One action after the same action. -/
theorem after (a : Action α) {f : α → Action β} {f' : α → Action β'}
    (hf : ∀ x, Longer T (f x) (f' x)) : Longer T (a >>= f) (a >>= f') :=
  (refl a).andThen hf

/-- What is made of a result is made of the same result by a longer run. -/
theorem map {a a' : Action α} (f : α → β) (ha : Longer Eq a a') : Longer Eq (f <$> a) (f <$> a') :=
  ha.andThen fun _ => .pure rfl

/-- A failure is handled by a longer run too. -/
theorem orElse {a a' : Action α} {handle handle' : Failure → Action α} (ha : Longer Eq a a')
    (hh : ∀ f, Longer Eq (handle f) (handle' f)) :
    Longer Eq (Action.orElse a handle) (Action.orElse a' handle') := by
  refine ⟨fun e => ?_⟩
  have first := ha.run e
  match hr : a e with
  | (.ok x, y) =>
    rw [hr] at first
    obtain ⟨x', hr', rfl⟩ := first
    rw [orElse_ok hr, orElse_ok hr']
    exact ⟨x, rfl, rfl⟩
  | (.error f, y) =>
    by_cases hf : f = .exhausted
    · rw [hf] at hr
      rw [orElse_exhausted hr]
      trivial
    · have same : a' e = (.error f, y) := by
        rw [hr] at first
        cases f with
        | exhausted => exact absurd rfl hf
        | _ => exact first
      rw [orElse_error hf hr, orElse_error hf same]
      exact (hh f).run y

/-- The results of a longer run of each action are the same. -/
theorem collect {f f' : α → Action β} (hf : ∀ x, Longer Eq (f x) (f' x)) (xs : List α) :
    Longer Eq (Action.collect f xs) (Action.collect f' xs) := by
  induction xs with
  | nil => exact .refl _
  | cons x rest ih => exact (hf x).andThen fun _ => ih.andThen fun _ => .refl _

/-- Tests that run longer decide in the same way whether one holds. -/
theorem someHolds {f f' : α → Action Bool} (hf : ∀ x, Longer Eq (f x) (f' x)) (xs : List α) :
    Longer Eq (Action.someHolds f xs) (Action.someHolds f' xs) := by
  induction xs with
  | nil => exact .refl _
  | cons x rest ih =>
    refine (hf x).andThen fun b => ?_
    cases b with
    | true => exact .refl _
    | false => exact ih

/-- Tests that run longer decide in the same way whether all hold. -/
theorem allHold {f f' : α → Action Bool} (hf : ∀ x, Longer Eq (f x) (f' x)) (xs : List α) :
    Longer Eq (Action.allHold f xs) (Action.allHold f' xs) := by
  induction xs with
  | nil => exact .refl _
  | cons x rest ih =>
    refine (hf x).andThen fun b => ?_
    cases b with
    | true => exact ih
    | false => exact .refl _

/-- A step that runs longer may be repeated more often as well. -/
theorem repeatWhile {step step' : Action Bool} (hs : Longer Eq step step') {k k' : Nat} (hk : k ≤ k') :
    Longer Eq (Action.repeatWhile step k) (Action.repeatWhile step' k') := by
  induction k generalizing k' with
  | zero => exact .exhausted _
  | succ k ih =>
    obtain ⟨k', rfl⟩ : ∃ j, k' = j + 1 := ⟨k' - 1, by omega⟩
    have unfolded (s : Action Bool) (j : Nat) : Action.repeatWhile s (j + 1) =
        s >>= fun again => if again then Action.repeatWhile s j else Pure.pure () := by
      funext e
      rw [Action.repeatWhile]
      match hr : s e with
      | (.ok true, y) =>
        rw [bind_ok hr]
        simp only [hr]
        rfl
      | (.ok false, y) =>
        rw [bind_ok hr]
        simp only [hr]
        rfl
      | (.error f, y) =>
        rw [bind_error hr]
        simp only [hr]
    rw [unfolded, unfolded]
    refine hs.andThen fun again => ?_
    cases again with
    | true => exact ih (Nat.le_of_succ_le_succ hk)
    | false => exact .refl _

/-- The result of a run that was not cut off. -/
theorem eq_ok {a a' : Action α} {e e' : Engine} {x : α} (h : Longer Eq a a') (ha : a e = (.ok x, e')) :
    a' e = (.ok x, e') := by
  have run := h.run e
  rw [ha] at run
  obtain ⟨_, same, rfl⟩ := run
  exact same

end Longer

end Action

open QueueScript.Action (Longer)

/-- What entries set going is a longer run of the same. -/
structure Calls.Longer (calls calls' : Calls) : Prop where
  start (q : QueueRef) : Action.Longer Eq (calls.start q) (calls'.start q)
  procedure (name : String) (args : List Value) :
    Action.Longer Eq (calls.procedure name args) (calls'.procedure name args)

variable {calls calls' : Calls}

/-! ## Tags -/

namespace Tags

/-- The parameters of the segments are resolved by longer runs. -/
def Longer (ss ss' : List ReadySegment) : Prop :=
  List.Forall₂ (fun s s' => s'.name = s.name ∧ Option.Rel (Action.Longer Eq) s.param s'.param) ss ss'

/-- The segments after the first ones run longer if all do. -/
theorem Longer.drop {ss ss' : List ReadySegment} (h : Longer ss ss') (k : Nat) :
    Longer (ss.drop k) (ss'.drop k) :=
  List.forall₂_drop k h

section Segments

variable {ss ss' : List ReadySegment} (h : Longer ss ss')

include h

/-- Fuel plays no part in the name of a tag. -/
theorem rawName_longer : rawName ss' = rawName ss := by
  cases h with
  | nil => rfl
  | cons h _ => exact h.1

/-- Fuel plays no part in the name of a segment. -/
theorem name_longer : name ss' = name ss :=
  congrArg Text.lower (rawName_longer h)

/-- Fuel plays no part in whether there is a parameter. -/
theorem hasParam_longer : hasParam ss' = hasParam ss := by
  cases h with
  | nil => rfl
  | @cons s s' _ _ h _ =>
    show s'.param.isSome = s.param.isSome
    obtain ⟨-, h⟩ := h
    generalize s.param = p at h
    generalize s'.param = p' at h
    cases h with
    | none => rfl
    | some _ => rfl

/-- A parameter that runs longer has the same value. -/
theorem longer_param : Action.Longer Eq (param ss) (param ss') := by
  cases h with
  | nil => exact .refl _
  | @cons s s' _ _ h _ =>
    obtain ⟨_, p⟩ := s
    obtain ⟨_, p'⟩ := s'
    obtain ⟨-, h : Option.Rel _ p p'⟩ := h
    cases h with
    | none => exact .refl _
    | some h => exact h

/-- A parameter that runs longer has the same text. -/
theorem longer_paramText : Action.Longer Eq (paramText ss) (paramText ss') :=
  (longer_param h).andThen fun _ => .refl _

/-- A parameter that must be there is the same in a longer run. -/
theorem longer_requireParam : Action.Longer Eq (requireParam ss) (requireParam ss') := by
  unfold requireParam
  rw [hasParam_longer h, name_longer h]
  split
  · exact longer_param h
  · exact .refl _

/-- A longer run calculates the same number. -/
theorem longer_calculate (f : Float → Float → Float) (v : Value) :
    Action.Longer Eq (calculate f v ss) (calculate f v ss') :=
  .after _ fun _ => (longer_requireParam h).andThen fun _ => .refl _

/-- A longer run finds the same value of an attribute. -/
theorem longer_attributeValue (a : Attribute) (v : Value) :
    Action.Longer Eq (attributeValue a v ss) (attributeValue a v ss') := by
  cases a with
  | add => exact longer_calculate h _ v
  | sub => exact longer_calculate h _ v
  | mul => exact longer_calculate h _ v
  | equals => exact (longer_requireParam h).andThen fun _ => .refl _
  | split =>
    unfold attributeValue
    dsimp only
    rw [hasParam_longer h]
    split
    · exact (longer_paramText h).andThen fun _ => .refl _
    · exact .refl _
  | get => exact (longer_paramText h).andThen fun _ => .refl _
  | host =>
    unfold attributeValue
    dsimp only
    rw [rawName_longer h, hasParam_longer h]
    split
    · exact ((longer_paramText h).map _).andThen fun _ => .refl _
    · exact .refl _
  | _ => exact .refl _

/-- A longer run makes the same of a value by one segment. -/
theorem longer_applySegment (v : Value) : Action.Longer Eq (applySegment v ss) (applySegment v ss') := by
  unfold applySegment
  rw [name_longer h, rawName_longer h]
  refine .after _ fun w => .after _ fun found => ?_
  split
  · exact longer_attributeValue h _ w
  · exact .refl _

/-- A longer run makes the same of a value by all segments. -/
theorem longer_applySegments (v : Value) :
    Action.Longer Eq (applySegments v ss) (applySegments v ss') := by
  induction h generalizing v with
  | nil => exact .refl _
  | cons hs hrest ih => exact (longer_applySegment (.cons hs hrest) v).andThen fun w => ih w

/-- A longer run starts from the same value of a host, with segments that run longer. -/
theorem longer_hostBase (source : String) (base : HostBase) :
    Action.Longer (fun r r' => r'.1 = r.1 ∧ Longer r.2 r'.2) (hostBase source base ss)
      (hostBase source base ss') := by
  cases base with
  | give v passes => exact .pure ⟨rfl, h.drop passes⟩
  | fail message => exact .fail _
  | failBare text => exact .fail _
  | look =>
    refine (longer_param h).andThen fun first => (longer_paramText h).andThen fun text => ?_
    have rest := h.drop 1
    refine (longer_param rest).andThen fun second => .pure ⟨?_, rest⟩
    have ends : (ss'.drop 1).isEmpty = (ss.drop 1).isEmpty := by
      rw [Bool.eq_iff_iff, List.isEmpty_iff_length_eq_zero, List.isEmpty_iff_length_eq_zero, rest.length_eq]
    rw [name_longer h, rawName_longer h, hasParam_longer h, name_longer rest, rawName_longer rest, ends]

/-- A longer run starts a tag from the same value, with segments that run longer. -/
theorem longer_baseValue (hc : calls.Longer calls') (context : Context) (source : String) (base : TagBase) :
    Action.Longer (fun r r' => r'.1 = r.1 ∧ Longer r.2 r'.2) (baseValue calls context source base ss)
      (baseValue calls' context source base ss') := by
  have rest := h.drop 1
  cases base with
  | definition =>
    refine (longer_paramText h).andThen fun name => .after _ fun found => ?_
    split
    · exact .pure ⟨rfl, rest⟩
    · exact .fail _
  | entry =>
    refine (longer_paramText h).andThen fun saved => .after _ fun found => ?_
    split
    · exact .fail _
    · dsimp only
      rw [name_longer rest]
      split
      · exact .fail _
      · refine .after _ fun x => ?_
        split
        · exact .pure ⟨rfl, rest.drop 1⟩
        · exact .fail _
  | queue =>
    unfold baseValue
    dsimp only
    split
    · exact .fail _
    · rw [name_longer rest]
      split
      · exact .after _ fun _ => .pure ⟨rfl, rest⟩
      · exact .after _ fun _ => .pure ⟨rfl, rest.drop 1⟩
  | element => exact (longer_param h).andThen fun _ => .pure ⟨rfl, rest⟩
  | list => exact (longer_param h).andThen fun _ => .after _ fun _ => .pure ⟨rfl, rest⟩
  | proc =>
    refine (longer_requireParam h).andThen fun p => .after _ fun procedure => ?_
    dsimp only
    rw [name_longer rest]
    split
    · refine (longer_param rest).andThen fun v => .after _ fun args => ?_
      exact (hc.procedure _ _).andThen fun _ => .pure ⟨rfl, rest.drop 1⟩
    · exact (hc.procedure _ _).andThen fun _ => .pure ⟨rfl, rest⟩
  | escape text => exact .pure ⟨rfl, rest⟩
  | host base => exact longer_hostBase h source base

/-- A tag has the same value in a longer run. -/
theorem longer_tagValue (hc : calls.Longer calls') (context : Context) (source : String) :
    Action.Longer Eq (tagValue calls context source ss) (tagValue calls' context source ss') := by
  refine .orElse ?_ fun _ => .refl _
  rw [name_longer h]
  refine .after _ fun found => ?_
  split
  · exact .refl _
  · refine (longer_baseValue h hc context source _).bind fun r r' hr => ?_
    obtain ⟨v, rest⟩ := r
    obtain ⟨v', rest'⟩ := r'
    obtain ⟨rfl, hrest⟩ := hr
    exact longer_applySegments hrest _

end Segments

mutual

/-- A template is resolved to the same value in a longer run. -/
theorem longer_resolve (hc : calls.Longer calls') (context : Context) (t : Template) :
    Action.Longer Eq (resolve calls context t) (resolve calls' context t) := by
  match t with
  | .mk source parts =>
    unfold resolve
    split
    · rename_i h
      cases h
      exact longer_tagValue (longer_ready hc context _) hc context _
    · rename_i h
      cases h
      split
      · exact (longer_resolveParts hc context parts).andThen fun _ => .refl _
      · exact .refl _

/-- The parts of a template are resolved to the same text in a longer run. -/
theorem longer_resolveParts (hc : calls.Longer calls') (context : Context) (parts : List Part) :
    Action.Longer Eq (resolveParts calls context parts) (resolveParts calls' context parts) := by
  match parts with
  | [] =>
    unfold resolveParts
    exact .refl _
  | .text s :: rest =>
    unfold resolveParts
    exact (longer_resolveParts hc context rest).andThen fun _ => .refl _
  | .tag source segments :: rest =>
    unfold resolveParts
    refine (longer_tagValue (longer_ready hc context segments) hc context source).andThen fun v => ?_
    exact .after _ fun _ => (longer_resolveParts hc context rest).andThen fun _ => .refl _

/-- Segments are made ready to run longer. -/
theorem longer_ready (hc : calls.Longer calls') (context : Context) (segments : List Segment) :
    Longer (ready calls context segments) (ready calls' context segments) := by
  match segments with
  | [] =>
    unfold ready
    exact .nil
  | .bare name :: rest =>
    unfold ready
    exact .cons ⟨rfl, .none⟩ (longer_ready hc context rest)
  | .param name p :: rest =>
    unfold ready
    exact .cons ⟨rfl, .some (longer_resolve hc context p)⟩ (longer_ready hc context rest)

end

end Tags

/-! ## Entries -/

section Commands

variable (hc : calls.Longer calls') (n : EntryRef)

include hc

namespace Entries

/-- A text is resolved to the same value in a longer run. -/
theorem longer_resolveText (text : String) :
    Longer Eq (resolveText calls n text) (resolveText calls' n text) :=
  .after _ fun context => Tags.longer_resolve hc context _

/-- An argument is the same in a longer run. -/
theorem longer_resolveArgument (a : CompiledArgument) :
    Longer Eq (resolveArgument calls n a) (resolveArgument calls' n a) := by
  unfold resolveArgument
  split
  · exact .refl _
  · refine .after _ fun context => ?_
    dsimp only
    split
    · exact .after _ fun _ => (Tags.longer_resolve hc context _).andThen fun _ => .refl _
    · refine (Tags.longer_resolve hc context _).andThen fun _ => .after _ fun _ => ?_
      exact (Tags.longer_resolve hc context _).andThen fun _ => .refl _

/-- All arguments of an entry are the same in a longer run. -/
theorem longer_resolveArguments : Longer Eq (resolveArguments calls n) (resolveArguments calls' n) :=
  .after _ fun _ => (Longer.collect (longer_resolveArgument hc n) _).andThen fun _ => .refl _

/-- The argument with a key is the same in a longer run. -/
theorem longer_argument? (key : String) : Longer Eq (argument? calls n key) (argument? calls' n key) := by
  refine .after _ fun x => ?_
  split
  · exact (longer_resolveArgument hc n _).map _
  · exact .refl _

/-- The text of the argument with a key is the same in a longer run. -/
theorem longer_argumentText? (key : String) :
    Longer Eq (argumentText? calls n key) (argumentText? calls' n key) :=
  (longer_argument? hc n key).andThen fun _ => .refl _

/-- A text that must be given is the same in a longer run. -/
theorem longer_requiredText (key : String) :
    Longer Eq (requiredText calls n key) (requiredText calls' n key) :=
  (longer_argumentText? hc n key).andThen fun _ => .refl _

/-- A flag says the same in a longer run. -/
theorem longer_flag (word : String) : Longer Eq (flag calls n word) (flag calls' n word) :=
  (longer_argument? hc n word).andThen fun _ => .refl _

end Entries

/-! ## Commands -/

namespace Commands

open Entries

/-- One part of a condition holds in a longer run if it does in the shorter one. -/
theorem Condition.longer_partHolds (words : List String) :
    Longer Eq (partHolds calls n words) (partHolds calls' n words) := by
  unfold partHolds
  split
  · rename_i clause _
    cases clause with
    | truth text negated => exact (longer_resolveText hc n text).andThen fun _ => .refl _
    | compare left c right =>
      refine (longer_resolveText hc n left).andThen fun _ => ?_
      exact (longer_resolveText hc n right).andThen fun _ => .refl _
  · exact .refl _

/-- A condition is decided in the same way by a longer run. -/
theorem Condition.longer_holds (words : List String) :
    Longer Eq (holds calls n words) (holds calls' n words) := by
  unfold holds
  split
  · exact .refl _
  · exact .someHolds (fun group => .allHold (longer_partHolds hc n) _) _

/-- Whether a block is chosen is decided in the same way by a longer run. -/
theorem Condition.longer_isChosen (index : Nat) (b : Branch EntryRef) :
    Longer Eq (isChosen calls n index b) (isChosen calls' n index b) := by
  unfold isChosen
  split
  · exact longer_holds hc n _
  · generalize Action.ofExcept Failure.runtime (laterCondition b.args) = condition
    refine .after condition fun words => ?_
    cases words with
    | none => exact .refl _
    | some words => exact longer_holds hc n words

/-- A longer run chooses the same block. -/
theorem Condition.longer_choose (index : Nat) (bs : List (Branch EntryRef)) :
    Longer Eq (choose calls n index bs) (choose calls' n index bs) := by
  induction bs generalizing index with
  | nil =>
    rw [choose, choose]
    exact .refl _
  | cons b rest ih =>
    rw [choose, choose]
    refine (longer_isChosen hc n index b).andThen fun hit => ?_
    split
    · exact .refl _
    · exact ih (index + 1)

/-- A loop is parsed in the same way by a longer run. -/
theorem Loop.longer_parse : Longer Eq (parse calls n) (parse calls' n) := by
  have rest : Longer Eq (keepRange calls n) (keepRange calls' n) := by
    refine (longer_argument? hc n _).andThen fun found => ?_
    dsimp only
    split
    · exact .after _ fun _ => .after _ fun _ => (longer_argumentText? hc n _).andThen fun _ => .refl _
    · exact .after _ fun _ => .after _ fun _ => (longer_argumentText? hc n _).andThen fun _ => .refl _
  have controls : Longer Eq (isControl calls n) (isControl calls' n) :=
    .someHolds (longer_flag hc n) _
  rw [parse_eq, parse_eq]
  refine .after _ fun _ => .after _ fun _ => controls.andThen fun control => ?_
  cases control with
  | true => exact rest
  | false =>
    refine .after _ fun has => ?_
    dsimp only
    split
    · exact .after _ fun _ => rest
    · exact rest

/-- The command that runs a script is parsed in the same way by a longer run. -/
theorem Run.longer_parse : Longer Eq (parse calls n) (parse calls' n) := by
  have rest : Longer Eq (keepSpeed calls n) (keepSpeed calls' n) :=
    (longer_argument? hc n _).andThen fun _ => .refl _
  rw [parse_eq, parse_eq]
  refine .after _ fun _ => .after _ fun _ => .after _ fun has => ?_
  dsimp only
  split
  · exact .after _ fun _ => rest
  · exact rest

/-- The command that writes a file is parsed in the same way by a longer run. -/
theorem Files.longer_writeParse : Longer Eq (Files.Write.parse calls n) (Files.Write.parse calls' n) := by
  refine .after _ fun _ => (longer_requiredText hc n _).andThen fun _ => .after _ fun _ => ?_
  exact (longer_argument? hc n _).andThen fun _ => .refl _

/-- The command that copies a file is parsed in the same way by a longer run. -/
theorem Files.longer_copyParse : Longer Eq (Files.Copy.parse calls n) (Files.Copy.parse calls' n) := by
  refine .after _ fun _ => (longer_requiredText hc n _).andThen fun _ => .after _ fun _ => ?_
  refine (longer_requiredText hc n _).andThen fun _ => .after _ fun _ => ?_
  exact (longer_flag hc n _).andThen fun _ => .refl _

/-- A web request is parsed in the same way by a longer run. -/
theorem Web.longer_parse : Longer Eq (parse calls n) (parse calls' n) := by
  have method : Longer Eq (method calls n) (method calls' n) :=
    (longer_argument? hc n _).andThen fun _ => (longer_argumentText? hc n _).andThen fun _ => .refl _
  have rest : Longer Eq (keepOptions calls n) (keepOptions calls' n) :=
    method.andThen fun _ => .after _ fun _ => (longer_argument? hc n _).andThen fun _ => .refl _
  rw [parse_eq, parse_eq]
  refine .after _ fun _ => .after _ fun _ => .after _ fun url => ?_
  dsimp only
  split
  · exact .after _ fun _ => rest
  · split
    · exact .after _ fun _ => rest
    · exact rest

/-- Every command is parsed in the same way by a longer run. -/
theorem longer_parse : Longer Eq (parse calls n) (parse calls' n) := by
  refine .after _ fun x => ?_
  dsimp only
  split
  case h_7 => exact Loop.longer_parse hc n
  case h_9 => exact Run.longer_parse hc n
  case h_10 => exact .after _ fun _ => (longer_requiredText hc n _).andThen fun _ => .refl _
  case h_11 => exact Files.longer_writeParse hc n
  case h_12 => exact Files.longer_copyParse hc n
  case h_13 => exact Web.longer_parse hc n
  all_goals exact .refl _

/-- A condition does the same in a longer run. -/
theorem Condition.longer_execute : Longer Eq (execute calls n) (execute calls' n) :=
  .after _ fun _ => .after _ fun bs => (longer_choose hc n 0 bs).andThen fun _ => .refl _

/-- A loop does the same in a longer run. -/
theorem Loop.longer_execute : Longer Eq (execute calls n) (execute calls' n) := by
  refine .after _ fun q => (longer_flag hc n _).andThen fun stop => ?_
  split
  · exact .refl _
  · refine (longer_flag hc n _).andThen fun next => ?_
    split
    · exact .refl _
    · exact (longer_flag hc n _).andThen fun _ => .refl _

/-- A wait does the same in a longer run. -/
theorem Wait.longer_execute : Longer Eq (execute calls n) (execute calls' n) := by
  have target : Longer Eq (target calls n) (target calls' n) :=
    (longer_argumentText? hc n _).andThen fun _ => .refl _
  refine .after _ fun _ => target.andThen fun q => (longer_flag hc n _).andThen fun _ => ?_
  refine .after _ fun queue => .after _ fun _ => .after _ fun _ => ?_
  split
  · exact .refl _
  · exact .after _ fun timed => hc.start timed

/-- A script is run with the same options in a longer run. -/
theorem Run.longer_options : Longer Eq (options calls n) (options calls' n) := by
  have pace (speed : Option Value) : Longer Eq (pace calls n speed) (pace calls' n speed) := by
    unfold pace
    split
    · exact .refl _
    · exact (longer_flag hc n _).andThen fun _ => .refl _
  have rest (id : Option String) : Longer Eq (optionsUnder calls n id) (optionsUnder calls' n id) :=
    (longer_argument? hc n _).andThen fun _ => .after _ fun speed => (pace speed).andThen fun _ => .refl _
  rw [options_eq, options_eq]
  refine (longer_argumentText? hc n _).andThen fun id => ?_
  dsimp only
  split
  · refine .after _ fun taken => ?_
    split
    · exact .after _ fun _ => rest _
    · exact rest _
  · exact rest _

/-- Running a script does the same in a longer run. -/
theorem Run.longer_execute : Longer Eq (execute calls n) (execute calls' n) := by
  have rest (name : String) : Longer Eq (do
      let options ← Run.options calls n
      let q ← Scripts.prepare name options
      let queue ← Action.queue q
      Entries.store n "created_queue" (.str queue.id)
      report n [("script", name), ("queue", queue.id), ("type", queue.pace.name)]
      if (← Action.entry n).isAwaited then
        Queues.onComplete q (.finish n)
      else
        Entries.finish n
      calls.start q)
      (do
      let options ← Run.options calls' n
      let q ← Scripts.prepare name options
      let queue ← Action.queue q
      Entries.store n "created_queue" (.str queue.id)
      report n [("script", name), ("queue", queue.id), ("type", queue.pace.name)]
      if (← Action.entry n).isAwaited then
        Queues.onComplete q (.finish n)
      else
        Entries.finish n
      calls'.start q) := by
    refine (Run.longer_options hc n).andThen fun options => .after _ fun q => .after _ fun _ => ?_
    refine .after _ fun _ => .after _ fun _ => .after _ fun x => ?_
    dsimp only
    split
    · exact .after _ fun _ => hc.start q
    · exact .after _ fun _ => hc.start q
  refine .after _ fun name => .after _ fun found => ?_
  dsimp only
  split
  · exact .after _ fun _ => rest _
  · exact rest _

/-- A web request does the same in a longer run. -/
theorem Web.longer_execute : Longer Eq (execute calls n) (execute calls' n) := by
  have path : Longer Eq (savePath calls n) (savePath calls' n) :=
    (longer_argumentText? hc n _).andThen fun _ => .refl _
  have last (f : Float → Bool → WebRequest) : Longer Eq (do
      let timeout ← Entries.count n "timeout"
      let isSilent ← Entries.flag calls n "hide_failure"
      pure (f timeout isSilent))
      (do
      let timeout ← Entries.count n "timeout"
      let isSilent ← Entries.flag calls' n "hide_failure"
      pure (f timeout isSilent)) :=
    .after _ fun _ => (longer_flag hc n _).andThen fun _ => .refl _
  have request : Longer Eq (request calls n) (request calls' n) := by
    refine path.andThen fun saveTo => (longer_argument? hc n _).andThen fun headers => ?_
    refine (longer_argument? hc n _).andThen fun body => .after _ fun url => .after _ fun method => ?_
    dsimp only
    split
    · refine .after _ fun _ => .after _ fun _ => ?_
      split
      · exact .after _ fun _ => .after _ fun _ => last _
      · exact .after _ fun _ => last _
    · refine .after _ fun _ => ?_
      split
      · exact .after _ fun _ => .after _ fun _ => last _
      · exact .after _ fun _ => last _
  exact .after _ fun _ => request.andThen fun _ => .refl _

/-- Every command does the same in a longer run. -/
theorem longer_execute : Longer Eq (execute calls n) (execute calls' n) := by
  refine .after _ fun x => ?_
  split
  case h_6 => exact Condition.longer_execute hc n
  case h_7 => exact Loop.longer_execute hc n
  case h_8 => exact Wait.longer_execute hc n
  case h_9 => exact Run.longer_execute hc n
  case h_13 => exact Web.longer_execute hc n
  all_goals exact .refl _

end Commands

/-! ## Running an entry -/

namespace Executor

/-- The arguments that come first say the same in a longer run. -/
theorem longer_prelude (saveAs : Option String) (args : List CompiledArgument) :
    Longer Eq (prelude calls n saveAs args) (prelude calls' n saveAs args) := by
  induction args generalizing saveAs with
  | nil =>
    rw [prelude, prelude]
    exact .refl _
  | cons a rest ih =>
    rw [prelude, prelude]
    refine (Entries.longer_resolveArgument hc n a).andThen fun argument => ?_
    split
    · split
      · exact ih saveAs
      · exact .refl _
    · exact ih _
    · exact .after _ fun _ => ih saveAs

/-- An entry gets to its command in the same way in a longer run. -/
theorem longer_enter (scope : Scope) : Longer Eq (enter calls n scope) (enter calls' n scope) := by
  refine .after _ fun x => (longer_prelude hc n none _).andThen fun p => ?_
  split
  · exact .refl _
  · refine (Entries.longer_resolveArguments hc n).andThen fun _ => ?_
    exact (Commands.longer_parse hc n).andThen fun _ => .refl _

/-- An entry runs longer if what is done for its command does. -/
theorem longer_executeWith {α : Type} {act act' : Action α} (ha : Longer Eq act act') :
    Longer Eq (executeWith calls n act) (executeWith calls' n act') := by
  refine .after _ fun _ => .after _ fun x => .after _ fun scope => .after _ fun _ => .after _ fun refused => ?_
  split
  · exact .refl _
  · refine .orElse ((longer_enter hc n scope).andThen fun r => ?_) fun _ => .refl _
    cases r with
    | none => exact .refl _
    | some saveAs => exact ha.andThen fun _ => .refl _

/-- An entry runs in the same way in a longer run. -/
theorem longer_execute : Longer Eq (execute calls n) (execute calls' n) := by
  have unfolded (calls : Calls) : execute calls n =
      executeWith calls n (Commands.execute calls n) >>= fun r => pure r.1 := by
    funext e
    rw [execute_eq]
    match hr : executeWith calls n (Commands.execute calls n) e with
    | (.ok r, y) =>
      rw [Action.bind_ok hr]
      rfl
    | (.error f, y) =>
      rw [Action.bind_error hr]
      rfl
  rw [unfolded, unfolded]
  exact (longer_executeWith hc n (Commands.longer_execute hc n)).andThen fun _ => .refl _

end Executor

end Commands

/-! ## Turns and procedures -/

namespace Drive

/-- A queue takes the same step in a longer run. -/
theorem longer_step (hc : calls.Longer calls') (q : QueueRef) : Longer Eq (step calls q) (step calls' q) := by
  have runs (n : EntryRef) : Longer Eq (runEntry calls q n) (runEntry calls' q n) := by
    refine .after _ fun _ => .after _ fun _ => .after _ fun _ => .after _ fun _ => ?_
    exact (Executor.longer_execute hc n).andThen fun _ => .refl _
  refine .after _ fun active => ?_
  split
  · exact .refl _
  · refine .after _ fun waiting => ?_
    split
    · exact .refl _
    · refine .after _ fun first => ?_
      split
      · exact .refl _
      · exact (runs _).andThen fun _ => .refl _

section Turns

variable (hc : calls.Longer calls') {k k' : Nat} (hk : k ≤ k')

include hc hk

/-- A queue advances in the same way with more fuel. -/
theorem longer_advance (q : QueueRef) : Longer Eq (advance calls k q) (advance calls' k' q) :=
  (longer_step hc q).repeatWhile hk

/-- A queue starts in the same way with more fuel. -/
theorem longer_start (q : QueueRef) : Longer Eq (start calls k q) (start calls' k' q) := by
  have turn := longer_advance hc hk q
  have beats : Longer Eq (heartbeat calls k q) (heartbeat calls' k' q) := by
    refine .after _ fun queue => ?_
    split
    · split
      · exact turn
      · refine .after _ fun held => ?_
        split
        · exact .refl _
        · exact turn
    · exact .refl _
  refine .after _ fun queue => ?_
  split
  · exact .after _ fun _ => beats
  · exact .refl _

/-- A queue is run to completion in the same way with more fuel. -/
theorem longer_runToCompletion (q : QueueRef) :
    Longer Eq (runToCompletion calls k q) (runToCompletion calls' k' q) := by
  refine (longer_start hc hk q).andThen fun _ => .repeatWhile (.after _ fun goes => ?_) hk
  split
  · exact (longer_advance hc hk q).andThen fun _ => .refl _
  · exact .refl _

/-- A procedure has the same outcome with more fuel. -/
theorem longer_runProcedure (name : String) (args : List Value) :
    Longer Eq (runProcedure calls k name args) (runProcedure calls' k' name args) := by
  refine .after _ fun n => .after _ fun script => .after _ fun q => .after _ fun _ => ?_
  exact (longer_runToCompletion hc hk q).andThen fun _ => .refl _

end Turns

/-- What entries set going with more fuel is a longer run of the same. -/
theorem longer_calls {fuel fuel' : Nat} (h : fuel ≤ fuel') :
    (Drive.calls fuel).Longer (Drive.calls fuel') := by
  induction fuel generalizing fuel' with
  | zero => exact ⟨fun _ => .exhausted _, fun _ _ => .exhausted _⟩
  | succ fuel ih =>
    obtain ⟨fuel', rfl⟩ : ∃ k, fuel' = k + 1 := ⟨fuel' - 1, by omega⟩
    have less := Nat.le_of_succ_le_succ h
    exact ⟨fun q => longer_start (ih less) less q,
      fun name args => longer_runProcedure (ih less) less name args⟩

end Drive

end QueueScript
