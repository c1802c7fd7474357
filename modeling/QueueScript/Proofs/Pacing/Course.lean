import QueueScript.Proofs.Pacing.Entries

/-!
# The course of a queue

Turns and beats come and go, but what a queue goes through is one course (`Drive.Course`): entry after
entry, each of which is decided by the engine before it.  An engine on a course stands for all engines that
are the same but for the pace (`Drive.Mirrors`).  A turn, a start and a beat of an instant or a timed queue
lead along the course of the engine that stands for theirs, as far as they get (`Drive.Tracks`): delays,
pauses and the ends of turns do not turn up there.
-/

namespace QueueScript

namespace Drive

variable {q : QueueRef} {b x y z e e₁ : Engine} {ms ms' : List Engine}

/-! ## Courses -/

/-- From the engine `x` on, entry after entry of the queue leads to these engines, up to its pace. -/
inductive Course (q : QueueRef) : Engine → List Engine → Prop where
  | none (x : Engine) : Course q x []
  | next {x y m : Engine} {ms : List Engine} :
      Passes q x y → y.SameButPace q m → Course q y ms → Course q x (m :: ms)

/-- There is one course from an engine on. -/
theorem Course.agree (h : Course q x ms) (h' : Course q x ms') {k : Nat} {m m' : Engine}
    (hm : ms[k]? = some m) (hm' : ms'[k]? = some m') : m.SameButPace q m' := by
  induction h generalizing ms' k with
  | none x => cases hm
  | @next x y m₁ ms passes same rest ih =>
    cases h' with
    | none => cases hm'
    | @next _ y' m₁' ms₁ passes' same' rest' =>
      obtain rfl := passes.unique passes'
      cases k with
      | zero =>
        obtain rfl := Option.some.inj hm
        obtain rfl := Option.some.inj hm'
        exact same.symm.trans same'
      | succ k => exact ih rest' hm hm'

/-- A queue that is not active goes nowhere. -/
theorem Course.of_inactive (h : Course q x ms) (ha : isActive x q = false) : ms = [] := by
  cases h with
  | none => rfl
  | next passes =>
    obtain ⟨active, -, -, -⟩ := passes
    rw [ha] at active
    cases active

/-- The queue has run one entry more at each of the engines; its history was `h` before and is `h'` in the
end. -/
inductive Unrolls (q : QueueRef) : List (String × Bool) → List Engine → List (String × Bool) → Prop where
  | none (h : List (String × Bool)) : Unrolls q h [] h
  | next {h h' : List (String × Bool)} {t : String × Bool} {m : Engine} {ms : List Engine} :
      m.executed q = h ++ [t] → Unrolls q (m.executed q) ms h' → Unrolls q h (m :: ms) h'

namespace Unrolls

variable {h h' h'' : List (String × Bool)}

theorem append (hu : Unrolls q h ms h') (hu' : Unrolls q h' ms' h'') : Unrolls q h (ms ++ ms') h'' := by
  induction hu with
  | none => exact hu'
  | next more _ ih => exact .next more (ih hu')

theorem isPrefix (hu : Unrolls q h ms h') : h <+: h' := by
  induction hu with
  | none => exact List.prefix_rfl
  | @next h h' t m ms more _ ih =>
    rw [more] at ih
    exact (List.prefix_append _ _).trans ih

/-- The history in the end is that at the last one of the engines. -/
theorem last (hu : Unrolls q h ms h') : h' = (ms.getLast?.map (·.executed q)).getD h := by
  induction hu with
  | none => rfl
  | @next h h' t m ms more _ ih =>
    rw [ih, List.getLast?_cons]
    cases ms.getLast? <;> rfl

/-- The history at one of the engines. -/
theorem get (hu : Unrolls q h ms h') {k : Nat} {m : Engine} (hm : ms[k]? = some m) :
    (m.executed q).length = h.length + (k + 1) ∧ m.executed q <+: h' := by
  induction hu generalizing k with
  | none => cases hm
  | @next h h' t m₁ ms more rest ih =>
    cases k with
    | zero =>
      obtain rfl := Option.some.inj hm
      exact ⟨by rw [more, List.length_append, List.length_singleton], rest.isPrefix⟩
    | succ k =>
      obtain ⟨length, before⟩ := ih hm
      refine ⟨?_, before⟩
      rw [length, more, List.length_append, List.length_singleton]
      omega

end Unrolls

/-- Along the course from `x` on, the queue goes through these engines up to `y`. -/
structure Leads (q : QueueRef) (x : Engine) (ms : List Engine) (y : Engine) : Prop where
  course {ms' : List Engine} : Course q y ms' → Course q x (ms ++ ms')
  unrolls : Unrolls q (x.executed q) ms (y.executed q)

theorem Leads.refl (q : QueueRef) (x : Engine) : Leads q x [] x :=
  ⟨id, .none _⟩

theorem Leads.trans (h : Leads q x ms y) (h' : Leads q y ms' z) : Leads q x (ms ++ ms') z where
  course hc := by
    rw [List.append_assoc]
    exact h.course (h'.course hc)
  unrolls := h.unrolls.append h'.unrolls

/-- One entry. -/
theorem Leads.passes (h : Passes q x y) (hx : b.OnTask q x) (hm : y.SameButPace q e) : Leads q x [e] y where
  course hc := .next h hm hc
  unrolls := by
    obtain ⟨-, -, t, more⟩ := h.onTask hx
    have same : e.executed q = y.executed q := congrArg Account.executed hm.account
    exact .next (same.trans more) (same ▸ .none _)

/-! ## Engines along a course -/

/-- The engine `x`, on which local commands run, stands for the engine `e`. -/
structure Mirrors (b : Engine) (q : QueueRef) (x e : Engine) : Prop where
  onTask : b.OnTask q x
  same : x.SameButPace q e

theorem Mirrors.next (h : Mirrors b q x e) (hs : e.SameButPace q e₁) : Mirrors b q x e₁ :=
  ⟨h.onTask, h.same.trans hs⟩

/-- What is done along the course from `x` on: it leads on to an engine that is stood for again, unless it
is cut off. -/
def Tracks (b : Engine) (q : QueueRef) (x : Engine) (ms : List Engine) : Except Failure Unit × Engine → Prop
  | (.ok _, e) => ∃ y, Mirrors b q y e ∧ Leads q x ms y
  | (.error f, _) => f = .exhausted ∧ Course q x ms ∧ ∃ h, Unrolls q (x.executed q) ms h

namespace Tracks

variable {r : Except Failure Unit × Engine}

theorem still (h : Mirrors b q x e) : Tracks b q x [] (.ok (), e) :=
  ⟨x, h, .refl q x⟩

theorem exhausted (x e : Engine) : Tracks b q x [] (.error .exhausted, e) :=
  ⟨rfl, .none x, _, .none _⟩

theorem course (h : Tracks b q x ms r) : Course q x ms := by
  rcases r with ⟨f | _, e⟩
  · exact h.2.1
  · obtain ⟨y, -, leads⟩ := h
    have whole := leads.course (.none y)
    rwa [List.append_nil] at whole

theorem unrolls (h : Tracks b q x ms r) : ∃ l, Unrolls q (x.executed q) ms l := by
  rcases r with ⟨f | _, e⟩
  · exact h.2.2
  · obtain ⟨y, -, leads⟩ := h
    exact ⟨_, leads.unrolls⟩

/-- What comes before. -/
theorem after (hl : Leads q x ms y) (h : Tracks b q y ms' r) : Tracks b q x (ms ++ ms') r := by
  rcases r with ⟨f | _, e⟩
  · obtain ⟨rfl, course, l, unrolls⟩ := h
    exact ⟨rfl, hl.course course, l, hl.unrolls.append unrolls⟩
  · obtain ⟨z, mirrors, leads⟩ := h
    exact ⟨z, mirrors, hl.trans leads⟩

/-- One thing after another; `next` lists what the second one leads through. -/
theorem bind {a : Action Unit} {f : Unit → Action Unit} {next : Engine → List Engine}
    (h : Tracks b q x ms (a e)) (hf : ∀ y e₁, Mirrors b q y e₁ → Tracks b q y (next e₁) (f () e₁)) :
    Tracks b q x (ms ++ match a e with
      | (.ok _, e₁) => next e₁
      | (.error _, _) => []) ((a >>= f) e) := by
  rcases hr : a e with ⟨err | _, e₁⟩ <;> rw [hr] at h
  · rw [Action.bind_error hr, List.append_nil]
    exact h
  · obtain ⟨y, mirrors, leads⟩ := h
    rw [Action.bind_ok hr]
    exact after leads (hf y e₁ mirrors)

end Tracks

end Drive

end QueueScript
