import QueueScript.Proofs.Discipline.Basic
import QueueScript.Proofs.FreshIds

/-!
# Ids are never made twice

An id that is made from a name is the base of the name, an underscore and a number, and the numbers of a
base go on where they ended last.  So two ids of one base differ.  Two ids of different bases differ as
well, although a base may itself end in an underscore and a number: the number of an id is what stands
behind its last underscore (`numberedId_inj`).

Hence no id is made twice, whatever queues are made, registered and taken out of the registry in between
(`issued_ids_lasting`).  The search for a number is not bounded by itself; it ends because only so many ids
are registered.
-/

namespace QueueScript.Queues

open QueueScript.Action (bind_ok)

variable {registry : Keyed QueueRef} {base base' : String} {m n : Nat}

/-! ## The search for a number -/

/-- The numbers after the first one are tried in turn until there is one whose id is free: the second
one. -/
inductive Tries (registry : Keyed QueueRef) (base : String) : Nat → Nat → Prop
  /-- The next number is free. -/
  | found {n : Nat} : registry.has (numberedId base (n + 1)) = false → Tries registry base n (n + 1)
  /-- The next number is taken. -/
  | taken {n m : Nat} : registry.has (numberedId base (n + 1)) = true →
      Tries registry base (n + 1) m → Tries registry base n m

theorem Tries.lt (h : Tries registry base n m) : n < m := by
  induction h with
  | found _ => omega
  | taken _ _ ih => omega

theorem Tries.free (h : Tries registry base n m) : registry.has (numberedId base m) = false := by
  induction h with
  | found h => exact h
  | taken _ _ ih => exact ih

/-- A number that was found with a bound on the tries is found without one, if it is free. -/
theorem tries_of_free {fuel : Nat}
    (h : registry.has (numberedId base (freeNumber registry base fuel n)) = false) :
    Tries registry base n (freeNumber registry base fuel n) := by
  induction fuel generalizing n with
  | zero => exact .found h
  | succ fuel ih =>
    unfold freeNumber at h ⊢
    by_cases htaken : registry.has (numberedId base (n + 1)) = true
    · rw [if_pos htaken] at h ⊢
      exact .taken htaken (ih h)
    · rw [if_neg htaken]
      exact .found (Bool.eq_false_iff.2 htaken)

/-- The search ends. -/
theorem tries_freeNumber (registry : Keyed QueueRef) (base : String) (n : Nat) :
    Tries registry base n (freeNumber registry base registry.length n) :=
  tries_of_free (freeNumber_free registry base n)

/-! ## The parts of an id -/

/-- What stands before and behind the last separator is known. -/
theorem append_separator_inj {α : Type} {c : α} {xs ys xs' ys' : List α} (hys : c ∉ ys) (hys' : c ∉ ys')
    (h : xs ++ c :: ys = xs' ++ c :: ys') : xs = xs' ∧ ys = ys' := by
  rcases List.append_eq_append_iff.1 h with ⟨more, hxs, htail⟩ | ⟨more, hxs, htail⟩
  · cases more with
    | nil => exact ⟨by simp [hxs], (List.cons.inj htail).2⟩
    | cons d more => exact absurd ((List.cons.inj htail).2 ▸ by simp) hys
  · cases more with
    | nil => exact ⟨by simp [hxs], (List.cons.inj htail).2.symm⟩
    | cons d more => exact absurd ((List.cons.inj htail).2 ▸ by simp) hys'

theorem underscore_not_mem_natText (n : Nat) : '_' ∉ (Number.natText n).toList := by
  intro h
  rw [Number.natText, String.toList_ofList] at h
  have digit := Nat.isDigit_of_mem_toDigits (by decide) (by decide) h
  exact absurd digit (by decide)

/-- An id tells its base and its number. -/
theorem numberedId_inj (h : numberedId base m = numberedId base' n) : base = base' ∧ m = n := by
  have chars (base : String) (n : Nat) :
      (numberedId base n).toList = base.toList ++ '_' :: (Number.natText n).toList := by
    simp [numberedId]
  have parts := congrArg String.toList h
  rw [chars, chars] at parts
  obtain ⟨hbase, hnumber⟩ :=
    append_separator_inj (underscore_not_mem_natText m) (underscore_not_mem_natText n) parts
  exact ⟨String.toList_inj.1 hbase, natText_injective (String.toList_inj.1 hnumber)⟩

/-! ## Requests -/

/-- What may be asked of the registry. -/
inductive Request where
  /-- An id that is made from a name. -/
  | generate (name : String)
  /-- A new queue. -/
  | create (pace : Pace) (name : String) (options : Options)
  /-- The registration of a queue. -/
  | register (q : QueueRef)
  /-- The end of the registration of a queue. -/
  | unregister (q : QueueRef)

/-- The name that an id is made from, if one is to be made. -/
def Request.name? : Request → Option String
  | .generate name => some name
  | .create _ name options => if options.id.isNone then some name else none
  | .register _ => none
  | .unregister _ => none

/-- What is done for a request, with the id that was made. -/
def Request.serve : Request → Action (Option String)
  | .generate name => some <$> generateId name
  | .create pace name options => do
    let q ← Queues.create pace name options
    if options.id.isNone then pure (some (← Action.queue q).id) else pure none
  | .register q => do
    Queues.register q
    pure none
  | .unregister q => do
    Queues.unregister q
    pure none

/-- An id that was made, the request it was made for, and the engine just before. -/
structure Issue where
  /-- The engine just before. -/
  engine : Engine
  /-- The request. -/
  request : Request
  /-- The id. -/
  id : String

/-- The ids that are made for requests, one after the other. -/
def issues : List Request → Engine → List Issue
  | [], _ => []
  | r :: rest, e =>
    match r.serve e with
    | (.ok (some id), e') => ⟨e, r, id⟩ :: issues rest e'
    | (_, e') => issues rest e'

/-- The number of the last id that was made from a base. -/
def lastNumber (e : Engine) (base : String) : Nat :=
  (e.counters.get? base).getD 0

/-- The number that the next id from a base gets. -/
def nextNumber (e : Engine) (base : String) : Nat :=
  freeNumber e.registry base e.registry.length (lastNumber e base)

theorem tries_nextNumber (e : Engine) (base : String) :
    Tries e.registry base (lastNumber e base) (nextNumber e base) :=
  tries_freeNumber e.registry base (lastNumber e base)

variable {e : Engine} {r : Request} {name : String}

/-- A queue that is given an id leaves the numbers alone. -/
theorem create_given {options : Options} {id : String} (hid : options.id = some id) (pace : Pace)
    (name : String) (e : Engine) :
    ∃ q e', create pace name options e = (.ok q, e') ∧ e'.counters = e.counters := by
  unfold create
  rw [hid]
  exact ⟨_, _, rfl, rfl⟩

/-- A queue that is given no id gets one that is made from its name. -/
theorem create_named {options : Options} (hid : options.id = none) (pace : Pace) (name : String)
    (e : Engine) :
    ∃ q e', create pace name options e = (.ok q, e') ∧
      (e'.queue q).id = numberedId (idBase name) (nextNumber e (idBase name)) ∧
      e'.counters = e.counters.put (idBase name) (nextNumber e (idBase name)) := by
  unfold create
  rw [hid]
  refine ⟨_, _, bind_ok rfl, ?_, rfl⟩
  simp [Engine.queue, nextNumber, lastNumber]

/-- A request without a name leaves the numbers alone. -/
theorem serve_of_unnamed (h : r.name? = none) (e : Engine) :
    ∃ e', r.serve e = (.ok none, e') ∧ e'.counters = e.counters := by
  cases r with
  | generate name => cases h
  | create pace name options =>
    cases hid : options.id with
    | none => simp [Request.name?, hid] at h
    | some id =>
      obtain ⟨q, e', created, counters⟩ := create_given hid pace name e
      refine ⟨e', ?_, counters⟩
      simp only [Request.serve, hid, Option.isNone_some, Bool.false_eq_true, if_false]
      exact bind_ok created
  | register q => exact ⟨_, rfl, rfl⟩
  | unregister q =>
    refine ⟨_, rfl, ?_⟩
    show (if _ then _ else _ : Engine).counters = _
    split <;> rfl

/-- A request with a name is answered by the next id of its base. -/
theorem serve_of_named (h : r.name? = some name) (e : Engine) :
    ∃ e', r.serve e = (.ok (some (numberedId (idBase name) (nextNumber e (idBase name)))), e') ∧
      e'.counters = e.counters.put (idBase name) (nextNumber e (idBase name)) := by
  cases r with
  | generate name' =>
    obtain rfl := Option.some.inj h
    exact ⟨_, rfl, rfl⟩
  | create pace name' options =>
    cases hid : options.id with
    | none =>
      simp only [Request.name?, hid, Option.isNone_none, if_true] at h
      obtain rfl := Option.some.inj h
      obtain ⟨q, e', created, named, counters⟩ := create_named hid pace name' e
      refine ⟨e', ?_, counters⟩
      simp only [Request.serve, hid, Option.isNone_none, if_true]
      rw [bind_ok created, ← named]
      rfl
    | some id => simp [Request.name?, hid] at h
  | register q => cases h
  | unregister q => cases h

/-- No request takes a number back. -/
theorem lastNumber_serve (r : Request) (e : Engine) (base : String) :
    lastNumber e base ≤ lastNumber (r.serve e).2 base := by
  cases hr : r.name? with
  | none =>
    obtain ⟨e', served, counters⟩ := serve_of_unnamed hr e
    have same : lastNumber e' base = lastNumber e base := by
      unfold lastNumber
      rw [counters]
    rw [served]
    exact Nat.le_of_eq same.symm
  | some name =>
    obtain ⟨e', served, counters⟩ := serve_of_named hr e
    rw [served]
    show lastNumber e base ≤ lastNumber e' base
    by_cases hbase : base = idBase name
    · have last : lastNumber e' base = nextNumber e base := by simp [lastNumber, counters, hbase]
      have later := (tries_nextNumber e base).lt
      omega
    · have same : lastNumber e' base = lastNumber e base := by
        unfold lastNumber
        rw [counters, Keyed.get?_put_of_ne _ _ hbase]
      omega

/-! ## Series of requests -/

/-- How an id is found: it is made from the name of the request by the search from the last number on, and
belongs to no queue. -/
def Issue.Fresh (i : Issue) : Prop :=
  ∃ name n, i.request.name? = some name ∧ i.id = numberedId (idBase name) n ∧
    Tries i.engine.registry (idBase name) (lastNumber i.engine (idBase name)) n ∧
    i.engine.registered? i.id = none

/-- One more request, with or without an id. -/
theorem issues_cons (r : Request) (rest : List Request) (e : Engine) :
    (r.name? = none ∧ issues (r :: rest) e = issues rest (r.serve e).2) ∨
      ∃ i : Issue, i.request = r ∧ i.engine = e ∧ i.Fresh ∧
        issues (r :: rest) e = i :: issues rest (r.serve e).2 ∧
        ∀ name n, i.id = numberedId (idBase name) n → lastNumber (r.serve e).2 (idBase name) = n := by
  cases hr : r.name? with
  | none =>
    obtain ⟨e', served, -⟩ := serve_of_unnamed hr e
    exact .inl ⟨rfl, by rw [issues, served]⟩
  | some name =>
    obtain ⟨e', served, counters⟩ := serve_of_named hr e
    have search := tries_nextNumber e (idBase name)
    have free : e.registered? (numberedId (idBase name) (nextNumber e (idBase name))) = none := by
      have free := search.free
      rw [Keyed.has_eq_isSome] at free
      rw [Engine.registered?, lower_numberedId]
      simpa using free
    refine .inr ⟨⟨e, r, numberedId (idBase name) (nextNumber e (idBase name))⟩, rfl, rfl,
      ⟨name, _, hr, rfl, search, free⟩, ?_, ?_⟩
    · rw [issues, served]
    · intro name' n' hid
      obtain ⟨hbase, rfl⟩ := numberedId_inj hid
      rw [served, ← hbase]
      simp [lastNumber, counters]

/-- The ids that will be made have numbers that come after the last ones. -/
theorem lastNumber_lt_of_issue {requests : List Request} {i : Issue} (hi : i ∈ issues requests e)
    (hid : i.id = numberedId (idBase name) n) : lastNumber e (idBase name) < n := by
  induction requests generalizing e with
  | nil => exact absurd hi List.not_mem_nil
  | cons r rest ih =>
    have grows := lastNumber_serve r e (idBase name)
    rcases issues_cons r rest e with ⟨-, hrest⟩ | ⟨j, -, hengine, fresh, hrest, -⟩
    · have later := ih (hrest ▸ hi)
      omega
    · rw [hrest] at hi
      rcases List.mem_cons.1 hi with rfl | hi
      · obtain ⟨name', n', -, hid', search, -⟩ := fresh
        obtain ⟨hbase, rfl⟩ := numberedId_inj (hid.symm.trans hid')
        rw [hbase, ← hengine]
        exact search.lt
      · have later := ih hi
        omega

/-- Whatever is asked of the registry, every request for an id is answered.  The id is found by the search
from the last number of its base on, nothing is registered under it, case aside, and no other request is
ever answered by the same id, case aside. -/
theorem issued_ids_lasting (requests : List Request) (e : Engine) :
    (issues requests e).map (·.request) = requests.filter (·.name?.isSome) ∧
    (∀ i ∈ issues requests e, i.Fresh) ∧
    ((issues requests e).map fun i => Text.lower i.id).Nodup := by
  induction requests generalizing e with
  | nil => simp [issues]
  | cons r rest ih =>
    obtain ⟨answered, fresh, apart⟩ := ih (r.serve e).2
    rcases issues_cons r rest e with ⟨hr, hrest⟩ | ⟨i, hrequest, -, hfresh, hrest, last⟩
    · rw [hrest]
      exact ⟨by simp [answered, hr], fresh, apart⟩
    · obtain ⟨name, n, hname, hid, -⟩ := id hfresh
      rw [hrest]
      refine ⟨?_, ?_, ?_⟩
      · rw [hrequest] at hname
        simp [answered, hname, hrequest]
      · intro j hj
        rcases List.mem_cons.1 hj with rfl | hj
        · exact hfresh
        · exact fresh j hj
      · rw [List.map_cons, List.nodup_cons]
        refine ⟨fun hmem => ?_, apart⟩
        obtain ⟨j, hj, hsame⟩ := List.mem_map.1 hmem
        obtain ⟨name', n', -, hid', -⟩ := fresh j hj
        -- Both ids are in lower case, so they are the same id, but the later one has a later number.
        rw [hid, hid', lower_numberedId, lower_numberedId] at hsame
        have later := lastNumber_lt_of_issue hj (hid'.trans hsame)
        have := last name n hid
        omega

example : (issues [.create .instant "x" { id := some "A_2" }, .register 0, .generate "a", .generate "A",
    .create .instant "a_1" {}, .unregister 0, .generate "A!", .generate "a", .generate "?", .generate "queue"]
      { config := {}, tracing := false }).map (·.id) =
    ["a_1", "a_3", "a_1_1", "a__1", "a_4", "__1", "queue_1"] := by
  decide +kernel

end QueueScript.Queues
