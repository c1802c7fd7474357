/-!
# Tables in order of insertion

A table with text keys that remembers the order in which the keys came in. Setting a key that is
already there changes its value and keeps its place; erasing it and setting it again moves it to the
end. Definitions, saved entries, parsed objects and the registry of queues are such tables.
-/

namespace QueueScript

/-- A table with text keys, in order of insertion. -/
abbrev Keyed (α : Type) := List (String × α)

namespace Keyed

variable {α : Type}

/-- The value under a key. -/
def get? (t : Keyed α) (k : String) : Option α :=
  (t.find? (·.1 == k)).map (·.2)

/-- Whether a key is in the table. -/
def has (t : Keyed α) (k : String) : Bool :=
  t.any (·.1 == k)

/-- The table with a key set to a value: in place if the key is there, at the end otherwise. -/
def put (t : Keyed α) (k : String) (a : α) : Keyed α :=
  match t with
  | [] => [(k, a)]
  | p :: rest => if p.1 == k then (k, a) :: rest else p :: put rest k a

/-- The table without a key. -/
def erase (t : Keyed α) (k : String) : Keyed α :=
  t.filter (·.1 != k)

/-- The keys in order. -/
def keys (t : Keyed α) : List String :=
  t.map (·.1)

/-- The values in order. -/
def values (t : Keyed α) : List α :=
  t.map (·.2)

/-- The table of pairs put one after the other. -/
def ofPairs (ps : List (String × α)) : Keyed α :=
  ps.foldl (fun t p => put t p.1 p.2) []

@[simp] theorem get?_nil (k : String) : get? ([] : Keyed α) k = none := rfl

theorem get?_cons (p : String × α) (t : Keyed α) (k : String) :
    get? (p :: t) k = if p.1 == k then some p.2 else get? t k := by
  by_cases h : p.1 == k <;> simp [get?, h]

/-- A key that was just set has the value it was set to. -/
@[simp] theorem get?_put_self (t : Keyed α) (k : String) (a : α) : get? (put t k a) k = some a := by
  induction t with
  | nil => simp [put, get?_cons]
  | cons p rest ih =>
    by_cases h : p.1 == k
    · simp [put, h, get?_cons]
    · simp [put, h, get?_cons, ih]

/-- Setting a key leaves the others alone. -/
theorem get?_put_of_ne (t : Keyed α) {k k' : String} (a : α) (h : k' ≠ k) :
    get? (put t k a) k' = get? t k' := by
  induction t with
  | nil => simp [put, get?_cons, Ne.symm h]
  | cons p rest ih =>
    by_cases hp : p.1 == k
    · have : p.1 = k := by simpa using hp
      simp [put, get?_cons, this, Ne.symm h]
    · simp [put, hp, get?_cons, ih]

/-- A key is in the table when it has a value. -/
theorem has_eq_isSome (t : Keyed α) (k : String) : has t k = (get? t k).isSome := by
  induction t with
  | nil => rfl
  | cons p rest ih =>
    have ih' : rest.any (fun x => x.1 == k) = (get? rest k).isSome := ih
    by_cases h : p.1 == k
    · simp [has, get?_cons, h]
    · simp [has, get?_cons, h, ih']

theorem has_iff_mem_keys (t : Keyed α) (k : String) : has t k = true ↔ k ∈ keys t := by
  simp [has, keys]

/-- Setting a key that is there keeps the order of the keys, and any other key comes last. -/
theorem keys_put (t : Keyed α) (k : String) (a : α) :
    keys (put t k a) = if has t k then keys t else keys t ++ [k] := by
  induction t with
  | nil => simp [put, keys, has]
  | cons p rest ih =>
    by_cases h : p.1 == k
    · have hk : p.1 = k := by simpa using h
      simp [put, keys, has, hk]
    · have ih' : List.map (·.1) (put rest k a) =
          if rest.any (fun x => x.1 == k) then List.map (·.1) rest
          else List.map (·.1) rest ++ [k] := ih
      simp only [put, h, keys, has, List.map_cons, List.any_cons, Bool.false_or]
      rw [if_neg (by simp), List.map_cons, ih']
      split <;> simp

end Keyed

end QueueScript
