import QueueScript.Proofs.Looping.Counts

/-!
# What a loop is asked for

The command of a loop reads its quantity and its first index as whole numbers and stores them on its entry.
Up to the largest number that a double and all before it are exact, these are the numbers that the arguments
are (`Argument.Asks`).
-/

namespace QueueScript

open QueueScript.Action (ok_of_bind)

variable {calls : Calls} {n : EntryRef} {given : Argument} {x y z : Engine}

/-! ## Resolved arguments -/

/-- What holds of every single result holds of all that are collected. -/
theorem Action.collect_all {α β : Type} {P : β → Prop} {f : α → Action β}
    (hf : ∀ {a x b y}, f a x = (.ok b, y) → P b) {as : List α} {bs : List β} :
    ∀ {x y : Engine}, Action.collect f as x = (.ok bs, y) → ∀ b ∈ bs, P b := by
  induction as generalizing bs with
  | nil =>
    intro x y h b hb
    cases h
    cases hb
  | cons a rest ih =>
    intro x y h
    obtain ⟨b, x₁, first, h⟩ := ok_of_bind h
    obtain ⟨bs', x₂, others, h⟩ := ok_of_bind h
    cases h
    exact List.forall_mem_cons.2 ⟨hf first, ih others⟩

/-- A text is shown as itself. -/
theorem Argument.isShown_of_str {text : String} (h : given.object = .str text) : given.IsShown := by
  intro f hf
  cases h.symm.trans hf

/-- An argument that was read off a text is shown as it. -/
theorem Argument.isShown_ofText (text : String) (anySymbol dynamic : Bool) :
    (Argument.ofText text anySymbol dynamic).IsShown := by
  unfold Argument.ofText
  split
  · exact isShown_of_str rfl
  · exact isShown_of_str rfl

namespace Entries

/-- An argument that is made of a value is shown as it. -/
theorem argumentOf_isShown {key : Option String} {v : Value} (h : argumentOf key v x = (.ok given, y)) :
    given.IsShown := by
  cases h
  rintro f rfl
  rfl

/-- An argument whose value was resolved is shown as it. -/
theorem resolveValue_isShown {a : CompiledArgument} {context : Tags.Context} {key : Option String}
    (h : resolveValue calls n a context key x = (.ok given, y)) : given.IsShown := by
  obtain ⟨v, x₁, -, h⟩ := ok_of_bind h
  obtain ⟨entry, x₂, -, h⟩ := ok_of_bind h
  dsimp only at h
  split at h
  · split at h
    · cases h
      exact Argument.isShown_ofText _ _ _
    · exact argumentOf_isShown h
  · exact argumentOf_isShown h

/-- The text of a number is what the number is shown as. -/
theorem resolveArgument_isShown {a : CompiledArgument} (h : resolveArgument calls n a x = (.ok given, y)) :
    given.IsShown := by
  cases hl : a.literal? with
  | some argument =>
    rw [resolveArgument_of_literal hl] at h
    cases h
    unfold CompiledArgument.literal? at hl
    split at hl
    · cases hl
    · cases hl
      exact Argument.isShown_of_str rfl
  | none =>
    cases hk : a.key with
    | none =>
      rw [resolveArgument_of_bare hl hk] at h
      obtain ⟨c, x₁, -, h⟩ := ok_of_bind h
      obtain ⟨key, x₂, -, h⟩ := ok_of_bind h
      exact resolveValue_isShown h
    | some t =>
      rw [resolveArgument_of_keyed hl hk] at h
      obtain ⟨c, x₁, -, h⟩ := ok_of_bind h
      obtain ⟨v, x₂, -, h⟩ := ok_of_bind h
      obtain ⟨key, x₃, -, h⟩ := ok_of_bind h
      exact resolveValue_isShown h

/-- An argument that was looked up is shown as its value. -/
theorem argument?_isShown {key : String} (h : argument? calls n key x = (.ok (some given), y)) :
    given.IsShown := by
  cases hc : (x.entry n).code.argument? key with
  | none =>
    rw [argument?_of_none hc] at h
    cases h
  | some a =>
    rw [argument?_of_some hc] at h
    obtain ⟨b, x₁, resolved, h⟩ := ok_of_bind h
    cases h
    exact resolveArgument_isShown resolved

end Entries

/-! ## Reading and storing -/

namespace Discipline.Apart

/-- Reading leaves all entries alone. -/
theorem reads {α : Type} {a : Action α} {v : α} (hi : calls.Isolated) (hx : x.Healthy)
    (ha : ∀ {D : Discipline} {e₀ : Engine}, D.Noting → D.ProcedureSafe calls → D.Safe e₀ a)
    (h : a x = (.ok v, y)) : y.Healthy ∧ x.Apart [x.entries.size] y := by
  have safe : (apart x.entries.size True).Safe x a :=
    ha (bookkeeping x.entries.size True).toNoting (procedureSafe hi (.inr trivial))
  have run := safe.run x ⟨hx, fun _ => trivial⟩ (.refl _ x)
  rw [h] at run
  exact ⟨run.1.1.1, run.1.2⟩

end Discipline.Apart

namespace Engine

/-- Apart from a new entry, every entry is as it was. -/
theorem Apart.entry_eq (h : x.Apart [x.entries.size] y) (hn : n < x.entries.size) : y.entry n = x.entry n :=
  h.entry hn fun hm => Nat.ne_of_lt hn (List.mem_singleton.1 hm)

/-- What leaves all entries as they were is apart from any. -/
theorem Apart.of_reads {X : List EntryRef} (h : x.Apart [x.entries.size] y) : x.Apart X y :=
  { h with entry := fun hm _ => h.entry_eq hm }

/-- What is stored on an entry. -/
def stored (x : Engine) (n : EntryRef) (key : String) (v : Value) : Engine :=
  x.changeEntry n fun z => { z with objects := z.objects.put (Text.lower key) v }

/-- A value is stored on one entry. -/
theorem apart_stored (x : Engine) (n : EntryRef) (key : String) (v : Value) : x.Apart [n] (x.stored n key v) :=
  .changeEntry (f := fun z => { z with objects := z.objects.put (Text.lower key) v })
    (List.mem_singleton_self n) ⟨fun _ => rfl, fun _ => rfl⟩ (fun _ h => h) (fun _ => rfl) (fun _ => rfl)
    (fun _ => rfl) x

/-- An engine stays healthy when a value is stored. -/
theorem Healthy.stored (h : x.Healthy) (hn : x.Live n) (key : String) (v : Value) :
    (x.stored n key v).Healthy :=
  ((Discipline.Apart.bookkeeping n True).jot (f := fun z => { z with objects := z.objects.put (Text.lower key) v })
    ⟨h, fun _ => trivial⟩ ⟨rfl, hn⟩ fun _ => ⟨_, _, _, rfl⟩).1.1

/-- The entry on which a value was stored. -/
theorem entry_stored (hn : n < x.entries.size) (key : String) (v : Value) : (x.stored n key v).entry n =
    { x.entry n with objects := (x.entry n).objects.put (Text.lower key) v } :=
  x.entry_changeEntry_self hn _

end Engine

namespace Commands.Loop

/-- The quantity is taken as a whole number. -/
theorem take_eq {a : Argument} (h : take n a x = (.ok (), y)) :
    ∃ v, a.asWhole = .ok v ∧ y = x.stored n "quantity" (.num v) := by
  obtain ⟨known, x₁, found, h⟩ := ok_of_bind h
  cases found
  dsimp only at h
  split at h
  · obtain ⟨v, x₂, whole, h⟩ := ok_of_bind h
    cases hw : a.asWhole with
    | error f =>
      rw [hw] at whole
      cases whole
    | ok w =>
      rw [hw] at whole
      cases whole
      cases h
      exact ⟨_, rfl, rfl⟩
  · cases h

/-- Taking arguments changes only what is stored on the entry. -/
theorem each_take {args : List Argument} (hx : x.Healthy) (hn : x.Live n)
    (h : Action.each (take n) args x = (.ok (), y)) :
    y.Healthy ∧ x.Apart [n] y ∧ (y.entry n).arguments = (x.entry n).arguments := by
  induction args generalizing x with
  | nil =>
    cases h
    exact ⟨hx, .refl _ _, rfl⟩
  | cons a rest ih =>
    obtain ⟨_, x₁, taken, h⟩ := ok_of_bind h
    obtain ⟨v, -, rfl⟩ := take_eq taken
    have noted := x.apart_stored n "quantity" (.num v)
    obtain ⟨healthy, apart, same⟩ := ih (hx.stored hn _ _) (noted.live hn) h
    exact ⟨healthy, noted.trans apart, by rw [same, Engine.entry_stored hn.1]⟩

/-- What a loop stores after its quantity. -/
theorem keepRange_eq (hi : calls.Isolated) (hx : x.Healthy) (hn : x.Live n)
    (h : keepRange calls n x = (.ok (), z)) :
    ∃ first name y y' v, Entries.argument? calls n "from" x = (.ok first, y) ∧
      (∀ a, first = some a → a.IsShown ∧ a.asWhole = .ok v) ∧ (first = none → v = 1.0) ∧
      Entries.argumentText? calls n "as" (y.stored n "from" (.num v)) = (.ok name, y') ∧
      z.entry n = { x.entry n with
        objects := ((x.entry n).objects.put (Text.lower "from") (.num v)).put (Text.lower "as")
          (.str (name.getD "value")) } := by
  obtain ⟨first, y, read, h⟩ := ok_of_bind h
  obtain ⟨healthy, apart⟩ := Discipline.Apart.reads hi hx (fun hb hp => Discipline.safe_argument? hb hp _) read
  have hny := apart.live hn
  obtain ⟨v, given, missing, h⟩ : ∃ v, (∀ a, first = some a → a.IsShown ∧ a.asWhole = .ok v) ∧
      (first = none → v = 1.0) ∧ (do
        let name ← Entries.argumentText? calls n "as"
        Entries.store n "as" (.str (name.getD "value")) : Action Unit) (y.stored n "from" (.num v)) =
          (.ok (), z) := by
    cases first with
    | none => exact ⟨1.0, fun a ha => absurd ha.symm (Option.some_ne_none a), fun _ => rfl, h⟩
    | some a =>
      obtain ⟨v, y₁, whole, h⟩ := ok_of_bind h
      cases hw : a.asWhole with
      | error f =>
        rw [hw] at whole
        cases whole
      | ok w =>
        rw [hw] at whole
        cases whole
        refine ⟨_, fun b hb => ?_, fun hnone => absurd hnone (Option.some_ne_none a), h⟩
        cases hb
        exact ⟨Entries.argument?_isShown read, hw⟩
  obtain ⟨name, y', named, h⟩ := ok_of_bind h
  have hns := (y.apart_stored n "from" (.num v)).live hny
  obtain ⟨-, apart'⟩ := Discipline.Apart.reads hi (healthy.stored hny _ _)
    (fun hb hp => Discipline.safe_argumentText? hb hp _) named
  have last : z = y'.stored n "as" (.str (name.getD "value")) := by
    cases h
    rfl
  refine ⟨first, name, y, y', v, read, given, missing, named, ?_⟩
  rw [last, Engine.entry_stored (apart'.live hns).1, apart'.entry_eq hns.1, Engine.entry_stored hny.1,
    apart.entry_eq hn.1]

end Commands.Loop

/-- The arguments that were resolved are those of the entry. -/
theorem Entries.resolveArguments_eq {args : List Argument} (hi : calls.Isolated) (hx : x.Healthy)
    (hn : x.Live n) (h : resolveArguments calls n x = (.ok args, y)) :
    y.Healthy ∧ x.Apart [n] y ∧ (y.entry n).arguments = args ∧ ∀ a ∈ args, a.IsShown := by
  have safe : (Discipline.apart n True).Safe x (resolveArguments calls n) :=
    Discipline.safe_resolveArguments (Discipline.Apart.bookkeeping n True).toNoting
      (Discipline.Apart.procedureSafe hi (.inr trivial)) ⟨rfl, hn⟩
  have run := safe.run x ⟨hx, fun _ => trivial⟩ (.refl _ x)
  rw [h] at run
  have apart : x.Apart [n] y := run.1.2
  rw [resolveArguments, Action.entry_bind] at h
  obtain ⟨args', x₁, collected, h⟩ := ok_of_bind h
  obtain ⟨_, x₂, noted, h⟩ := ok_of_bind h
  cases noted
  cases h
  have there : n < x₁.entries.size := by
    have size := (apart.live hn).1
    rwa [Engine.size_changeEntry] at size
  refine ⟨run.1.1.1, apart, ?_, Action.collect_all resolveArgument_isShown collected⟩
  exact congrArg Entry.arguments (x₁.entry_changeEntry_self there _)

/-- A loop that was given the arguments has read a first index and a name for the index on engines that are
`x` apart from itself, and in `z` they are stored on it with its quantity. -/
structure Engine.Stores (calls : Calls) (n : EntryRef) (args : List Argument) (first : Option Argument)
    (name : Option String) (x z : Engine) : Prop where
  start : ∃ u u', x.Apart [n] u ∧ Entries.argument? calls n "from" u = (.ok first, u')
  called : ∃ w w', x.Apart [n] w ∧ Entries.argumentText? calls n "as" w = (.ok name, w')
  arguments : (z.entry n).arguments = args
  index : z.indexName n = name.getD "value"
  asked : z.Asked n first

/-- A first index that is written as it is is the one that is read. -/
theorem Engine.Stores.first_eq {args : List Argument} {first : Option Argument} {name : Option String}
    (h : x.Stores calls n args first name z) (hn : n < x.entries.size) {c : CompiledArgument} {a : Argument}
    (hc : (x.entry n).code.argument? "from" = some c) (ha : c.literal? = some a) : first = some a := by
  obtain ⟨u, u', reads, read⟩ := h.start
  have hu : (u.entry n).code.argument? "from" = some c := by rwa [reads.code hn]
  rw [Entries.argument?_of_some hu, Entries.resolveArgument_of_literal ha] at read
  cases read
  rfl

namespace Commands.Loop

/-- A loop that accepts its arguments has read the first index and the name of the index, and has stored
what it was asked for. -/
theorem parse_stores {args : List Argument} (hi : calls.Isolated) (hx : x.Healthy) (hn : x.Live n)
    (hr : Entries.resolveArguments calls n x = (.ok args, y)) (hp : parse calls n y = (.ok (), z)) :
    ∃ first name, x.Stores calls n args first name z := by
  obtain ⟨healthy, resolved, arguments, shown⟩ := Entries.resolveArguments_eq hi hx hn hr
  have hny := resolved.live hn
  rw [parse_eq] at hp
  obtain ⟨given, y₀, asked, h⟩ := ok_of_bind hp
  cases asked
  obtain ⟨_, y₁, taken, h⟩ := ok_of_bind h
  obtain ⟨control, y₂, controls, h⟩ := ok_of_bind h
  have kept : keepRange calls n y₂ = (.ok (), z) := by
    dsimp only at h
    split at h
    · exact h
    · obtain ⟨known, y₃, found, h⟩ := ok_of_bind h
      cases found
      dsimp only at h
      split at h
      · obtain ⟨_, y₄, refused, -⟩ := ok_of_bind h
        cases refused
      · exact h
  obtain ⟨healthy₁, apart₁, same₁⟩ := each_take healthy hny taken
  have hn₁ := apart₁.live hny
  obtain ⟨healthy₂, apart₂⟩ := Discipline.Apart.reads hi healthy₁
    (fun hb hp => Discipline.safe_someHolds fun word _ => Discipline.safe_flag hb hp word) controls
  have hn₂ := apart₂.live hn₁
  have toRange : x.Apart [n] y₂ := (resolved.trans apart₁).trans apart₂.of_reads
  obtain ⟨first, name, u', w', v, read, from', missing, named, entry⟩ :=
    keepRange_eq hi healthy₂ hn₂ kept
  obtain ⟨-, apart₃⟩ := Discipline.Apart.reads hi healthy₂
    (fun hb hp => Discipline.safe_argument? hb hp _) read
  have object (key : String) (o : Value) (ho : ((((y₁.entry n).objects.put (Text.lower "from") (.num v)).put
      (Text.lower "as") (.str (name.getD "value"))).get? (Text.lower key)) = some o) (hne : o ≠ .absent) :
      (z.entry n).object? key = some o := by
    rw [entry, apart₂.entry_eq hn₁.1]
    unfold Entry.object?
    rw [ho]
    split
    · rename_i habsent
      exact absurd (Option.some.inj habsent) hne
    · rfl
  have lower₁ : Text.lower "quantity" ≠ Text.lower "as" := by decide +kernel
  have lower₂ : Text.lower "quantity" ≠ Text.lower "from" := by decide +kernel
  have lower₃ : Text.lower "from" ≠ Text.lower "as" := by decide +kernel
  have kept_arguments : (z.entry n).arguments = args := by
    rw [entry, apart₂.entry_eq hn₁.1]
    exact same₁.trans arguments
  refine ⟨first, name, ⟨y₂, u', toRange, read⟩, ⟨_, w', ?_, named⟩, kept_arguments, ?_,
    fun {a} ha => ?_, v, from', missing, ?_⟩
  · exact (toRange.trans apart₃.of_reads).trans (u'.apart_stored n _ _)
  · unfold Engine.indexName Engine.elementOf?
    rw [object "as" (.str (name.getD "value")) (Keyed.get?_put_self _ _ _) (by simp)]
    rfl
  · have single : args = [a] := kept_arguments.symm.trans ha
    rw [arguments, single] at taken
    obtain ⟨_, y₃, first', rest⟩ := ok_of_bind taken
    cases rest
    obtain ⟨w, whole, rfl⟩ := take_eq first'
    refine ⟨shown a (by rw [single]; exact List.mem_singleton_self a), w, whole, object _ _ ?_ (by simp)⟩
    rw [Keyed.get?_put_of_ne _ _ lower₁, Keyed.get?_put_of_ne _ _ lower₂, Engine.entry_stored hny.1]
    exact Keyed.get?_put_self _ _ _
  · refine object _ _ ?_ (by simp)
    rw [Keyed.get?_put_of_ne _ _ lower₃]
    exact Keyed.get?_put_self _ _ _

/-- A loop that has accepted its arguments is at its start, if nothing has come of it before. -/
theorem atStart {args : List Argument} {first : Option Argument} {q : QueueRef} (hi : calls.Isolated)
    (hx : x.Healthy) (hn : x.Live n) (hr : Entries.resolveArguments calls n x = (.ok args, y))
    (hp : parse calls n y = (.ok (), z)) (asked : z.Asked n first) (queue : q < z.queues.size)
    (memory : (z.queue q).memory < z.memories.size) (isLoop : z.isLoop n = true)
    (idle : (z.entry n).loop = none) (childless : ∀ k < z.entries.size, (z.entry k).owner ≠ some n) :
    z.AtStart q n first := by
  obtain ⟨healthy, apart, -, -⟩ := Entries.resolveArguments_eq hi hx hn hr
  have there := apart.live hn
  have safe : (Discipline.apart n True).Safe y (parse calls n) :=
    Discipline.safe_loopParse (Discipline.Apart.bookkeeping n True).toNoting
      (Discipline.Apart.procedureSafe hi (.inr trivial)) ⟨rfl, there⟩
  have run := safe.run y ⟨healthy, fun _ => trivial⟩ (.refl _ y)
  rw [hp] at run
  obtain ⟨⟨⟨healthy', -⟩, parsed⟩, -⟩ := run
  exact {
    queue
    memory
    entry := (parsed.live there).1
    isLoop
    catalogue := healthy'.catalogue.loops
    repeatable := healthy'.tidy.based.repeatable (parsed.live there)
    idle
    childless := fun hk => childless _ hk
    asked }

end Commands.Loop

end QueueScript
