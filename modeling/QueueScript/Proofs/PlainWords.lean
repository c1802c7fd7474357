import QueueScript.Proofs.Isolation
import QueueScript.Proofs.Templates.Printing

/-!
# What a word without tags defines and determines

A command that sets a definition and one that adds a determination read their value from a word.  A word
without tags is not resolved, so one might expect the word itself as the value.  But a word that has a colon
after a letter, digit, underscore or point is taken apart when its command is compiled, and both commands
look only at what stands behind the colon.  Here is the value that they set, for every word (`withoutKey`).

Before its command, an entry only gets notes on itself (`Engine.Noted`), so the argument is in two parts:
what the notes say when the command is reached, and what the command does with them.
-/

namespace QueueScript

/-! ## Words without tags -/

/-- A text has a tag only where one opens. -/
theorem Template.hasTag_parse_of_not_mem {s : String} (h : '<' ∉ s.toList) :
    (Template.parse s).hasTag = false := by
  rw [Bool.eq_false_iff]
  intro tagged
  obtain ⟨rest, suffix, found⟩ := (Template.faithful_parse s).hasTag.1 tagged
  rw [Template.source_parse] at suffix
  cases rest with
  | nil => cases found
  | cons c rest =>
    have opens : opensTag (c :: rest) = true := by
      unfold tagAtStart at found
      split at found <;> simp_all
    have head : c = '<' := opensTag_head opens
    exact h (suffix.subset (head ▸ List.mem_cons_self))

/-- A word is its key, a colon and its value. -/
theorem eq_of_splitKey? {anySymbol : Bool} {w key value : String}
    (h : splitKey? anySymbol w = some (key, value)) : w = key ++ ":" ++ value := by
  unfold splitKey? at h
  dsimp only at h
  split at h
  · rename_i c rest hdrop
    have colon : c = ':' := by
      have := List.head?_dropWhile_not (· != ':') w.toList
      rw [hdrop] at this
      simpa using this
    split at h
    · cases h
      have parts := List.takeWhile_append_dropWhile (p := (· != ':')) (l := w.toList)
      rw [hdrop, colon] at parts
      apply String.toList_injective
      simpa using parts.symm
    · cases h
  · cases h

/-- What is left of a word when its key is taken off. -/
def withoutKey (w : String) : String :=
  ((splitKey? false w).map (·.2)).getD w

/-- A word that is not a key and a value is left as it is, and no other one is. -/
theorem withoutKey_eq_iff (w : String) : withoutKey w = w ↔ splitKey? false w = none := by
  unfold withoutKey
  cases h : splitKey? false w with
  | none => simp
  | some p =>
    have parts := congrArg String.length (eq_of_splitKey? h)
    simp only [Option.map_some, Option.getD_some, reduceCtorEq, iff_false]
    intro whole
    rw [whole] at parts
    simp at parts

/-- The value of a word is its text without the key. -/
theorem object_ofText (w : String) (dynamic : Bool) :
    (Argument.ofText w false dynamic).object = .str (withoutKey w) := by
  unfold Argument.ofText withoutKey
  split <;> rename_i h <;> rw [h] <;> rfl

/-- A word without tags is compiled into the argument that it spells. -/
theorem CompiledArgument.literal?_ofWord (anySymbol : Bool) {w : String} (h : '<' ∉ w.toList) :
    (ofWord anySymbol w).literal? = some (Argument.ofText w anySymbol false) := by
  unfold ofWord Argument.ofText literal? isDynamic
  split
  · rename_i key value split
    have parts := congrArg String.toList (eq_of_splitKey? split)
    simp only [String.toList_append, List.append_assoc] at parts
    have hkey : '<' ∉ key.toList := fun hmem => h (parts ▸ List.mem_append_left _ hmem)
    have hvalue : '<' ∉ value.toList := fun hmem => by simp [parts, hmem] at h
    simp [Template.hasTag_parse_of_not_mem hkey, Template.hasTag_parse_of_not_mem hvalue,
      Template.source_parse]
  · simp [Template.hasTag_parse_of_not_mem h, Template.source_parse]

/-! ## Commands of plain words -/

/-- A word that does not end in a brace is a word of its own outside blocks. -/
theorem Source.unbraced {w : String} (h : w.toList.getLast? ≠ some '\x7b') :
    hasGluedBrace w = false ∧ w ≠ "\x7b" := by
  constructor
  · unfold hasGluedBrace
    rw [← List.head?_reverse] at h
    split
    · rfl
    · rename_i heq
      rw [heq] at h
      exact absurd rfl h
    · rfl
  · rintro rfl
    exact h rfl

/-- Words with no brace at their end are all header and open no block. -/
theorem Source.fold_unbraced {words : List String} (h : ∀ w ∈ words, w.toList.getLast? ≠ some '\x7b')
    (number : Int) : fold (words.flatMap ungluedWord) number = ⟨words, [], false⟩ := by
  have whole : words.flatMap ungluedWord = words := by
    have single : ∀ w ∈ words, ungluedWord w = [w] := by
      intro w hw
      simp [ungluedWord, (unbraced (h w hw)).1]
    rw [List.flatMap_congr single, List.flatMap_singleton']
  have go (d : Draft) (hd : d.blocks = []) (ws : List String) (hws : ∀ w ∈ ws, w ≠ "\x7b") :
      foldFrom number [] d ws = ⟨d.words.reverse ++ ws, [], false⟩ := by
    induction ws generalizing d with
    | nil => simp [foldFrom, finishFold, hd]
    | cons w ws ih =>
      rw [foldFrom, if_neg (hws w List.mem_cons_self),
        ih (d.push w) _ fun w' hw' => hws w' (List.mem_cons_of_mem _ hw')]
      · simp [Draft.push, hd]
      · simp [Draft.push, hd]
  rw [whole]
  exact go .empty rfl words fun w hw => (unbraced (h w hw)).2

/-- Words without blocks of which none is resolved first are the arguments of their command. -/
theorem buildFlat_plain {catalogue : Catalogue} {command : String} {words : List String} {asked : Handler}
    (hfound : catalogue.find? (Keyword.ofCommand command).word = some asked)
    (hasked : asked.isStub = false ∧ asked.isBraced = false)
    (hcount : asked.refusesCount words.length false = false)
    (hwords : ∀ w ∈ words, w.toList.getLast? ≠ some '\x7b' ∧ asked.isMeta w = false)
    (script : Option ScriptRef) (number : Int) :
    let code := (buildFlat catalogue script command words number).1
    code.handler = asked ∧ code.metaArgs = [] ∧
      code.parsed = (words.map (.ofWord asked.anyKeySymbol)).filter asked.parsesArgument := by
  intro code
  have metas : words.filter asked.isMeta = [] :=
    List.filter_eq_nil_iff.2 fun w hw => by simp [(hwords w hw).2]
  have plain : words.filter (!asked.isMeta ·) = words :=
    List.filter_eq_self.2 fun w hw => by simp [(hwords w hw).2]
  have folded := Source.fold_unbraced (fun w hw => (hwords w hw).1) number
  have right : (!asked.isStub && asked.refusesCount words.length false) = false := by
    rw [hcount, Bool.and_false]
  simp [code, buildFlat, folded, assemble, hfound, metas, plain, Line.flattenBlocks, right, hasked.2]

/-! ## Up to the command -/

/-- The second engine has the entry `y` in the place `n`, and queues and what they share as the first
engine has them. -/
structure Engine.Noted (n : EntryRef) (y : Entry) (e x : Engine) : Prop where
  size : n < x.entries.size
  entry : x.entry n = y
  queues : x.queues = e.queues
  memories : x.memories = e.memories
  lists : x.lists = e.lists

namespace Engine.Noted

variable {n : EntryRef} {y : Entry} {e x : Engine}

/-- An engine on which nothing has been noted yet. -/
theorem refl (h : n < e.entries.size) : Noted n (e.entry n) e e :=
  ⟨h, rfl, rfl, rfl, rfl⟩

/-- A change of the entry is noted. -/
theorem changeEntry (h : Noted n y e x) (f : Entry → Entry) : Noted n (f y) e (x.changeEntry n f) where
  size := by simpa using h.size
  entry := by rw [x.entry_changeEntry_self h.size, h.entry]
  queues := h.queues
  memories := h.memories
  lists := h.lists

/-- A report notes nothing. -/
theorem emit (h : Noted n y e x) (event : Event) (s : Scope) : Noted n y e (x.emit event s) := by
  obtain ⟨events, shown⟩ := x.emit_eq event s
  rw [shown]
  exact ⟨h.size, h.entry, h.queues, h.memories, h.lists⟩

/-- The entry runs on the queue that it ran on. -/
theorem residingQueue (h : Noted n y e x) (hy : y.residing = (e.entry n).residing) :
    x.residingQueue n = e.residingQueue n := by
  unfold Engine.residingQueue
  rw [h.entry, hy, funext (follow_congr h.queues)]

/-- Notes leave queues as they are. -/
theorem queue (h : Noted n y e x) (q : QueueRef) : x.queue q = e.queue q :=
  queue_congr h.queues q

end Engine.Noted

namespace Executor

open Engine (Noted)

variable (calls : Calls) {n : EntryRef} {e x : Engine} {y : Entry} {args : List Argument}

/-- The announcement of a command is noted on its entry. -/
theorem noted_announced (hn : n < e.entries.size) :
    Noted n { e.entry n with context := e.residingQueue n } e (announced n e) :=
  ((Noted.refl hn).changeEntry ({ · with context := e.residingQueue n })).emit _ _

/-- Arguments without tags are resolved as they are. -/
theorem resolveArguments_literal (h : Noted n y e x) (hargs : y.code.parsed.map (·.literal?) = args.map some) :
    Entries.resolveArguments calls n x = (.ok args, x.changeEntry n ({ · with arguments := args })) := by
  have collect (as : List CompiledArgument) (args : List Argument) (h : as.map (·.literal?) = args.map some) :
      Action.collect (Entries.resolveArgument calls n) as x = (.ok args, x) := by
    induction as generalizing args with
    | nil =>
      cases args with
      | nil => rfl
      | cons b args => cases h
    | cons a as ih =>
      cases args with
      | nil => cases h
      | cons b args =>
        obtain ⟨ha, has⟩ := List.cons.inj h
        have first : Entries.resolveArgument calls n a x = (.ok b, x) := by
          rw [Entries.resolveArgument_of_literal ha]
          rfl
        exact (Action.bind_ok first).trans (Action.bind_ok (ih args has))
  have resolved : Action.collect (Entries.resolveArgument calls n) (x.entry n).code.parsed x = (.ok args, x) := by
    rw [h.entry]
    exact collect _ _ hargs
  exact Action.bind_ok resolved

/-- An entry whose arguments have no tags gets to its command, if that may run in a procedure and does not
refuse the arguments. -/
theorem execute_literal (hn : n < e.entries.size) (hproc : (e.entry n).code.handler.isProcedural = true)
    (hmeta : (e.entry n).code.metaArgs = [])
    (hargs : (e.entry n).code.parsed.map (·.literal?) = args.map some)
    (hparse : ∀ x, Noted n { e.entry n with context := e.residingQueue n, arguments := args } e x →
      ∃ x', Commands.parse calls n x = (.ok (), x') ∧ Noted n y e x') :
    ∃ code scope x, Noted n y e x ∧
      execute calls n e = ran (conclude n code scope none (Commands.execute calls n x)) := by
  have announced := noted_announced hn
  have passes : isRefused (Executor.announced n e) n = false := by
    unfold isRefused
    rw [announced.entry, hproc]
    rfl
  have resolved := resolveArguments_literal calls announced hargs
  obtain ⟨x, parsed, noted⟩ := hparse _ (announced.changeEntry ({ · with arguments := args }))
  have entered (scope : Scope) : enter calls n scope (Executor.announced n e) = (.ok (some none), x) := by
    show (prelude calls n none ((Executor.announced n e).entry n).code.metaArgs >>= fun p => _)
      (Executor.announced n e) = _
    rw [announced.entry, hmeta]
    show (Entries.resolveArguments calls n >>= fun _ => Commands.parse calls n >>= fun _ =>
      pure (some none)) (Executor.announced n e) = _
    rw [Action.bind_ok resolved, Action.bind_ok parsed]
    rfl
  refine ⟨announcedCode n e, announcedScope n e, x, noted, ?_⟩
  rw [execute_eq, executeWith_of_passes passes, entered]

/-- The end of a run of an entry that is not saved changes entries and diagnostics only. -/
theorem noted_conclude {α : Type} (n : EntryRef) (code : Compiled) (scope : Scope)
    (r : Except Failure α × Engine) :
    (conclude n code scope none r).2.queues = r.2.queues ∧
      (conclude n code scope none r).2.memories = r.2.memories ∧
      (conclude n code scope none r).2.lists = r.2.lists := by
  rcases r with ⟨f | a, x⟩
  · cases f with
    | exhausted => exact ⟨rfl, rfl, rfl⟩
    | _ => exact ⟨rfl, rfl, rfl⟩
  · have left : leave n none x =
        (if !(x.entry n).code.handler.isHoldable then Entries.finish n else pure () : Action Unit) x := rfl
    simp only [conclude, left]
    split <;> exact ⟨rfl, rfl, rfl⟩

end Executor

/-! ## The two commands -/

/-- An entry with an object stored under a key. -/
def Entry.storing (y : Entry) (key : String) (v : Value) : Entry :=
  { y with objects := y.objects.put (Text.lower key) v }

namespace Commands

open Engine (Noted)

variable {calls : Calls} {n : EntryRef} {q : QueueRef} {e x : Engine} {y : Entry}

/-- Storing an object is a note on the entry. -/
theorem noted_store (h : Noted n y e x) (key : String) (v : Value) :
    Noted n (y.storing key v) e (x.changeEntry n (·.storing key v)) :=
  h.changeEntry (·.storing key v)

/-- Whether something is stored is read off the entry. -/
theorem has_bind {β : Type} (n : EntryRef) (key : String) (f : Bool → Action β) (e : Engine) :
    (has n key >>= f) e = f ((e.entry n).hasObject key) e :=
  rfl

/-- The arguments that are left are read off the entry. -/
theorem arguments_bind {β : Type} (n : EntryRef) (f : List Argument → Action β) (e : Engine) :
    (arguments n >>= f) e = f (e.entry n).arguments e :=
  rfl

/-- A word that is in lower case already. -/
theorem lower_definition : Text.lower "definition" = "definition" := by decide +kernel
/-- A word that is in lower case already. -/
theorem lower_value : Text.lower "value" = "value" := by decide +kernel
/-- A word that is in lower case already. -/
theorem lower_outcome : Text.lower "outcome" = "outcome" := by decide +kernel
/-- A word that is in lower case already. -/
theorem lower_passively : Text.lower "passively" = "passively" := by decide +kernel

/-- The first word is the name and the second one holds the value. -/
theorem Define.parse_words {a b : Argument} (h : Noted n y e x) (hargs : y.arguments = [a, b])
    (hkey : a.key = none) (hobjects : y.objects = []) :
    ∃ x', Define.parse n x = (.ok (), x') ∧
      Noted n { y with objects := [("definition", .str a.raw), ("value", b.object)] } e x' := by
  let x₁ := x.changeEntry n (·.storing "definition" (.str a.raw))
  let x₂ := x₁.changeEntry n (·.storing "value" b.object)
  have named : Noted n (y.storing "definition" (.str a.raw)) e x₁ := noted_store h _ _
  have valued : Noted n ((y.storing "definition" (.str a.raw)).storing "value" b.object) e x₂ :=
    noted_store named _ _
  have first : take n a x = (.ok (), x₁) := by
    have fresh : y.hasObject "definition" = false := by
      simp [Entry.hasObject, hobjects, Keyed.has]
    rw [take, has_bind, h.entry, fresh, hkey]
    rfl
  have second : take n b x₁ = (.ok (), x₂) := by
    have known : (y.storing "definition" (.str a.raw)).hasObject "definition" = true := by
      simp [Entry.storing, Entry.hasObject, hobjects, lower_definition, Keyed.put, Keyed.has]
    have fresh : (y.storing "definition" (.str a.raw)).hasObject "value" = false := by
      simp [Entry.storing, Entry.hasObject, hobjects, lower_definition, lower_value, Keyed.put, Keyed.has]
    rw [take, has_bind, named.entry, known, if_neg (by decide), has_bind, named.entry, fresh]
    rfl
  have objects : (y.storing "definition" (.str a.raw)).storing "value" b.object =
      { y with objects := [("definition", .str a.raw), ("value", b.object)] } := by
    simp [Entry.storing, hobjects, lower_definition, lower_value, Keyed.put]
  rw [objects] at valued
  refine ⟨x₂, ?_, valued⟩
  have known : ({ y with objects := [("definition", .str a.raw), ("value", b.object)] } :
      Entry).hasObject "definition" = true := by
    simp [Entry.hasObject, lower_definition, Keyed.has]
  rw [parse, arguments_bind, h.entry, hargs]
  refine (Action.bind_ok ((Action.bind_ok first).trans (Action.bind_ok second))).trans ?_
  rw [has_bind, valued.entry, known]
  rfl

/-- A value that was parsed becomes the definition. -/
theorem Define.execute_words {name : String} {v : Value} (h : Noted n y e x)
    (hresiding : y.residing = (e.entry n).residing) (hq : e.residingQueue n = some q)
    (hobjects : y.objects = [("definition", .str name), ("value", v)]) (hv : v ≠ .absent) :
    ∃ x', Define.execute n x = (.ok (), x') ∧ x'.queues = e.queues ∧
      x'.memories = (e.changeMemory (e.queue q).memory fun m =>
        { m with definitions := m.definitions.put (Text.lower name) v }).memories := by
  have known : (y.object? "definition") = some (.str name) := by
    simp [Entry.object?, hobjects, lower_definition, Keyed.get?_cons]
  have given : (y.object? "value") = some v := by
    simp only [Entry.object?, hobjects, lower_value, Keyed.get?_cons]
    cases v <;> simp_all
  have residing : Entries.requireQueue n x = (.ok q, x) :=
    Entries.requireQueue_eq ((h.residingQueue hresiding).trans hq)
  have named : Entries.element? n "definition" x = (.ok (some name), x) := by
    have found : Entries.object? n "definition" x = (.ok (some (.str name)), x) := by
      rw [Entries.object?, Action.entry_bind, h.entry, known]
      rfl
    exact Action.bind_ok found
  have valued : Entries.object? n "value" x = (.ok (some v), x) := by
    rw [Entries.object?, Action.entry_bind, h.entry, given]
    rfl
  have reports : report n [("definition", name), ("value", (x.reveal v).describe)] x =
      (.ok (), x.emit (.report (x.entry n).code.handler.name
        [("definition", name), ("value", (x.reveal v).describe)] (x.scope n)) (x.scope n)) := rfl
  obtain ⟨events, shown⟩ := x.emit_eq (.report (x.entry n).code.handler.name
    [("definition", name), ("value", (x.reveal v).describe)] (x.scope n)) (x.scope n)
  rw [shown] at reports
  refine ⟨(Queues.define q name v { x with events }).2, ?_, h.queues, ?_⟩
  · refine (Action.bind_ok residing).trans ((Action.bind_ok named).trans ((Action.bind_ok valued).trans ?_))
    show (report n [("definition", name), ("value", (x.reveal v).describe)] >>= fun _ =>
      Queues.define q name v) x = _
    rw [Action.bind_ok reports]
    rfl
  · have memory : (Engine.queue { x with events } q).memory = (e.queue q).memory :=
      congrArg Queue.memory (h.queue q)
    simp only [Queues.define, Action.change, Engine.changeMemory, memory]
    rw [h.memories]

/-- A word that is not `passively` is the outcome. -/
theorem Determine.parse_words {a : Argument} {v : Value} (h : Noted n y e x) (hargs : y.arguments = [a])
    (hobject : a.object = v) (hword : (a.key.isNone && a.isWord ["passively"]) = false)
    (hobjects : y.objects = []) :
    ∃ x', Determine.parse n x = (.ok (), x') ∧
      Noted n { y with objects := [("outcome", v), ("passively", .bool false)] } e x' := by
  let x₁ := x.changeEntry n (·.storing "outcome" v)
  let x₂ := x₁.changeEntry n (·.storing "passively" (.bool false))
  have kept : Noted n (y.storing "outcome" v) e x₁ := noted_store h _ _
  have loud : Noted n ((y.storing "outcome" v).storing "passively" (.bool false)) e x₂ := noted_store kept _ _
  have first : take n a x = (.ok (), x₁) := by
    have fresh (key : String) : y.hasObject key = false := by
      simp [Entry.hasObject, hobjects, Keyed.has]
    rw [take, has_bind, h.entry, fresh, Bool.not_false, Bool.true_and, hword, if_neg Bool.false_ne_true,
      has_bind, h.entry, fresh, hobject]
    rfl
  have there : Entries.storeDefault n "outcome" (.str "none") x₁ = (.ok (), x₁) := by
    have known : (y.storing "outcome" v).hasObject "outcome" = true := by
      simp [Entry.storing, Entry.hasObject, hobjects, Keyed.put, Keyed.has]
    rw [Entries.storeDefault, Action.entry_bind, kept.entry, known]
    rfl
  have missing : Entries.storeDefault n "passively" (.bool false) x₁ = (.ok (), x₂) := by
    have fresh : (y.storing "outcome" v).hasObject "passively" = false := by
      simp [Entry.storing, Entry.hasObject, hobjects, lower_outcome, lower_passively, Keyed.put, Keyed.has]
    rw [Entries.storeDefault, Action.entry_bind, kept.entry, fresh]
    rfl
  have objects : (y.storing "outcome" v).storing "passively" (.bool false) =
      { y with objects := [("outcome", v), ("passively", .bool false)] } := by
    simp [Entry.storing, hobjects, lower_outcome, lower_passively, Keyed.put]
  rw [objects] at loud
  refine ⟨x₂, ?_, loud⟩
  have each : Action.each (take n) [a] x = (.ok (), x₁) := (Action.bind_ok first).trans rfl
  rw [parse, arguments_bind, h.entry, hargs]
  exact (Action.bind_ok each).trans ((Action.bind_ok there).trans missing)

end Commands

/-! ### The end of a queue -/

/-- The determinations of a queue are read off its list. -/
theorem Engine.determinations?_congr {e x : Engine} {q : QueueRef}
    (hq : (x.queue q).determinations = (e.queue q).determinations) (hl : x.lists = e.lists) :
    x.determinations? q = e.determinations? q := by
  unfold determinations?
  rw [hq, hl]

namespace Queues

variable {q : QueueRef} {e : Engine}

/-- Listeners are told without a change of queues and determinations. -/
theorem each_tell (q : QueueRef) (ls : List Listener) (e : Engine) :
    (Action.each (tell q) ls e).2.lists = e.lists ∧ (Action.each (tell q) ls e).2.queues = e.queues := by
  have one (l : Listener) (e : Engine) : (tell q l e).2.lists = e.lists ∧ (tell q l e).2.queues = e.queues := by
    cases l with
    | finish n => exact ⟨rfl, rfl⟩
    | notify label error => cases error <;> exact ⟨rfl, rfl⟩
  induction ls generalizing e with
  | nil => exact ⟨rfl, rfl⟩
  | cons l ls ih =>
    have first := one l e
    rcases told : tell q l e with ⟨f | u, x⟩ <;> rw [told] at first
    · have whole : Action.each (tell q) (l :: ls) e = (.error f, x) := Action.bind_error told
      rw [whole]
      exact first
    · have whole : Action.each (tell q) (l :: ls) e = Action.each (tell q) ls x := Action.bind_ok told
      rw [whole, (ih x).1, (ih x).2]
      exact first

/-- What was determined is not touched when a queue ends, whoever listens. -/
theorem stop_determined (q p : QueueRef) (e : Engine) :
    (stop q e).2.lists = e.lists ∧ ((stop q e).2.queue p).determinations = (e.queue p).determinations := by
  cases hend : (e.queue q).state.isEnd with
  | true =>
    have whole : stop q e = (.ok (), e) := by
      rw [stop, Action.queue_bind, hend]
      rfl
    rw [whole]
    exact ⟨rfl, rfl⟩
  | false =>
    let x := e.changeQueue q ({ · with state := .stopped, pending := [] })
    have whole : stop q e = complete q x := end_eq hend _
    obtain ⟨events, ends⟩ := complete_eq q x
    let w : Engine := { unregistered q x with events }
    have told := each_tell q ((unregistered q x).queue q).listeners
      (w.changeQueue q ({ · with listeners := [] }))
    have emptied : ((w.changeQueue q ({ · with listeners := [] })).queue p).determinations =
        (w.queue p).determinations :=
      w.queue_changeQueue_keep (f := ({ · with listeners := [] })) (fun _ => rfl) q p
    have stopped : (x.queue p).determinations = (e.queue p).determinations :=
      e.queue_changeQueue_keep (f := ({ · with state := .stopped, pending := [] })) (fun _ => rfl) q p
    have same : w.queue p = x.queue p := queue_unregistered q x p
    rw [whole, ends]
    refine ⟨told.1.trans (lists_unregistered q x), ?_⟩
    calc _ = ((w.changeQueue q ({ · with listeners := [] })).queue p).determinations :=
          congrArg Queue.determinations (Engine.queue_congr told.2 p)
      _ = (e.queue p).determinations := by rw [emptied, same, stopped]

/-- A determination comes after those that the queue has. -/
theorem determinations?_determine (hf : e.Furnished) (hq : q < e.queues.size) (v : Value) :
    (determine q v e).2.determinations? q = some ((e.determinations? q).getD [] ++ [v]) := by
  rcases determine_cases q v e with ⟨i, hi, done⟩ | ⟨hnone, done⟩ <;> rw [done]
  · have size := hf.list hi
    have kept : Engine.queue { e with lists := e.lists.modify i (· ++ [v]) } q = e.queue q := rfl
    simp [Engine.determinations?, kept, hi, Array.getD_eq_getD_getElem?, Array.getElem_modify, size]
  · let x : Engine := { e with lists := e.lists.push [v] }
    have joined := x.queue_changeQueue_self (q := q) hq ({ · with determinations := some e.lists.size })
    unfold Engine.determinations?
    rw [joined, hnone]
    show some ((e.lists.push [v]).getD e.lists.size []) = _
    simp [Array.getD_eq_getD_getElem?]

end Queues

/-! ## What is set -/

namespace Commands

open Engine (Noted)

variable {calls : Calls} {n : EntryRef} {q : QueueRef} {e x : Engine} {y : Entry}

/-- An outcome that was parsed joins the determinations, whoever objects to the end of the queue. -/
theorem Determine.execute_words {v : Value} (h : Noted n y e x) (hf : e.Furnished)
    (hresiding : y.residing = (e.entry n).residing) (hq : e.residingQueue n = some q)
    (hsize : q < e.queues.size) (hobjects : y.objects = [("outcome", v), ("passively", .bool false)])
    (hv : v ≠ .absent ∧ v ≠ .null) :
    (Determine.execute n x).2.determinations? q = some ((e.determinations? q).getD [] ++ [v]) := by
  have known : y.object? "outcome" = some v := by
    simp only [Entry.object?, hobjects, lower_outcome, Keyed.get?_cons]
    cases v <;> simp_all
  have loud : y.object? "passively" = some (.bool false) := by
    simp [Entry.object?, hobjects, lower_passively, Keyed.get?_cons]
  have residing : Entries.requireQueue n x = (.ok q, x) :=
    Entries.requireQueue_eq ((h.residingQueue hresiding).trans hq)
  have found : outcome n x = (.ok v, x) := by
    have object : Entries.object? n "outcome" x = (.ok (some v), x) := by
      rw [Entries.object?, Action.entry_bind, h.entry, known]
      rfl
    refine (Action.bind_ok object).trans ?_
    cases v <;> first | rfl | simp_all
  have loudly : Entries.isTrue n "passively" x = (.ok false, x) := by
    have object : Entries.object? n "passively" x = (.ok (some (.bool false)), x) := by
      rw [Entries.object?, Action.entry_bind, h.entry, loud]
      rfl
    exact Action.bind_ok object
  let event : Event := .report (x.entry n).code.handler.name
    [("outcome", (x.reveal v).describe), ("passively", truthText false)] (x.scope n)
  obtain ⟨events, shown⟩ := x.emit_eq event (x.scope n)
  have reports : report n [("outcome", (x.reveal v).describe), ("passively", truthText false)] x =
      (.ok (), { x with events }) := by
    rw [← shown]
    rfl
  have whole : execute n x = (Queues.clear q >>= fun _ => Queues.stop q)
      (Queues.determine q v { x with events }).2 := by
    refine (Action.bind_ok residing).trans ((Action.bind_ok found).trans ((Action.bind_ok loudly).trans ?_))
    have described : Action.describe v x = (.ok (x.reveal v).describe, x) := rfl
    exact (Action.bind_ok described).trans (Action.bind_ok reports)
  let z := (Queues.determine q v { x with events }).2
  have ended := Queues.stop_determined q q (z.changeQueue q ({ · with pending := [] }))
  have cleared : ((z.changeQueue q ({ · with pending := [] })).queue q).determinations =
      (z.queue q).determinations :=
    z.queue_changeQueue_keep (f := ({ · with pending := [] })) (fun _ => rfl) q q
  have furnished : Engine.Furnished { x with events } := hf.of_tables h.queues h.memories h.lists
  have size : q < ({ x with events } : Engine).queues.size := by
    show q < x.queues.size
    rw [h.queues]
    exact hsize
  have before : Engine.determinations? { x with events } q = e.determinations? q :=
    Engine.determinations?_congr (congrArg Queue.determinations (h.queue q)) h.lists
  rw [whole, ← before, ← Queues.determinations?_determine furnished size v]
  exact Engine.determinations?_congr (ended.2.trans cleared) ended.1

end Commands

/-- A word that is an argument of its command: it has no tag, does not end in a brace, and is neither a
condition nor a name to save under. -/
structure PlainWord (w : String) : Prop where
  untagged : '<' ∉ w.toList
  unbraced : w.toList.getLast? ≠ some '\x7b'
  argument : ∀ key rest, w = key ++ ":" ++ rest → Text.lower key ∉ metaKeys

namespace PlainWord

variable {w : String}

/-- A plain word is no instruction to the executor. -/
theorem isMeta (h : PlainWord w) {asked : Handler} (ha : asked.reservedKeys = []) : asked.isMeta w = false := by
  unfold Handler.isMeta
  split
  · rename_i key rest split
    have other := h.argument key rest (eq_of_splitKey? split)
    simpa [ha] using other
  · rfl

/-- A word without a colon is no key and value. -/
theorem of_name (h : ∀ c ∈ w.toList, c ≠ ':' ∧ c ≠ '<' ∧ c ≠ '\x7b') :
    PlainWord w ∧ Argument.ofText w false false = ⟨none, .str w, w, false⟩ := by
  have whole (key rest : String) : w ≠ key ++ ":" ++ rest := by
    rintro rfl
    exact (h ':' (by simp)).1 rfl
  refine ⟨⟨fun hmem => (h '<' hmem).2.1 rfl, fun hlast => ?_, fun key rest hw => absurd hw (whole key rest)⟩, ?_⟩
  · exact (h '\x7b' (List.mem_of_getLast? hlast)).2.2 rfl
  · unfold Argument.ofText
    split
    · rename_i key rest split
      exact absurd (eq_of_splitKey? split) (whole key rest)
    · rfl

end PlainWord

/-- A new entry of a command on a queue. -/
structure Engine.Fresh (e : Engine) (n : EntryRef) (q : QueueRef) (code : Compiled) : Prop where
  size : n < e.entries.size
  code : (e.entry n).code = code
  objects : (e.entry n).objects = []
  residing : e.residingQueue n = some q
  queue : q < e.queues.size

namespace Executor

open Engine (Noted)

variable (calls : Calls) {n : EntryRef} {q : QueueRef} {e : Engine} {script : Option ScriptRef} {number : Int}
  {name v : String}

/-- A command that reads no argument by key gets to its plain words. -/
theorem execute_plain {asked : Handler} {command : String} (words : List String) (objects : Keyed Value)
    (hfound : e.catalogue.find? (Keyword.ofCommand command).word = some asked)
    (hasked : asked.isStub = false ∧ asked.isBraced = false) (hproc : asked.isProcedural = true)
    (hreads : asked.handledKeys = [] ∧ asked.handledWords = [] ∧ asked.reservedKeys = [])
    (hsymbols : asked.anyKeySymbol = false) (hcount : asked.refusesCount words.length false = false)
    (hwords : ∀ w ∈ words, PlainWord w)
    (fresh : e.Fresh n q (buildFlat e.catalogue script command words number).1)
    (hparse : ∀ x y', y'.code.handler = asked → y'.residing = (e.entry n).residing → y'.objects = [] →
      y'.arguments = words.map (Argument.ofText · false false) → Noted n y' e x →
      ∃ x', Commands.parse calls n x = (.ok (), x') ∧ Noted n { y' with objects } e x') :
    ∃ code scope x y', y'.code.handler = asked ∧ y'.residing = (e.entry n).residing ∧
      y'.objects = objects ∧ Noted n y' e x ∧
      execute calls n e = ran (conclude n code scope none (Commands.execute calls n x)) := by
  obtain ⟨handler, metas, parsed⟩ := buildFlat_plain hfound hasked hcount
    (fun w hw => ⟨(hwords w hw).unbraced, (hwords w hw).isMeta hreads.2.2⟩) script number
  rw [← fresh.code] at handler metas parsed
  have all (a : CompiledArgument) : asked.parsesArgument a = true := by
    unfold Handler.parsesArgument
    rw [hreads.1, hreads.2.1]
    split
    · rfl
    · split <;> rfl
  have literals : (e.entry n).code.parsed.map (·.literal?) =
      (words.map (Argument.ofText · false false)).map some := by
    rw [parsed, List.filter_eq_self.2 fun a _ => all a, hsymbols, List.map_map, List.map_map]
    exact List.map_congr_left fun w hw => CompiledArgument.literal?_ofWord false (hwords w hw).untagged
  let y₁ : Entry := { e.entry n with
    context := e.residingQueue n, arguments := words.map (Argument.ofText · false false) }
  obtain ⟨code, scope, x, noted, ran⟩ := execute_literal calls (y := { y₁ with objects })
    fresh.size (by rw [handler, hproc]) metas literals
    fun x hx => hparse x y₁ handler rfl fresh.objects rfl hx
  exact ⟨code, scope, x, { y₁ with objects }, handler, rfl, rfl, noted, ran⟩

/-- A definition is set to what is left of the word when its key is taken off. -/
theorem execute_define (hf : e.Furnished) (hname : ∀ c ∈ name.toList, c ≠ ':' ∧ c ≠ '<' ∧ c ≠ '\x7b')
    (hv : PlainWord v) (hfound : e.catalogue.find? "define" = some Builtin.define.handler)
    (fresh : e.Fresh n q (buildFlat e.catalogue script "define" [name, v] number).1) :
    (execute calls n e).1 = .ok true ∧
      (execute calls n e).2.definitions q = (e.definitions q).put (Text.lower name) (.str (withoutKey v)) := by
  obtain ⟨plainName, spelled⟩ := PlainWord.of_name hname
  have word : (Keyword.ofCommand "define").word = "define" := by decide +kernel
  obtain ⟨code, scope, x, y, handler, residing, objects, noted, ran⟩ := execute_plain calls
    [name, v] [("definition", .str name), ("value", .str (withoutKey v))]
    (word.symm ▸ hfound) ⟨rfl, rfl⟩ rfl ⟨rfl, rfl, rfl⟩ rfl rfl
    (by
      intro w hw
      rcases List.mem_pair.1 hw with rfl | rfl
      · exact plainName
      · exact hv) fresh (by
    intro x y handler _ objects arguments noted
    have parse : Commands.parse calls n x = Commands.Define.parse n x := by
      rw [Commands.parse, Action.entry_bind, noted.entry, handler]
      rfl
    have arguments : y.arguments = [Argument.ofText name false false, Argument.ofText v false false] :=
      arguments
    rw [spelled] at arguments
    obtain ⟨x', parsed, stored⟩ := Commands.Define.parse_words noted arguments rfl objects
    rw [object_ofText] at stored
    exact ⟨x', parse.trans parsed, stored⟩)
  have execute : Commands.execute calls n x = Commands.Define.execute n x := by
    rw [Commands.execute, Action.entry_bind, noted.entry, handler]
    rfl
  obtain ⟨x', defined, queues, memories⟩ :=
    Commands.Define.execute_words noted residing fresh.residing objects (by simp)
  rw [ran, execute, defined]
  have kept := noted_conclude n code scope ((.ok (), x') : Except Failure Unit × Engine)
  refine ⟨rfl, ?_⟩
  show Engine.definitions (conclude n code scope none ((.ok (), x') : Except Failure Unit × Engine)).2 q = _
  have memory : (Engine.queue (conclude n code scope none ((.ok (), x') : Except Failure Unit × Engine)).2 q).memory =
      (e.queue q).memory := congrArg Queue.memory (Engine.queue_congr (kept.1.trans queues) q)
  unfold Engine.definitions Engine.memory
  rw [memory, kept.2.1, memories]
  exact congrArg Memory.definitions (e.memory_changeMemory_self (hf.memory fresh.queue) _)

/-- A word that is not `passively`, in any case, is not read as that. -/
theorem loud_ofText (hloud : Text.lower v ≠ "passively") :
    ((Argument.ofText v false false).key.isNone && (Argument.ofText v false false).isWord ["passively"]) =
      false := by
  unfold Argument.ofText
  split
  · rfl
  · have other : (Text.lower "passively" == Text.lower v) = false := by
      rw [Commands.lower_passively]
      simpa using Ne.symm hloud
    simp [Argument.of, Argument.isWord, Text.sameFolded, Value.text, other]

/-- The determination is what is left of the word when its key is taken off. -/
theorem execute_determine (hf : e.Furnished) (hv : PlainWord v) (hloud : Text.lower v ≠ "passively")
    (hfound : e.catalogue.find? "determine" = some Builtin.determine.handler)
    (fresh : e.Fresh n q (buildFlat e.catalogue script "determine" [v] number).1) :
    (execute calls n e).2.determinations? q =
      some ((e.determinations? q).getD [] ++ [.str (withoutKey v)]) := by
  have word : (Keyword.ofCommand "determine").word = "determine" := by decide +kernel
  obtain ⟨code, scope, x, y, handler, residing, objects, noted, ran⟩ := execute_plain calls
    [v] [("outcome", .str (withoutKey v)), ("passively", .bool false)]
    (word.symm ▸ hfound) ⟨rfl, rfl⟩ rfl ⟨rfl, rfl, rfl⟩ rfl rfl
    (by simpa using hv) fresh (by
    intro x y handler _ objects arguments noted
    have parse : Commands.parse calls n x = Commands.Determine.parse n x := by
      rw [Commands.parse, Action.entry_bind, noted.entry, handler]
      rfl
    obtain ⟨x', parsed, stored⟩ :=
      Commands.Determine.parse_words noted arguments (object_ofText v false) (loud_ofText hloud) objects
    exact ⟨x', parse.trans parsed, stored⟩)
  have execute : Commands.execute calls n x = Commands.Determine.execute n x := by
    rw [Commands.execute, Action.entry_bind, noted.entry, handler]
    rfl
  rw [ran, execute]
  have kept := noted_conclude n code scope (Commands.Determine.execute n x)
  have determined := Commands.Determine.execute_words noted hf residing fresh.residing fresh.queue objects
    (by simp)
  rw [← determined]
  exact Engine.determinations?_congr (congrArg Queue.determinations (Engine.queue_congr kept.1 q)) kept.2.2

end Executor

/-- What a word without tags sets.  A definition and a determination have the word as their value, except
that a key with its colon is taken off, whatever listeners of the queue object to; so exactly the words that
are no key and value are kept as they are. -/
theorem plain_word_values (calls : Calls) {e : Engine} {q : QueueRef} {v : String} (hf : e.Furnished)
    (hv : PlainWord v) (script : Option ScriptRef) (number : Int) :
    (∀ n name, (∀ c ∈ name.toList, c ≠ ':' ∧ c ≠ '<' ∧ c ≠ '\x7b') →
      e.catalogue.find? "define" = some Builtin.define.handler →
      e.Fresh n q (buildFlat e.catalogue script "define" [name, v] number).1 →
      (Executor.execute calls n e).1 = .ok true ∧
        (Executor.execute calls n e).2.definitions q =
          (e.definitions q).put (Text.lower name) (.str (withoutKey v))) ∧
    (∀ n, Text.lower v ≠ "passively" →
      e.catalogue.find? "determine" = some Builtin.determine.handler →
      e.Fresh n q (buildFlat e.catalogue script "determine" [v] number).1 →
      (Executor.execute calls n e).2.determinations? q =
        some ((e.determinations? q).getD [] ++ [.str (withoutKey v)])) ∧
    (withoutKey v = v ↔ splitKey? false v = none) ∧
    ∀ key rest, splitKey? false v = some (key, rest) → v = key ++ ":" ++ rest ∧ withoutKey v = rest := by
  refine ⟨?_, ?_, withoutKey_eq_iff v, ?_⟩
  · intro n name hname hfound fresh
    exact Executor.execute_define calls hf hname hv hfound fresh
  · intro n hloud hfound fresh
    exact Executor.execute_determine calls hf hv hloud hfound fresh
  · intro key rest split
    exact ⟨eq_of_splitKey? split, by rw [withoutKey, split]; rfl⟩

/-- The engine with another entry of a command on a queue. -/
def Engine.withPlaced (e : Engine) (q : QueueRef) (code : Compiled) : Engine :=
  (e.withEntry { code }).changeEntry e.entries.size ({ · with residing := some q })

/-- An entry that was just placed on a queue is fresh. -/
theorem Engine.fresh_withPlaced (e : Engine) {q : QueueRef} (hq : q < e.queues.size)
    (hr : (e.queue q).replacedBy = none) (code : Compiled) :
    (e.withPlaced q code).Fresh e.entries.size q code := by
  have size : e.entries.size < (e.withEntry { code }).entries.size := by
    rw [size_withEntry]
    exact Nat.lt_succ_self _
  have placed : (e.withPlaced q code).entry e.entries.size = { code, residing := some q } := by
    rw [withPlaced, entry_changeEntry_self _ size, entry_withEntry, if_pos rfl]
  refine ⟨?_, by rw [placed], by rw [placed], ?_, hq⟩
  · rwa [withPlaced, size_changeEntry]
  · have same : (e.withPlaced q code).follow q = e.follow q :=
      follow_congr (show (e.withPlaced q code).queues = e.queues from rfl) q
    rw [residingQueue, placed]
    exact congrArg some (same.trans (e.follow_self hr))

/-- A new engine with one queue, which is running. -/
def Host.withRunning : Engine :=
  ((create {} []).withQueue { id := "main", name := "main", pace := .instant, memory := 0 }).changeQueue 0
    ({ · with state := .running })

/-- The example host is furnished. -/
theorem Host.furnished_withRunning : withRunning.Furnished := by
  have new : (create {} []).Furnished := (Reachable.furnished .first).2
  have made := new.withQueue (x := { id := "main", name := "main", pace := .instant, memory := 0 })
    ⟨rfl, rfl, rfl, rfl, rfl, rfl, rfl⟩ rfl
  exact made.changeQueue 0 (fun _ => rfl) (fun _ => rfl)

/-- A path without a key is defined and determined as it is. -/
theorem plain_word_values_path :
    let e := Host.withRunning
    let x := e.withPlaced 0 (buildFlat e.catalogue none "define" ["Home", "/a b"] 1).1
    let y := e.withPlaced 0 (buildFlat e.catalogue none "determine" ["/a b"] 1).1
    (e.queue 0).state = .running ∧
      (Executor.execute (Drive.calls 0) 0 x).1 = .ok true ∧
      (Executor.execute (Drive.calls 0) 0 x).2.definitions 0 = [("home", .str "/a b")] ∧
      (Executor.execute (Drive.calls 0) 0 y).2.determinations? 0 = some [.str "/a b"] := by
  intro e x y
  have fresh (code : Compiled) : (e.withPlaced 0 code).Fresh 0 0 code :=
    e.fresh_withPlaced (by decide +kernel) (by decide +kernel) code
  have plain : PlainWord "/a b" := by
    refine ⟨by decide, by decide, fun key rest h => ?_⟩
    have colon : ':' ∈ "/a b".toList := by simp [h]
    exact absurd colon (by decide)
  have whole : withoutKey "/a b" = "/a b" := by decide
  have home : Text.lower "Home" = "home" := by decide +kernel
  have defined := (plain_word_values (Drive.calls 0) (e := x)
    (Host.furnished_withRunning.of_tables rfl rfl rfl) plain none 1).1 0 "Home" (by simp) rfl (fresh _)
  have determined := (plain_word_values (Drive.calls 0) (e := y)
    (Host.furnished_withRunning.of_tables rfl rfl rfl) plain none 1).2.1 0 (by decide +kernel) rfl (fresh _)
  rw [whole, home] at defined
  rw [whole] at determined
  exact ⟨by decide +kernel, defined.1, defined.2, determined⟩

/-- In a word with one colon, what stands before that decides whether it is an argument of its command. -/
theorem PlainWord.of_colon {w : String} (htag : '<' ∉ w.toList) (hbrace : w.toList.getLast? ≠ some '\x7b')
    (hone : w.toList.count ':' = 1)
    (hkey : Text.lower (String.ofList (w.toList.takeWhile (· != ':'))) ∉ metaKeys) : PlainWord w := by
  refine ⟨htag, hbrace, ?_⟩
  rintro key rest rfl
  have colons : ':' ∉ key.toList := by
    simp only [String.toList_append, List.count_append] at hone
    have one : ":".toList.count ':' = 1 := by decide
    rw [← List.count_eq_zero]
    omega
  have whole : (key ++ ":" ++ rest).toList.takeWhile (· != ':') = key.toList := by
    have plain : ∀ c ∈ key.toList, (c != ':') = true := by
      intro c hc
      have : c ≠ ':' := fun h => colons (h ▸ hc)
      simpa using this
    simp [List.takeWhile_append_of_pos plain]
  rwa [whole, String.ofList_toList] at hkey

/-- The scheme of an address is lost, and the hour of a time. -/
theorem plain_word_values_short :
    let e := Host.withRunning
    let x := e.withPlaced 0 (buildFlat e.catalogue none "define" ["address", "https://example.com/x"] 1).1
    let y := e.withPlaced 0 (buildFlat e.catalogue none "determine" ["10:30"] 1).1
    (Executor.execute (Drive.calls 0) 0 x).2.definitions 0 = [("address", .str "//example.com/x")] ∧
      (Executor.execute (Drive.calls 0) 0 y).2.determinations? 0 = some [.str "30"] := by
  intro e x y
  have fresh (code : Compiled) : (e.withPlaced 0 code).Fresh 0 0 code :=
    e.fresh_withPlaced (by decide +kernel) (by decide +kernel) code
  have lower : Text.lower "address" = "address" := by decide +kernel
  have url : PlainWord "https://example.com/x" :=
    .of_colon (by decide) (by decide) (by decide) (by decide +kernel)
  have time : PlainWord "10:30" := .of_colon (by decide) (by decide) (by decide) (by decide +kernel)
  have path : withoutKey "https://example.com/x" = "//example.com/x" := by decide
  have minutes : withoutKey "10:30" = "30" := by decide
  have defined := (Executor.execute_define (Drive.calls 0) (e := x)
    (Host.furnished_withRunning.of_tables rfl rfl rfl) (by simp) url rfl (fresh _)).2
  have determined := Executor.execute_determine (Drive.calls 0) (e := y)
    (Host.furnished_withRunning.of_tables rfl rfl rfl) time (by decide +kernel) rfl (fresh _)
  rw [path, lower] at defined
  rw [minutes] at determined
  exact ⟨defined, determined⟩

end QueueScript
