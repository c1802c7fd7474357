import QueueScript.Proofs.Equations

/-!
# Resolving arguments keeps every discipline

Tags read the engine, report what is wrong with them and run procedures; they change nothing else.
Arguments are resolved by tags, and what was resolved is kept on the entry.  So a discipline that
allows reports, notes on the entry at hand and procedures allows every argument to be resolved.
-/

namespace QueueScript

/-- The change of an entry touches only what was resolved and parsed for it. -/
def Entry.Jots (f : Entry → Entry) : Prop :=
  ∀ x, ∃ context objects arguments, f x = { x with context, objects, arguments }

/-- A word that is no key of a command is looked for among its bare words. -/
theorem Entries.flag_of_unkeyed (calls : Calls) {n : EntryRef} {word : String} {e : Engine}
    (h : (e.entry n).code.argument? word = none) :
    Entries.flag calls n word e =
      (.ok ((e.entry n).code.literals.contains (Text.lower word)), e) := by
  exact (Action.bind_ok (Entries.argument?_of_none h)).trans rfl

namespace Discipline

/-- The entry is done with, or will be when its command returns: only commands that can be waited for
leave entries unfinished. -/
def Eased (D : Discipline) (e : Engine) (n : EntryRef) : Prop :=
  D.cared e n ∨ (e.entry n).code.handler.isHoldable = false

/-- What a command does up to the point where it does what it is for: it reports, keeps notes on its
entry and marks it as done. -/
structure Noting (D : Discipline) : Prop where
  emit {e : Engine} (event : Event) (s : Scope) : D.inv e → D.Step e (e.emit event s)
  jot {e : Engine} {n : EntryRef} {f : Entry → Entry} :
    D.inv e → D.own e n → Entry.Jots f → D.Step e (e.changeEntry n f)
  finish {e : Engine} {n : EntryRef} : D.inv e → D.own e n →
    D.Step e (e.changeEntry n ({ · with isFinished := true })) ∧
      D.marked (e.changeEntry n ({ · with isFinished := true })) n

/-- What every command does: besides its notes, it changes the definitions of the queue that it runs
on. -/
structure Bookkeeping (D : Discipline) : Prop extends Noting D where
  memory {e : Engine} {q : QueueRef} (f : Memory → Memory) :
    D.inv e → D.mine e q → D.Step e (e.changeMemory (e.queue q).memory f)
  residing {e : Engine} {n : EntryRef} {q : QueueRef} :
    D.inv e → D.own e n → e.residingQueue n = some q → D.mine e q
  eased_mono {e e' : Engine} {n : EntryRef} :
    D.le e e' → D.own e n → D.Eased e n → D.Eased e' n

instance (D : Discipline) : Coe D.Bookkeeping D.Noting :=
  ⟨Bookkeeping.toNoting⟩

/-- Procedures that commands and tags call keep the discipline. -/
def ProcedureSafe (D : Discipline) (calls : Calls) : Prop :=
  ∀ e₀ name args, D.Safe e₀ (calls.procedure name args)

variable {D : Discipline} {e₀ : Engine} {calls : Calls}

/-! ## Diagnostics -/

section Reports

variable (hb : D.Noting)

include hb

/-- A line is logged. -/
theorem safe_log (message : String) (s : Scope) : D.Safe e₀ (Action.log message s) :=
  safe_change fun _ he _ => hb.emit _ s he

/-- An error is reported. -/
theorem safe_error (message : String) (s : Scope) (f : Option Failure) :
    D.Safe e₀ (Action.error message s f) :=
  safe_change fun _ he _ => hb.emit _ s he

/-- A line is traced. -/
theorem safe_trace (message : String) (s : Scope) : D.Safe e₀ (Action.trace message s) :=
  safe_change fun _ he _ => hb.emit _ s he

/-- A command is announced. -/
theorem safe_announce (command : String) (s : Scope) : D.Safe e₀ (Action.announce command s) :=
  safe_change fun _ he _ => hb.emit _ s he

/-- The values of a command are reported. -/
theorem safe_report (name : String) (values : List (String × String)) (s : Scope) :
    D.Safe e₀ (Action.report name values s) :=
  safe_change fun _ he _ => hb.emit _ s he

/-- What was noted while entries were built is reported, note by note. -/
theorem step_emitAll {e : Engine} (notes : List BuildNote) (he : D.inv e) :
    D.Step e (notes.foldl (fun e n => e.emit n.event n.scope) e) := by
  induction notes generalizing e with
  | nil => exact Step.refl he
  | cons n rest ih =>
    have h := hb.emit n.event n.scope he
    exact h.trans (ih h.1)

/-- What was noted while entries were built is reported by an action. -/
theorem safe_noteAll (notes : List BuildNote) : D.Safe e₀ (Action.noteAll notes) :=
  safe_change fun _ he _ => step_emitAll hb notes he

end Reports

/-! ## Tags -/

/-- The parameters of all segments are safe to resolve. -/
def SegmentsSafe (D : Discipline) (e₀ : Engine) (segments : List Tags.ReadySegment) : Prop :=
  ∀ s ∈ segments, ∀ resolve, s.param = some resolve → D.Safe e₀ resolve

/-- What is left of a tag after some segments is as safe as the whole. -/
theorem SegmentsSafe.drop {segments : List Tags.ReadySegment} (h : D.SegmentsSafe e₀ segments)
    (k : Nat) : D.SegmentsSafe e₀ (segments.drop k) :=
  fun s hs => h s (List.mem_of_mem_drop hs)

/-- Segments that are safe from an engine on are safe from every later one on. -/
theorem SegmentsSafe.later {segments : List Tags.ReadySegment} {e₁ : Engine}
    (h : D.SegmentsSafe e₀ segments) (hl : D.le e₀ e₁) : D.SegmentsSafe e₁ segments :=
  fun s hs resolve hr => (h s hs resolve hr).later hl

/-- The text of a value is read. -/
theorem safe_textOf (v : Value) : D.Safe e₀ (Action.textOf v) :=
  safe_look _

/-- An element is looked up, or any other value passed on. -/
theorem safe_reveal (v : Value) : D.Safe e₀ (Action.reveal v) :=
  safe_look _

/-- A value is described. -/
theorem safe_describe (v : Value) : D.Safe e₀ (Action.describe v) :=
  safe_look _

/-- A queue is read. -/
theorem safe_queue (q : QueueRef) : D.Safe e₀ (Action.queue q) :=
  safe_look _

/-- An entry is read. -/
theorem safe_entry (n : EntryRef) : D.Safe e₀ (Action.entry n) :=
  safe_look _

section Tags

variable {segments : List Tags.ReadySegment} (hs : D.SegmentsSafe e₀ segments)

include hs

/-- The parameter of the first segment is resolved, when there is one. -/
theorem safe_param : D.Safe e₀ (Tags.param segments) := by
  unfold Tags.param
  split
  · exact hs _ (List.mem_cons_self) _ rfl
  · exact safe_pure _

/-- The parameter of the first segment is resolved to text. -/
theorem safe_paramText : D.Safe e₀ (Tags.paramText segments) :=
  safe_bind (safe_param hs) fun v => safe_textOf v

/-- The parameter of the first segment is resolved and must be there. -/
theorem safe_requireParam : D.Safe e₀ (Tags.requireParam segments) := by
  unfold Tags.requireParam
  split
  · exact safe_param hs
  · exact gives_breakOff _

/-- A calculation resolves its parameter and reads two numbers. -/
theorem safe_calculate (f : Float → Float → Float) (v : Value) :
    D.Safe e₀ (Tags.calculate f v segments) := by
  have number (v : Value) (what : String) : D.Safe e₀ (Tags.requireNumber v what) := by
    refine safe_bind (safe_reveal v) fun v => ?_
    split
    · exact safe_pure _
    · exact gives_breakOff _
  refine safe_bind (number v _) fun x => safe_bind (safe_requireParam hs) fun p => ?_
  exact safe_bind (number p _) fun y => safe_pure _

/-- An attribute of an element resolves at most its own parameter. -/
theorem safe_attributeValue (a : Attribute) (v : Value) :
    D.Safe e₀ (Tags.attributeValue a v segments) := by
  unfold Tags.attributeValue
  cases a with
  | size | upper | lower | utf8Encode | toJson => exact safe_pure _
  | add | sub | mul => exact safe_calculate hs _ v
  | equals =>
    refine safe_bind (safe_requireParam hs) fun p => ?_
    exact safe_bind (safe_textOf p) fun _ => safe_pure _
  | not =>
    dsimp only
    split
    · exact safe_pure _
    · exact gives_breakOff _
  | split =>
    dsimp only
    split
    · exact safe_bind (safe_paramText hs) fun _ => safe_pure _
    · exact safe_bind (safe_pure _) fun _ => safe_pure _
  | get =>
    refine safe_bind (safe_paramText hs) fun position => ?_
    unfold Tags.itemAt
    split
    · split
      · exact gives_breakOff _
      · dsimp only
        split
        · exact gives_breakOff _
        · exact safe_pure _
    · exact gives_breakOff _
  | utf8Decode =>
    dsimp only
    split
    · exact safe_pure _
    · exact gives_breakOff _
  | fromJson => exact safe_ofExcept _ nofun
  | host =>
    dsimp only
    split
    · exact safe_bind (safe_map (safe_paramText hs)) fun _ => safe_pure _
    · exact safe_bind (safe_pure _) fun _ => safe_pure _

/-- One segment is applied to a value, an attribute or a key of a map. -/
theorem safe_applySegment (v : Value) : D.Safe e₀ (Tags.applySegment v segments) := by
  refine safe_bind (safe_reveal v) fun v => safe_bind (safe_look _) fun a => ?_
  split
  · exact safe_attributeValue hs _ v
  · split
    · exact safe_pure _
    · exact gives_breakOff _

/-- The segments of a tag are applied one after another. -/
theorem safe_applySegments (v : Value) : D.Safe e₀ (Tags.applySegments v segments) := by
  induction segments generalizing v with
  | nil => exact safe_pure v
  | cons s rest ih =>
    refine safe_bind (safe_applySegment hs v) fun w => ?_
    exact ih (fun t ht => hs t (by simp [ht])) w

/-- What is left of the segments after a base are some of the segments, so they are still safe. -/
theorem gives_hostBase (source : String) (base : HostBase) :
    D.Gives e₀ (Tags.hostBase source base segments) fun r _ => D.SegmentsSafe e₀ r.2 := by
  unfold Tags.hostBase
  cases base with
  | give v passes => exact gives_pure fun _ _ _ => hs.drop passes
  | fail message => exact gives_fail nofun
  | failBare text => exact gives_fail nofun
  | look =>
    refine safe_bind (safe_param hs) fun first => safe_bind (safe_paramText hs) fun text => ?_
    exact safe_bind (safe_param (hs.drop 1)) fun second => gives_pure fun _ _ _ => hs.drop 1

/-- What a tag starts with is read, and what is left of its segments is safe. -/
theorem gives_baseValue (hp : D.ProcedureSafe calls) (context : Tags.Context) (source : String)
    (base : TagBase) :
    D.Gives e₀ (Tags.baseValue calls context source base segments)
      fun r _ => D.SegmentsSafe e₀ r.2 := by
  unfold Tags.baseValue
  cases base with
  | definition =>
    refine safe_bind (safe_paramText hs) fun name => safe_bind (safe_look _) fun found => ?_
    split
    · exact gives_pure fun _ _ _ => hs.drop 1
    · exact gives_breakOff _
  | entry =>
    refine safe_bind (safe_paramText hs) fun saved => safe_bind (safe_look _) fun found => ?_
    split
    · exact gives_breakOff _
    · dsimp only
      split
      · exact gives_breakOff _
      · refine safe_bind (safe_entry _) fun x => ?_
        split
        · exact gives_pure fun _ _ _ => (hs.drop 1).drop 1
        · exact gives_breakOff _
  | queue =>
    dsimp only
    split
    · exact gives_breakOff _
    · split
      · exact safe_bind (safe_queue _) fun _ => gives_pure fun _ _ _ => hs.drop 1
      · refine safe_bind ?_ fun _ => gives_pure fun _ _ _ => (hs.drop 1).drop 1
        refine safe_bind (safe_queue _) fun queue => ?_
        split
        · exact safe_pure _
        · exact safe_pure _
        · exact safe_pure _
        · exact safe_pure _
        · split <;> exact safe_pure _
        · exact safe_bind (safe_look _) fun _ => safe_pure _
        · exact gives_breakOff _
  | element => exact safe_bind (safe_param hs) fun _ => gives_pure fun _ _ _ => hs.drop 1
  | list =>
    refine safe_bind (safe_param hs) fun v => safe_bind (safe_reveal v) fun _ => ?_
    exact gives_pure fun _ _ _ => hs.drop 1
  | proc =>
    refine safe_bind (safe_requireParam hs) fun p => safe_bind (safe_textOf p) fun procedure => ?_
    dsimp only
    split
    · refine safe_bind (safe_param (hs.drop 1)) fun v => safe_bind (safe_reveal v) fun args => ?_
      exact safe_bind (hp e₀ _ _) fun _ => gives_pure fun _ _ _ => (hs.drop 1).drop 1
    · exact safe_bind (hp e₀ _ _) fun _ => gives_pure fun _ _ _ => hs.drop 1
  | escape text => exact gives_pure fun _ _ _ => hs.drop 1
  | host base => exact gives_hostBase hs source base

/-- The value of one tag. -/
theorem safe_tagValue (hb : D.Noting) (hp : D.ProcedureSafe calls) (context : Tags.Context)
    (source : String) : D.Safe e₀ (Tags.tagValue calls context source segments) := by
  refine gives_orElse ?_ fun f => ?_
  · refine safe_bind (safe_look _) fun base => ?_
    split
    · exact gives_breakOff _
    · refine gives_bind (gives_baseValue hs hp context source _) fun r e₁ _ hl hr => ?_
      exact safe_applySegments (hr.later hl) r.1
  · refine safe_bind (safe_look _) fun scope => ?_
    exact safe_bind (safe_error hb _ scope none) fun _ => safe_pure _

end Tags

/-! ## Templates -/

mutual

/-- A text and the tags in it. -/
theorem safe_resolve (hb : D.Noting) (hp : D.ProcedureSafe calls) (context : Tags.Context)
    (t : Template) : D.Safe e₀ (Tags.resolve calls context t) := by
  match t with
  | .mk source parts =>
    unfold Tags.resolve
    split
    · rename_i h
      cases h
      exact safe_tagValue (segmentsSafe_ready hb hp context _) hb hp context _
    · rename_i h
      cases h
      split
      · exact safe_bind (safe_resolveParts hb hp context parts) fun _ => safe_pure _
      · exact safe_pure _

/-- Literals and tags one after another. -/
theorem safe_resolveParts (hb : D.Noting) (hp : D.ProcedureSafe calls)
    (context : Tags.Context) (parts : List Part) :
    D.Safe e₀ (Tags.resolveParts calls context parts) := by
  match parts with
  | [] => unfold Tags.resolveParts; exact safe_pure _
  | .text s :: rest =>
    unfold Tags.resolveParts
    exact safe_bind (safe_resolveParts hb hp context rest) fun _ => safe_pure _
  | .tag source segments :: rest =>
    unfold Tags.resolveParts
    refine safe_bind (safe_tagValue (segmentsSafe_ready hb hp context segments) hb hp context source)
      fun v => ?_
    refine safe_bind (safe_textOf v) fun _ => ?_
    exact safe_bind (safe_resolveParts hb hp context rest) fun _ => safe_pure _

/-- The parameters that a tag holds are templates themselves, and safe to resolve. -/
theorem segmentsSafe_ready (hb : D.Noting) (hp : D.ProcedureSafe calls)
    (context : Tags.Context) (segments : List Segment) :
    D.SegmentsSafe e₀ (Tags.ready calls context segments) := by
  match segments with
  | [] => unfold Tags.ready; intro s hs; simp at hs
  | .bare name :: rest =>
    unfold Tags.ready
    intro s hs resolve hr
    rcases List.mem_cons.1 hs with rfl | hs
    · cases hr
    · exact segmentsSafe_ready hb hp context rest s hs resolve hr
  | .param name p :: rest =>
    unfold Tags.ready
    intro s hs resolve hr
    rcases List.mem_cons.1 hs with rfl | hs
    · cases hr
      exact safe_resolve hb hp context p
    · exact segmentsSafe_ready hb hp context rest s hs resolve hr

end

/-! ## What is kept on entries -/

section Notes

variable {n : EntryRef} (hb : D.Noting) (hn : D.own e₀ n)

include hb hn

/-- A note on an entry of its own. -/
theorem safe_jot {f : Entry → Entry} (hf : Entry.Jots f) : D.Safe e₀ (Action.changeEntry n f) :=
  safe_change fun _ he hl => hb.jot he (D.own_mono hl hn) hf

/-- A value is stored on an entry. -/
theorem safe_store (key : String) (v : Value) : D.Safe e₀ (Entries.store n key v) :=
  safe_jot hb hn fun x => ⟨x.context, _, x.arguments, rfl⟩

/-- A value is stored on an entry that has none under its key. -/
theorem safe_storeDefault (key : String) (v : Value) : D.Safe e₀ (Entries.storeDefault n key v) := by
  refine safe_bind (safe_entry n) fun x => ?_
  split
  · exact safe_pure _
  · exact safe_store hb hn key v

/-- An entry forgets what it stored. -/
theorem safe_refresh : D.Safe e₀ (Entries.refresh n) :=
  safe_bind (safe_look _) fun q => safe_jot hb hn fun x => ⟨q, x.objects, x.arguments, rfl⟩

/-- An entry is finished and carries the mark that it is. -/
theorem gives_mark : D.Gives e₀ (Entries.finish n) fun _ e => D.marked e n :=
  ⟨fun _ he hl => hb.finish he (D.own_mono hl hn)⟩

/-- An entry is finished and needs no further care. -/
theorem gives_finishEntry : D.Gives e₀ (Entries.finish n) fun _ e => D.cared e n :=
  (gives_mark hb hn).mono fun _ _ _ _ h => D.marked_cared h

end Notes

/-- The queue that an entry runs on is looked up. -/
theorem safe_requireQueue (n : EntryRef) : D.Safe e₀ (Entries.requireQueue n) := by
  refine safe_bind (safe_look _) fun found => ?_
  cases found with
  | none => exact safe_bind (safe_entry n) fun _ => gives_breakOff _
  | some q => exact safe_pure q

/-- The queue that an entry runs on is the caller's own. -/
theorem gives_requireQueue {n : EntryRef} (hb : D.Bookkeeping) (hn : D.own e₀ n) :
    D.Gives e₀ (Entries.requireQueue n) fun q e => D.mine e q := by
  refine gives_bind (gives_look (Q := fun r e => e.residingQueue n = r) fun _ _ _ => rfl) ?_
  intro r e₁ _ hl hr
  cases r with
  | none => exact safe_bind (safe_entry n) fun _ => gives_breakOff _
  | some q =>
    have hmine : D.mine e₁ q := hb.residing ‹_› (D.own_mono hl hn) hr
    exact gives_pure fun _ _ hl₁ => D.mine_mono hl₁ hmine

/-- A stored value is read. -/
theorem safe_object? (n : EntryRef) (key : String) : D.Safe e₀ (Entries.object? n key) :=
  safe_bind (safe_entry n) fun _ => safe_pure _

/-- A stored value is read as an element. -/
theorem safe_element? (n : EntryRef) (key : String) : D.Safe e₀ (Entries.element? n key) := by
  refine safe_bind (safe_object? n key) fun found => ?_
  cases found with
  | some v => exact safe_map (safe_textOf v)
  | none => exact safe_pure _

/-- A stored value is read as a truth value. -/
theorem safe_isTrue (n : EntryRef) (key : String) : D.Safe e₀ (Entries.isTrue n key) := by
  refine safe_bind (safe_object? n key) fun found => ?_
  split
  · exact safe_pure _
  · exact safe_pure _

/-- A stored value is read as a whole number. -/
theorem safe_count (n : EntryRef) (key : String) : D.Safe e₀ (Entries.count n key) := by
  refine safe_bind (safe_object? n key) fun found => ?_
  cases found with
  | some v => exact safe_bind (safe_reveal v) fun _ => safe_pure _
  | none => exact safe_pure _

/-- Where an entry reports is read. -/
theorem safe_scope (n : EntryRef) : D.Safe e₀ (Entries.scope n) :=
  safe_look _

/-- Where a queue reports is read. -/
theorem safe_queueScope (q : QueueRef) : D.Safe e₀ (Queues.scope q) :=
  safe_bind (safe_queue q) fun _ => safe_pure _

/-! ## Arguments -/

section Arguments

variable {n : EntryRef} (hb : D.Noting) (hp : D.ProcedureSafe calls)

include hb hp

/-- A text of an entry is resolved. -/
theorem safe_resolveText (text : String) : D.Safe e₀ (Entries.resolveText calls n text) := by
  refine safe_bind (safe_bind (safe_entry n) fun _ => safe_pure _) fun context => ?_
  exact safe_resolve hb hp context _

/-- An argument of an entry is resolved. -/
theorem safe_resolveArgument (a : CompiledArgument) :
    D.Safe e₀ (Entries.resolveArgument calls n a) := by
  have argumentOf (key : Option String) (v : Value) : D.Safe e₀ (Entries.argumentOf key v) :=
    safe_bind (safe_textOf v) fun _ => safe_pure _
  have rest (context : Tags.Context) (key : Option String) :
      D.Safe e₀ (Entries.resolveValue calls n a context key) := by
    refine safe_bind (safe_resolve hb hp context _) fun v => safe_bind (safe_entry n) fun x => ?_
    dsimp only
    split
    · split
      · exact safe_pure _
      · exact argumentOf _ _
    · exact argumentOf _ _
  have context : D.Safe e₀ (Entries.context n) := safe_bind (safe_entry n) fun _ => safe_pure _
  cases hl : a.literal? with
  | some argument =>
    rw [Entries.resolveArgument_of_literal hl]
    exact safe_pure _
  | none =>
    cases hk : a.key with
    | none =>
      rw [Entries.resolveArgument_of_bare hl hk]
      exact safe_bind context fun c => safe_bind (safe_pure none) fun key => rest c key
    | some t =>
      rw [Entries.resolveArgument_of_keyed hl hk]
      refine safe_bind context fun c => safe_bind (safe_resolve hb hp c _) fun v => ?_
      exact safe_bind (safe_map (safe_textOf v)) fun key => rest c key

/-- An argument is looked up by its word and resolved. -/
theorem safe_argument? (key : String) : D.Safe e₀ (Entries.argument? calls n key) := by
  refine safe_bind (safe_entry n) fun x => ?_
  split
  · exact safe_map (safe_resolveArgument hb hp _)
  · exact safe_pure _

/-- An argument is looked up by its word and resolved to text. -/
theorem safe_argumentText? (key : String) : D.Safe e₀ (Entries.argumentText? calls n key) :=
  safe_bind (safe_argument? hb hp key) fun _ => safe_pure _

/-- An argument that must be there is resolved to text. -/
theorem safe_requiredText (key : String) : D.Safe e₀ (Entries.requiredText calls n key) := by
  refine safe_bind (safe_argumentText? hb hp key) fun found => ?_
  cases found with
  | some text => exact safe_pure _
  | none => exact gives_refuse _

/-- A flag is looked for in both of its forms. -/
theorem safe_flag (word : String) : D.Safe e₀ (Entries.flag calls n word) := by
  refine safe_bind (safe_argument? hb hp word) fun found => ?_
  cases found with
  | some a => exact safe_ofExcept _ nofun
  | none => exact safe_bind (safe_entry n) fun _ => safe_pure _

/-- All arguments of an entry are resolved and stored. -/
theorem safe_resolveArguments (hn : D.own e₀ n) : D.Safe e₀ (Entries.resolveArguments calls n) := by
  refine safe_bind (safe_entry n) fun x => ?_
  refine safe_bind (safe_collect fun a _ => safe_resolveArgument hb hp a) fun args => ?_
  refine safe_bind (safe_jot hb hn fun x => ⟨x.context, x.objects, args, rfl⟩) fun _ => ?_
  exact safe_pure _

end Arguments

end Discipline

end QueueScript
