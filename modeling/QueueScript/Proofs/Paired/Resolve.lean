import QueueScript.Proofs.Paired.Basic

/-!
# Resolving arguments side by side

Tags read queues, definitions and the objects of entries, and run procedures.  They look neither at the
marks of entries nor at the tempo of queues.  So arguments have the same values on two engines that look
alike, if procedures do.
-/

namespace QueueScript.Paired

variable {R : Pairing} {calls : Calls}

/-- Procedures are run alike. -/
def Calling (R : Pairing) (calls : Calls) : Prop :=
  ∀ name args, Steady R (calls.procedure name args)

/-! ## Tags -/

/-- The parameter of any of the segments is resolved alike. -/
def SegmentsTwin (R : Pairing) (segments : List Tags.ReadySegment) : Prop :=
  ∀ s ∈ segments, ∀ resolve, s.param = some resolve → Steady R resolve

/-- The segments after the first ones are resolved alike if all are. -/
@[grind ←]
theorem SegmentsTwin.drop {segments : List Tags.ReadySegment} (h : SegmentsTwin R segments) (i : Nat) :
    SegmentsTwin R (segments.drop i) :=
  fun s hs => h s (List.mem_of_mem_drop hs)

section Tags

variable {segments : List Tags.ReadySegment} (hR : Blind R) (hs : SegmentsTwin R segments)

include hs

/-- The parameter of a segment is the same. -/
@[grind ←]
theorem steady_param : Steady R (Tags.param segments) := by
  unfold Tags.param
  split
  · exact hs _ List.mem_cons_self _ rfl
  · exact steady_pure _

include hR

/-- The parameter of a segment has the same text. -/
@[grind ←]
theorem steady_paramText : Steady R (Tags.paramText segments) :=
  twin_bind (steady_param hs) fun v => steady_textOf hR v

omit hR in
/-- A parameter that must be there is there on both engines or on none. -/
@[grind ←]
theorem steady_requireParam : Steady R (Tags.requireParam segments) := by
  unfold Tags.requireParam
  grind

omit hs in
/-- A value is a number on both engines or on none. -/
@[grind ←]
theorem steady_requireNumber (v : Value) (what : String) : Steady R (Tags.requireNumber v what) := by
  unfold Tags.requireNumber
  grind

/-- The same number is calculated. -/
@[grind ←]
theorem steady_calculate (f : Float → Float → Float) (v : Value) :
    Steady R (Tags.calculate f v segments) := by
  unfold Tags.calculate
  grind

omit hR hs in
/-- The same item of a list is found. -/
@[grind ←]
theorem steady_itemAt (v : Value) (position : String) : Steady R (Tags.itemAt v position) := by
  unfold Tags.itemAt
  grind

/-- An attribute of a value has the same value. -/
@[grind ←]
theorem steady_attributeValue (a : Attribute) (v : Value) :
    Steady R (Tags.attributeValue a v segments) := by
  unfold Tags.attributeValue
  cases a <;> grind

/-- The same is made of a value by one segment. -/
@[grind ←]
theorem steady_applySegment (v : Value) : Steady R (Tags.applySegment v segments) := by
  have found : Steady R (Action.look (·.attributes.get? (Tags.name segments))) :=
    steady_see hR fun _ _ => rfl
  unfold Tags.applySegment
  grind

/-- The same is made of a value by all segments. -/
theorem steady_applySegments (v : Value) : Steady R (Tags.applySegments v segments) := by
  induction segments generalizing v with
  | nil => exact steady_pure v
  | cons s rest ih =>
    refine twin_bind (steady_applySegment hR hs v) fun w => ?_
    exact ih (fun t ht => hs t (List.mem_cons_of_mem _ ht)) w

omit hs in
/-- A property of a queue is none of its tempo, so that it has the same value. -/
@[grind ←]
theorem steady_queueProperty (q : QueueRef) (property : String) :
    Steady R (Tags.queueProperty q property) := by
  have definitions : Steady R (Action.look (·.definitions q)) := steady_seeMemory hR Memory.definitions q
  refine alike_queue hR fun x t => ?_
  dsimp only [Queue.paced]
  grind

/-- A value and segments whose parameters are resolved alike. -/
def SameRest (R : Pairing) (r r' : Value × List Tags.ReadySegment) : Prop :=
  r = r' ∧ SegmentsTwin R r.2

omit hR hs in
/-- A value goes with the segments that are left. -/
@[grind ←]
theorem sameRest {v : Value} {rest : List Tags.ReadySegment} (h : SegmentsTwin R rest) :
    SameRest R (v, rest) (v, rest) :=
  ⟨rfl, h⟩

/-- A base of a host gives the same value, and leaves segments that are resolved alike. -/
@[grind ←]
theorem alike_hostBase (source : String) (base : HostBase) :
    Alike R (SameRest R) (Tags.hostBase source base segments) (Tags.hostBase source base segments) := by
  unfold Tags.hostBase
  cases base <;> grind

/-- What is left of the segments after a base are some of the segments. -/
theorem alike_baseValue (hc : Calling R calls) (context : Tags.Context) (source : String)
    (base : TagBase) : Alike R (SameRest R) (Tags.baseValue calls context source base segments)
      (Tags.baseValue calls context source base segments) := by
  have rest := (hs.drop 1).drop 1
  unfold Tags.baseValue
  cases base with
  | escape | element | list => grind
  | host base => exact alike_hostBase hR hs source base
  | definition =>
    have found (name : String) : Steady R
        (Action.look fun e => context.queue.bind (e.definition? · name)) := by
      cases context.queue with
      | none => exact steady_look fun _ _ _ => rfl
      | some q => exact steady_definition? hR q name
    refine twin_bind (steady_paramText hR hs) fun name => twin_bind (found name) ?_
    grind
  | entry =>
    have held (saved : String) : Steady R (Action.look fun e => context.queue.bind (e.held? · saved)) := by
      cases context.queue with
      | none => exact steady_look fun _ _ _ => rfl
      | some q => exact steady_seeMemory hR (fun x => x.held.get? (Text.lower saved)) q
    refine twin_bind (steady_paramText hR hs) fun saved => twin_bind (held saved) fun found => ?_
    split
    · exact alike_breakOff _
    · dsimp only
      split
      · exact alike_breakOff _
      · refine alike_entry hR fun x w => ?_
        have object : (x.waiting w).object? (Tags.name (segments.drop 1)) =
            x.object? (Tags.name (segments.drop 1)) := rfl
        rw [object]
        grind
  | queue =>
    dsimp only
    split
    · exact alike_breakOff _
    · split
      · refine alike_queue hR fun x t => ?_
        dsimp only [Queue.paced]
        grind
      · grind
  | proc =>
    have called (name : String) (args : List Value) := hc name args
    refine twin_bind (steady_requireParam hs) fun p => twin_bind (steady_textOf hR p) fun name => ?_
    grind

omit hs in
/-- The place of a tag is seen alike, of an entry or of a queue. -/
theorem seen_context (context : Tags.Context) {e e' : Engine} (h : R e e') :
    Seen R (context.scope e) (context.scope e') := by
  unfold Tags.Context.scope
  cases context.entry with
  | some n => exact hR.scope n h
  | none =>
    have id (q : QueueRef) := (hR.resembles h).seeQueue (f := Queue.id) (fun _ _ => rfl) q
    simp only [id]
    exact seen_refl hR _

/-- A tag has the same value, or fails alike and stands for itself. -/
theorem steady_tagValue (hc : Calling R calls) (context : Tags.Context) (source : String) :
    Steady R (Tags.tagValue calls context source segments) := by
  refine twin_orElse ?_ fun f => ?_
  · refine twin_bind (steady_see hR fun _ _ => rfl) fun base => ?_
    split
    · exact alike_breakOff _
    · refine alike_bind (alike_baseValue hR hs hc context source _) ?_
      rintro r _ ⟨rfl, hr⟩
      exact steady_applySegments hR hr r.1
  · refine alike_bind (S := Seen R) ⟨fun h => ⟨seen_context hR context h, h⟩⟩ fun s s' hss => ?_
    exact twin_bind (twin_error _ hss none) fun _ => steady_pure _

end Tags

/-! ## Templates -/

mutual

/-- A template is resolved to the same value. -/
theorem steady_resolve (hR : Blind R) (hc : Calling R calls) (context : Tags.Context) (t : Template) :
    Steady R (Tags.resolve calls context t) := by
  match t with
  | .mk source parts =>
    unfold Tags.resolve
    split
    · rename_i h
      cases h
      exact steady_tagValue hR (segmentsTwin_ready hR hc context _) hc context _
    · rename_i h
      cases h
      split
      · exact twin_bind (steady_resolveParts hR hc context parts) fun _ => steady_pure _
      · exact steady_pure _

/-- The parts of a template are resolved to the same text. -/
theorem steady_resolveParts (hR : Blind R) (hc : Calling R calls) (context : Tags.Context)
    (parts : List Part) : Steady R (Tags.resolveParts calls context parts) := by
  match parts with
  | [] => unfold Tags.resolveParts; exact steady_pure _
  | .text s :: rest =>
    unfold Tags.resolveParts
    exact twin_bind (steady_resolveParts hR hc context rest) fun _ => steady_pure _
  | .tag source segments :: rest =>
    unfold Tags.resolveParts
    have ready := segmentsTwin_ready hR hc context segments
    refine twin_bind (steady_tagValue hR ready hc context source) fun v => ?_
    refine twin_bind (steady_textOf hR v) fun _ => ?_
    exact twin_bind (steady_resolveParts hR hc context rest) fun _ => steady_pure _

/-- Segments are made ready to be resolved alike. -/
theorem segmentsTwin_ready (hR : Blind R) (hc : Calling R calls) (context : Tags.Context)
    (segments : List Segment) : SegmentsTwin R (Tags.ready calls context segments) := by
  match segments with
  | [] => unfold Tags.ready; intro s hs; simp at hs
  | .bare name :: rest =>
    unfold Tags.ready
    intro s hs resolve hr
    rcases List.mem_cons.1 hs with rfl | hs
    · cases hr
    · exact segmentsTwin_ready hR hc context rest s hs resolve hr
  | .param name p :: rest =>
    unfold Tags.ready
    intro s hs resolve hr
    rcases List.mem_cons.1 hs with rfl | hs
    · cases hr
      exact steady_resolve hR hc context p
    · exact segmentsTwin_ready hR hc context rest s hs resolve hr

end

/-! ## Arguments -/

section Arguments

variable (hR : Blind R)

include hR

/-- An entry reads its tags in the same place. -/
theorem steady_context (m : EntryRef) : Steady R (Entries.context m) :=
  alike_entry hR fun _ _ => steady_pure _

/-- The same argument is made of a value. -/
theorem steady_argumentOf (key : Option String) (object : Value) :
    Steady R (Entries.argumentOf key object) :=
  twin_bind (steady_textOf hR object) fun _ => steady_pure _

variable (hc : Calling R calls)

include hc

/-- A text of an entry is resolved to the same value. -/
@[grind ←]
theorem steady_resolveText (m : EntryRef) (text : String) : Steady R (Entries.resolveText calls m text) :=
  twin_bind (steady_context hR m) fun context => steady_resolve hR hc context _

/-- The value of an argument is resolved alike, under its key or one found in it. -/
theorem steady_resolveValue (m : EntryRef) (a : CompiledArgument) (context : Tags.Context)
    (key : Option String) : Steady R (Entries.resolveValue calls m a context key) := by
  refine twin_bind (steady_resolve hR hc context _) fun object => alike_entry hR fun x w => ?_
  have given (key : Option String) : Steady R (Entries.argumentOf key object) := steady_argumentOf hR key object
  cases key with
  | some key => exact given _
  | none =>
    cases object with
    | str text =>
      dsimp only [Entry.waiting_handler]
      split
      · exact steady_pure _
      · exact given _
    | _ => exact given _

/-- An argument is resolved alike, whether or not it was compiled to a literal. -/
@[grind ←]
theorem steady_resolveArgument (m : EntryRef) (a : CompiledArgument) :
    Steady R (Entries.resolveArgument calls m a) := by
  have value := steady_resolveValue hR hc m a
  cases literal : a.literal? with
  | some argument =>
    rw [Entries.resolveArgument_of_literal literal]
    exact steady_pure _
  | none =>
    cases keyed : a.key with
    | none =>
      rw [Entries.resolveArgument_of_bare literal keyed]
      exact twin_bind (steady_context hR m) fun context => value context none
    | some t =>
      rw [Entries.resolveArgument_of_keyed literal keyed]
      refine twin_bind (steady_context hR m) fun context => twin_bind (steady_resolve hR hc context t) fun v => ?_
      exact twin_bind (twin_map (steady_textOf hR v)) fun key => value context key

/-- The argument with a key is the same. -/
@[grind ←]
theorem steady_argument? (m : EntryRef) (key : String) : Steady R (Entries.argument? calls m key) := by
  unfold Entries.argument?
  refine alike_entry hR fun x w => ?_
  rw [Entry.waiting_argument?]
  split
  · exact twin_map (steady_resolveArgument hR hc m _)
  · exact steady_pure _

/-- The argument with a key has the same text. -/
@[grind ←]
theorem steady_argumentText? (m : EntryRef) (key : String) :
    Steady R (Entries.argumentText? calls m key) :=
  twin_bind (steady_argument? hR hc m key) fun _ => steady_pure _

/-- A text that must be given is given on both engines or on none. -/
@[grind ←]
theorem steady_requiredText (m : EntryRef) (key : String) :
    Steady R (Entries.requiredText calls m key) := by
  refine twin_bind (steady_argumentText? hR hc m key) fun found => ?_
  cases found with
  | some text => exact steady_pure _
  | none => exact alike_refuse _

/-- A flag is set on both engines or on none. -/
@[grind ←]
theorem steady_flag (m : EntryRef) (word : String) : Steady R (Entries.flag calls m word) := by
  refine twin_bind (steady_argument? hR hc m word) fun found => ?_
  cases found with
  | some a => exact steady_ofExcept _ _
  | none => exact alike_entry hR fun x w => steady_pure (x.code.literals.contains (Text.lower word))

end Arguments

end QueueScript.Paired
