import QueueScript.Proofs.Paired.Resolve
import QueueScript.Proofs.Spawning

/-!
# Parsing side by side

Parsing and the steps that come first write what was resolved on the entry they are for, and nothing
else (`Paired.Noting`).  So do the outcomes of work, and conditions write nothing at all.  All of this is done
alike on two engines that look alike, whatever entry it is done for.
-/

namespace QueueScript.Paired

open Commands

variable {α : Type} {R : Pairing} {calls : Calls} {m : EntryRef}

/-! ## Notes on an entry -/

/-- What was resolved and parsed may be written on the entry `m`, and that it is done. -/
structure Noting (R : Pairing) (m : EntryRef) : Prop extends Blind R where
  jot {e e' : Engine} {f : Entry → Entry} : Entry.Jots f → (∀ x w, f (x.waiting w) = (f x).waiting w) →
    R e e' → R (e.changeEntry m f) (e'.changeEntry m f)
  finish {e e' : Engine} : R e e' → R (e.changeEntry m ({ · with isFinished := true }))
    (e'.changeEntry m ({ · with isFinished := true }))

section Looks

variable (hR : Blind R) (m : EntryRef)

include hR

/-- What was parsed under a key is the same. -/
@[grind ←]
theorem steady_object? (key : String) : Steady R (Entries.object? m key) :=
  alike_entry hR fun x _ => steady_pure (x.object? key)

/-- What was parsed under a key has the same text. -/
@[grind ←]
theorem steady_element? (key : String) : Steady R (Entries.element? m key) := by
  unfold Entries.element?
  grind

/-- What was parsed under a key is true on both engines or on none. -/
@[grind ←]
theorem steady_isTrue (key : String) : Steady R (Entries.isTrue m key) := by
  unfold Entries.isTrue
  grind

/-- What was parsed under a key counts the same. -/
@[grind ←]
theorem steady_count (key : String) : Steady R (Entries.count m key) := by
  unfold Entries.count
  grind

/-- An entry has the same arguments. -/
@[grind ←]
theorem steady_arguments : Steady R (arguments m) :=
  alike_entry hR fun x _ => steady_pure x.arguments

/-- Something was parsed under a key on both engines or on none. -/
@[grind ←]
theorem steady_has (key : String) : Steady R (has m key) :=
  alike_entry hR fun x _ => steady_pure (x.hasObject key)

/-- An entry has the same blocks. -/
@[grind ←]
theorem steady_branches : Steady R (branches m) :=
  alike_entry hR fun x _ => steady_pure x.blocks

/-- The entry is on the same queue, or on none. -/
@[grind ←]
theorem steady_requireQueue : Steady R (Entries.requireQueue m) := by
  refine twin_bind (steady_residingQueue hR m) fun found => ?_
  cases found with
  | some q => exact steady_pure q
  | none => exact alike_entry hR fun x _ => alike_breakOff (.needsQueue x.code.handler.name)

omit hR in
/-- An argument is refused on both engines. -/
@[grind ←]
theorem steady_refuseArgument (a : Argument) : Steady R (refuseArgument a) :=
  alike_refuse _

/-- A command without arguments refuses the same ones. -/
@[grind ←]
theorem steady_takeNone : Steady R (takeNone m) :=
  twin_bind (steady_arguments hR m) fun _ => twin_each fun a => steady_refuseArgument a

/-- The same parsed values are reported. -/
@[grind ←]
theorem steady_report (values : List (String × String)) : Steady R (report m values) :=
  alike_entry hR fun _ _ => alike_scope hR fun _ _ hs => twin_report _ _ hs

end Looks

section Notes

variable (hR : Noting R m)

include hR

/-- The same note is made on the entry. -/
theorem steady_jot {f : Entry → Entry} (hf : Entry.Jots f) (hw : ∀ x w, f (x.waiting w) = (f x).waiting w) :
    Steady R (Action.changeEntry m f) :=
  twin_change fun _ _ h => hR.jot hf hw h

/-- The same is kept on the entry under a key. -/
@[grind ←]
theorem steady_store (key : String) (v : Value) : Steady R (Entries.store m key v) :=
  steady_jot hR (fun _ => ⟨_, _, _, rfl⟩) fun _ _ => rfl

/-- A default is kept on both engines or on none. -/
@[grind ←]
theorem steady_storeDefault (key : String) (v : Value) : Steady R (Entries.storeDefault m key v) := by
  refine alike_entry hR.toBlind fun x w => ?_
  show Steady R (if x.hasObject key then pure () else Entries.store m key v)
  split
  · exact steady_pure ()
  · exact steady_store hR key v

/-- The entry is told the same place to read its tags in. -/
@[grind ←]
theorem steady_refresh : Steady R (Entries.refresh m) :=
  twin_bind (steady_residingQueue hR.toBlind m) fun _ =>
    steady_jot hR (fun _ => ⟨_, _, _, rfl⟩) fun _ _ => rfl

/-! ## Parsing -/

/-- The command that writes a message is parsed alike. -/
theorem steady_debugParse : Steady R (Debug.parse m) := by
  have hB := hR.toBlind
  unfold Debug.parse
  grind

/-- A definition is parsed alike. -/
theorem steady_defineParse : Steady R (Define.parse m) := by
  have hB := hR.toBlind
  have take (a : Argument) : Steady R (Define.take m a) := by
    unfold Define.take
    grind
  unfold Define.parse
  grind

/-- A determination is parsed alike. -/
theorem steady_determineParse : Steady R (Determine.parse m) := by
  have hB := hR.toBlind
  have take (a : Argument) : Steady R (Determine.take m a) := by
    unfold Determine.take
    grind
  unfold Determine.parse
  grind

/-- A condition is parsed alike, since it only needs a block. -/
theorem steady_conditionParse : Steady R (Condition.parse m) := by
  refine alike_entry hR.toBlind fun x w => ?_
  show Steady R (if !x.code.hasBlocks then Action.refuse .noBlock else pure ())
  split
  · exact alike_refuse _
  · exact steady_pure ()

/-- A wait is parsed alike. -/
theorem steady_waitParse : Steady R (Wait.parse m) := by
  have hB := hR.toBlind
  have take (a : Argument) : Steady R (Wait.take m a) := by
    unfold Wait.take
    grind
  unfold Wait.parse
  grind

/-- A command of the host is parsed alike. -/
theorem steady_hostParse (command : HostCommand) : Steady R (Commands.Host.parse command m) := by
  have hB := hR.toBlind
  unfold Commands.Host.parse Commands.Host.record
  grind

variable (hc : Calling R calls)

include hc

/-- A loop is parsed alike, into a control of a loop around it or into a range. -/
theorem steady_loopParse : Steady R (Loop.parse calls m) := by
  have hB := hR.toBlind
  have take (a : Argument) : Steady R (Loop.take m a) := by
    unfold Loop.take
    grind
  have control : Steady R (Loop.isControl calls m) :=
    twin_someHolds fun word => steady_flag hB hc m word
  have range : Steady R (Loop.keepRange calls m) := by
    refine twin_bind (steady_argument? hB hc m _) fun found => ?_
    have rest (start : Float) : Steady R (do
        Entries.store m "from" (.num start)
        let name ← Entries.argumentText? calls m "as"
        Entries.store m "as" (.str (name.getD "value"))) := by
      grind
    cases found with
    | some a => exact twin_bind (steady_ofExcept _ _) rest
    | none => exact twin_bind (steady_pure _) rest
  rw [Loop.parse_eq]
  refine twin_bind (steady_arguments hB m) fun args => twin_bind (twin_each take) fun _ => ?_
  refine twin_bind control fun isControl => ?_
  grind

/-- The command that runs a script is parsed alike. -/
theorem steady_runParse : Steady R (Run.parse calls m) := by
  have hB := hR.toBlind
  have take (a : Argument) : Steady R (Run.take m a) := by
    unfold Run.take
    grind
  refine twin_bind (steady_arguments hB m) fun args => twin_bind (twin_each take) fun _ => ?_
  grind

/-- A web request is parsed alike. -/
theorem steady_webParse : Steady R (Web.parse calls m) := by
  have hB := hR.toBlind
  have take (a : Argument) : Steady R (Web.take m a) := by
    unfold Web.take
    grind
  have method : Steady R (Web.method calls m) := by
    unfold Web.method
    grind
  have options : Steady R (Web.keepOptions calls m) := by
    unfold Web.keepOptions
    refine twin_bind method fun _ => twin_bind (steady_store hR _ _) fun _ => ?_
    grind
  rw [Web.parse_eq]
  refine twin_bind (steady_arguments hB m) fun args => twin_bind (twin_each take) fun _ => ?_
  refine twin_bind (steady_element? hB m _) fun url => ?_
  grind

/-- The command that reads a file is parsed alike. -/
theorem steady_readParse : Steady R (Files.Read.parse calls m) := by
  have hB := hR.toBlind
  unfold Files.Read.parse
  grind

/-- The command that writes a file is parsed alike. -/
theorem steady_writeParse : Steady R (Files.Write.parse calls m) := by
  have hB := hR.toBlind
  unfold Files.Write.parse
  grind

/-- The command that copies a file is parsed alike. -/
theorem steady_copyParse : Steady R (Files.Copy.parse calls m) := by
  have hB := hR.toBlind
  unfold Files.Copy.parse
  grind

/-- Every command is parsed alike. -/
@[grind ←]
theorem steady_parse : Steady R (Commands.parse calls m) := by
  refine alike_entry hR.toBlind fun x w => ?_
  dsimp only
  rw [Entry.waiting_handler]
  cases x.code.handler.behaviour with
  | stub => exact alike_refuse (stubFault x.code)
  | debug => exact steady_debugParse hR
  | define => exact steady_defineParse hR
  | determine => exact steady_determineParse hR
  | stop => exact steady_takeNone hR.toBlind m
  | condition => exact steady_conditionParse hR
  | loop => exact steady_loopParse hR hc
  | wait => exact steady_waitParse hR
  | run => exact steady_runParse hR hc
  | fileRead => exact steady_readParse hR hc
  | fileWrite => exact steady_writeParse hR hc
  | fileCopy => exact steady_copyParse hR hc
  | webRequest => exact steady_webParse hR hc
  | host command => exact steady_hostParse hR command

/-! ## What comes before a command -/

/-- The arguments that come first say the same. -/
@[grind ←]
theorem steady_prelude (saveAs : Option String) (args : List CompiledArgument) :
    Steady R (Executor.prelude calls m saveAs args) := by
  induction args generalizing saveAs with
  | nil => exact steady_pure _
  | cons a rest ih =>
    refine twin_bind (steady_resolveArgument hR.toBlind hc m a) fun argument => ?_
    split
    · split
      · exact ih saveAs
      · exact steady_pure _
    · exact ih _
    · exact twin_bind (steady_store hR _ _) fun _ => ih saveAs

/-- All arguments of an entry are resolved alike, and kept. -/
@[grind ←]
theorem steady_resolveArguments : Steady R (Entries.resolveArguments calls m) := by
  have hB := hR.toBlind
  refine alike_entry hB fun x w => ?_
  refine twin_bind (twin_collect fun a => steady_resolveArgument hB hc m a) fun args => ?_
  exact twin_bind (steady_jot hR (fun _ => ⟨_, _, _, rfl⟩) fun _ _ => rfl) fun _ => steady_pure _

end Notes

/-! ## Work on files -/

section Files

variable (hR : Blind R)

include hR

/-- What the settings allow is allowed on both engines. -/
@[grind ←]
theorem steady_requireAllowed {allowed : Config → Bool} (h : ∀ c d, allowed { c with debug := d } = allowed c)
    (action setting : String) : Steady R (Files.requireAllowed allowed action setting) := by
  refine twin_bind (steady_seeConfig hR h) fun b => ?_
  split
  · exact alike_breakOff _
  · exact steady_pure ()

/-- A script names the same path. -/
@[grind ←]
theorem steady_requirePath (target : String) : Steady R (Files.requirePath target) := by
  refine twin_bind (steady_seeConfig hR (f := (·.scriptPath? target)) fun _ _ => rfl) fun found => ?_
  cases found with
  | some path => exact steady_pure path
  | none => exact alike_breakOff _

/-- A text that was parsed under a key is the same. -/
@[grind ←]
theorem steady_parsedText (m : EntryRef) (key : String) : Steady R (Files.parsedText m key) :=
  twin_bind (steady_element? hR m key) fun _ => steady_pure _

end Files

/-- The outcome of work is applied to its entry. -/
@[grind ←]
theorem steady_apply (hR : Noting R m) (outcome : Outcome) : Steady R (Background.apply m outcome) := by
  have stored := steady_store hR
  have reported (message : String) (f : Option Failure) :
      Steady R (Entries.scope m >>= fun s => Action.error message s f) :=
    alike_scope hR.toBlind fun _ _ hs => twin_error message hs f
  refine alike_entry hR.toBlind fun x w => ?_
  rw [Entry.waiting_handler]
  dsimp only
  cases outcome with
  | content bytes => exact stored _ _
  | value v => exact stored _ _
  | unusable message => exact alike_fail _
  | done =>
    cases x.code.handler.behaviour with
    | fileCopy => exact stored _ _
    | _ => exact steady_pure ()
  | failure f =>
    cases x.code.handler.behaviour with
    | fileCopy => exact twin_bind (stored _ _) fun _ => reported _ _
    | _ => exact reported _ _
  | response r url isSilent =>
    refine twin_bind (twin_each fun kv => stored _ _) fun _ => ?_
    split
    · exact reported _ _
    · exact steady_pure ()

/-! ## Conditions -/

section Conditions

variable (hR : Blind R) (hc : Calling R calls)

include hR hc

/-- A condition holds on both engines or on none. -/
theorem steady_holds (m : EntryRef) (words : List String) : Steady R (Condition.holds calls m words) := by
  have clause (c : Condition.Clause) : Steady R (c.holds calls m) := by
    unfold Condition.Clause.holds
    grind
  unfold Condition.holds Condition.partHolds
  grind

/-- The same block is chosen, one of those that there are. -/
theorem alike_choose (m : EntryRef) (index : Nat) (branches : List (Branch EntryRef)) :
    Alike R (fun r r' => r = r' ∧ ∀ found, r = some found → found.2 ∈ branches)
      (Condition.choose calls m index branches) (Condition.choose calls m index branches) := by
  have holds := steady_holds hR hc m
  induction branches generalizing index with
  | nil => exact alike_pure ⟨rfl, fun _ h => by cases h⟩
  | cons branch rest ih =>
    have chosen : Steady R (Condition.isChosen calls m index branch) := by
      unfold Condition.isChosen
      grind
    refine twin_bind chosen fun found => ?_
    cases found with
    | true => exact alike_pure ⟨rfl, fun _ h => by cases h; exact List.mem_cons_self⟩
    | false =>
      refine ⟨fun h => ((ih (index + 1)).run h).imp fun r r' hr => ?_⟩
      exact ⟨hr.1, fun found h => List.mem_cons_of_mem _ (hr.2 found h)⟩

/-- The same block is chosen. -/
@[grind ←]
theorem steady_choose (m : EntryRef) (index : Nat) (branches : List (Branch EntryRef)) :
    Steady R (Condition.choose calls m index branches) :=
  ⟨fun h => ((alike_choose hR hc m index branches).run h).imp fun _ _ => And.left⟩

end Conditions

end QueueScript.Paired
