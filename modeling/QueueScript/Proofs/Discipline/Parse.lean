import QueueScript.Proofs.Discipline.Resolve

/-!
# Parsing keeps every discipline

The parse step of a command reads the arguments of its entry and stores objects on it.  It goes no
further than the notes on the entry at hand, whichever command it belongs to.
-/

namespace QueueScript.Discipline

open Commands

variable {D : Discipline} {e₀ : Engine} {calls : Calls} {n : EntryRef}

/-! ## Shared steps -/

/-- The arguments that are left are read. -/
theorem safe_arguments (n : EntryRef) : D.Safe e₀ (arguments n) :=
  safe_bind (safe_entry n) fun _ => safe_pure _

/-- Whether something is stored is read. -/
theorem safe_has (n : EntryRef) (key : String) : D.Safe e₀ (has n key) :=
  safe_bind (safe_entry n) fun _ => safe_pure _

/-- An argument that no command knows is refused. -/
theorem safe_refuseArgument (a : Argument) : D.Safe e₀ (refuseArgument a) :=
  gives_refuse _

/-- Every argument is taken by a step that is safe. -/
theorem safe_takeAll {take : Argument → Action Unit} (h : ∀ a, D.Safe e₀ (take a)) (n : EntryRef) :
    D.Safe e₀ (arguments n >>= fun args => Action.each take args) :=
  safe_bind (safe_arguments n) fun _ => safe_each fun a _ => h a

/-- A command that takes no arguments refuses the first one. -/
theorem safe_takeNone (n : EntryRef) : D.Safe e₀ (takeNone n) :=
  safe_takeAll (fun a => safe_refuseArgument a) n

/-- What was parsed is reported. -/
theorem safe_reportParsed (hb : D.Noting) (n : EntryRef) (values : List (String × String)) :
    D.Safe e₀ (Commands.report n values) :=
  safe_bind (safe_entry n) fun _ => safe_bind (safe_scope n) fun s => safe_report hb _ values s

/-! ## The parse steps -/

section Parse

variable (hb : D.Noting) (hp : D.ProcedureSafe calls) (hn : D.own e₀ n)

include hb hn

/-- How `debug` reads its arguments. -/
theorem safe_debugParse : D.Safe e₀ (Debug.parse n) := by
  refine safe_bind (safe_arguments n) fun args => ?_
  dsimp only
  have rest (words : List Argument) : D.Safe e₀ (do
      Entries.storeDefault n "type" (.str "log")
      Entries.store n "message" (.str (String.intercalate " " (words.map Argument.text)))) :=
    safe_bind (safe_storeDefault hb hn _ _) fun _ => safe_store hb hn _ _
  split
  · refine safe_bind (safe_store hb hn _ _) fun _ => ?_
    split
    · exact safe_bind (gives_refuse _) fun _ => rest _
    · exact rest _
  · split
    · exact safe_bind (gives_refuse _) fun _ => rest _
    · exact rest _

/-- How `define` reads its arguments. -/
theorem safe_defineParse : D.Safe e₀ (Define.parse n) := by
  have take (a : Argument) : D.Safe e₀ (Define.take n a) := by
    refine safe_bind (safe_has n _) fun known => ?_
    split
    · split
      · exact safe_bind (safe_store hb hn _ _) fun _ => safe_store hb hn _ _
      · exact safe_store hb hn _ _
    · refine safe_bind (safe_has n _) fun _ => ?_
      split
      · exact safe_store hb hn _ _
      · exact safe_refuseArgument a
  refine safe_bind (safe_arguments n) fun _ => safe_bind (safe_each fun a _ => take a) fun _ => ?_
  refine safe_bind (safe_has n _) fun known => ?_
  split
  · exact gives_refuse _
  · exact safe_pure _

/-- How `determine` reads its arguments. -/
theorem safe_determineParse : D.Safe e₀ (Determine.parse n) := by
  have take (a : Argument) : D.Safe e₀ (Determine.take n a) := by
    refine safe_bind (safe_has n _) fun _ => ?_
    split
    · exact safe_store hb hn _ _
    · refine safe_bind (safe_has n _) fun _ => ?_
      split
      · exact safe_store hb hn _ _
      · exact safe_refuseArgument a
  refine safe_bind (safe_arguments n) fun _ => safe_bind (safe_each fun a _ => take a) fun _ => ?_
  exact safe_bind (safe_storeDefault hb hn _ _) fun _ => safe_storeDefault hb hn _ _

/-- How `wait` reads its arguments. -/
theorem safe_waitParse : D.Safe e₀ (Wait.parse n) := by
  have take (a : Argument) : D.Safe e₀ (Wait.take n a) := by
    refine safe_bind (safe_has n _) fun _ => ?_
    split
    · exact safe_bind (safe_ofExcept _ nofun) fun _ => safe_store hb hn _ _
    · exact safe_refuseArgument a
  refine safe_bind (safe_arguments n) fun _ => safe_bind (safe_each fun a _ => take a) fun _ => ?_
  exact safe_storeDefault hb hn _ _

/-- How a command of the host reads its arguments. -/
theorem safe_hostParse (command : HostCommand) : D.Safe e₀ (Commands.Host.parse command n) := by
  unfold Commands.Host.parse
  split
  · exact safe_takeNone n
  · refine safe_bind (safe_arguments n) fun args => safe_bind (safe_store hb hn _ _) fun _ => ?_
    refine safe_bind (safe_store hb hn _ _) fun _ => safe_bind (safe_store hb hn _ _) fun _ => ?_
    exact safe_store hb hn _ _

include hp

/-- How `repeat` reads its arguments. -/
theorem safe_loopParse : D.Safe e₀ (Loop.parse calls n) := by
  have take (a : Argument) : D.Safe e₀ (Loop.take n a) := by
    refine safe_bind (safe_has n _) fun _ => ?_
    split
    · exact safe_bind (safe_ofExcept _ nofun) fun _ => safe_store hb hn _ _
    · exact safe_refuseArgument a
  have name : D.Safe e₀ (do
      let name ← Entries.argumentText? calls n "as"
      Entries.store n "as" (.str (name.getD "value"))) :=
    safe_bind (safe_argumentText? hb hp _) fun _ => safe_store hb hn _ _
  have rest : D.Safe e₀ (Loop.keepRange calls n) := by
    refine safe_bind (safe_argument? hb hp _) fun found => ?_
    dsimp only
    split
    · exact safe_bind (safe_ofExcept _ nofun) fun _ => safe_bind (safe_store hb hn _ _) fun _ => name
    · exact safe_bind (safe_pure _) fun _ => safe_bind (safe_store hb hn _ _) fun _ => name
  rw [Loop.parse_eq]
  refine safe_bind (safe_arguments n) fun _ => safe_bind (safe_each fun a _ => take a) fun _ => ?_
  refine safe_bind (safe_someHolds fun word _ => safe_flag hb hp word) fun control => ?_
  dsimp only
  split
  · exact rest
  · refine safe_bind (safe_has n _) fun known => ?_
    split
    · exact safe_bind (gives_refuse _) fun _ => rest
    · exact rest

/-- How `run` reads its arguments. -/
theorem safe_runParse : D.Safe e₀ (Run.parse calls n) := by
  have take (a : Argument) : D.Safe e₀ (Run.take n a) := by
    refine safe_bind (safe_has n _) fun _ => ?_
    split
    · exact safe_store hb hn _ _
    · exact safe_refuseArgument a
  have rest : D.Safe e₀ (Run.keepSpeed calls n) := by
    refine safe_bind (safe_argument? hb hp _) fun found => ?_
    split
    · exact safe_bind (safe_ofExcept _ nofun) fun _ => safe_store hb hn _ _
    · exact safe_pure _
  rw [Run.parse_eq]
  refine safe_bind (safe_arguments n) fun _ => safe_bind (safe_each fun a _ => take a) fun _ => ?_
  refine safe_bind (safe_has n _) fun known => ?_
  dsimp only
  split
  · exact safe_bind (gives_refuse _) fun _ => rest
  · exact rest

/-- A text that is asked for by key is stored under the same key. -/
theorem safe_storeRequired (key : String) : D.Safe e₀ (do
    Entries.store n key (.str (← Entries.requiredText calls n key))) :=
  safe_bind (safe_requiredText hb hp _) fun _ => safe_store hb hn _ _

/-- How `fileread` reads its arguments. -/
theorem safe_readParse : D.Safe e₀ (Files.Read.parse calls n) :=
  safe_bind (safe_takeNone n) fun _ => safe_storeRequired hb hp hn _

/-- How `filewrite` reads its arguments. -/
theorem safe_writeParse : D.Safe e₀ (Files.Write.parse calls n) := by
  refine safe_bind (safe_takeNone n) fun _ => safe_bind (safe_requiredText hb hp _) fun _ => ?_
  refine safe_bind (safe_store hb hn _ _) fun _ => safe_bind (safe_argument? hb hp _) fun found => ?_
  split
  · exact gives_refuse _
  · exact safe_bind (safe_reveal _) fun _ => safe_store hb hn _ _

/-- How `filecopy` reads its arguments. -/
theorem safe_copyParse : D.Safe e₀ (Files.Copy.parse calls n) := by
  refine safe_bind (safe_takeNone n) fun _ => safe_bind (safe_requiredText hb hp _) fun _ => ?_
  refine safe_bind (safe_store hb hn _ _) fun _ => safe_bind (safe_requiredText hb hp _) fun _ => ?_
  refine safe_bind (safe_store hb hn _ _) fun _ => ?_
  exact safe_bind (safe_flag hb hp _) fun _ => safe_store hb hn _ _

/-- How `webget` reads its arguments. -/
theorem safe_webParse : D.Safe e₀ (Web.parse calls n) := by
  have take (a : Argument) : D.Safe e₀ (Web.take n a) := by
    refine safe_bind (safe_has n _) fun known => ?_
    split
    · exact safe_bind (safe_refuseArgument a) fun _ => safe_store hb hn _ _
    · exact safe_store hb hn _ _
  have method : D.Safe e₀ (Web.method calls n) := by
    refine safe_bind (safe_argument? hb hp _) fun _ => ?_
    refine safe_bind (safe_argumentText? hb hp _) fun _ => ?_
    exact safe_ite (safe_pure _) (gives_refuse _)
  have rest : D.Safe e₀ (Web.keepOptions calls n) := by
    refine safe_bind method fun _ => safe_bind (safe_store hb hn _ _) fun _ => ?_
    refine safe_bind (safe_argument? hb hp _) fun found => ?_
    dsimp only
    split
    · exact safe_bind (safe_ofExcept _ nofun) fun _ => safe_store hb hn _ _
    · exact safe_bind (safe_pure _) fun _ => safe_store hb hn _ _
  rw [Web.parse_eq]
  refine safe_bind (safe_arguments n) fun _ => safe_bind (safe_each fun a _ => take a) fun _ => ?_
  refine safe_bind (safe_element? n _) fun found => ?_
  dsimp only
  split
  · exact safe_bind (gives_refuse _) fun _ => rest
  · split
    · exact safe_bind (gives_refuse _) fun _ => rest
    · exact rest

/-- How any command reads its arguments. -/
theorem safe_parse : D.Safe e₀ (Commands.parse calls n) := by
  refine safe_bind (safe_entry n) fun x => ?_
  dsimp only
  split
  · exact gives_refuse _
  · exact safe_debugParse hb hn
  · exact safe_defineParse hb hn
  · exact safe_determineParse hb hn
  · exact safe_takeNone n
  · refine safe_bind (safe_entry n) fun x => ?_
    split
    · exact gives_refuse _
    · exact safe_pure _
  · exact safe_loopParse hb hp hn
  · exact safe_waitParse hb hn
  · exact safe_runParse hb hp hn
  · exact safe_readParse hb hp hn
  · exact safe_writeParse hb hp hn
  · exact safe_copyParse hb hp hn
  · exact safe_webParse hb hp hn
  · exact safe_hostParse hb hn _

end Parse

end QueueScript.Discipline
