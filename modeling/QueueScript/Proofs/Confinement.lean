import QueueScript.Proofs.Likeness.Operations
import QueueScript.Proofs.Paths
import QueueScript.Proofs.Tidy.Reachable

/-!
# File commands stay below the limit

A configuration may name a folder that file commands must not leave: relative to the data folder,
which may itself be relative to the folder that the process works in.  Scripts then name paths at or
below that folder only, so all work that is started or done at once stays there.  Two things follow
for every run: a regular file elsewhere is neither made nor changed nor removed, and the content of
such files makes no difference to the engine.

The second statement is about two runs on file systems that differ in the content of regular files
outside the folder: all answers, and everything in the two engines but these files, are the same.
-/

namespace QueueScript

namespace FileSystem

variable {folder p q : Path} {fs fs' fs₀ : FileSystem}

/-! ## What stands at a path after a step -/

/-- What stands at a path other than the root is looked up among the nodes. -/
theorem get?_of_ne (fs : FileSystem) (hq : q ≠ []) :
    fs.get? q = (fs.nodes.find? (·.1 == q)).map (·.2) :=
  if_neg (by simpa using hq)

/-- A node that is put anywhere but at the root replaces what stood there. -/
theorem put_of_ne (fs : FileSystem) (hp : p ≠ []) (node : Node) :
    fs.put p node = ⟨fs.nodes.filter (·.1 != p) ++ [(p, node)]⟩ :=
  if_neg (by simpa using hp)

/-- What stands at a path after a node was put somewhere. -/
theorem get?_put (fs : FileSystem) (hp : p ≠ []) (node : Node) (q : Path) :
    (fs.put p node).get? q = if q = p then some node else fs.get? q := by
  by_cases hq : q = []
  · subst hq
    rw [if_neg hp.symm]
    rfl
  rw [get?_of_ne _ hq, get?_of_ne _ hq, put_of_ne _ hp, List.find?_append, List.find?_filter]
  split
  · rename_i h
    subst h
    rw [List.find?_eq_none.2 fun x _ => by simp]
    simp
  · rename_i h
    have others : (fun x : Path × Node => decide ((x.1 != p) = true ∧ (x.1 == q) = true)) =
        fun x => x.1 == q := by
      funext x
      grind
    rw [others]
    simp [Ne.symm h]

/-! ## File systems that look alike from a folder -/

/-- Every regular file outside the folder is the same in both file systems. -/
def Spared (folder : Path) (fs fs' : FileSystem) : Prop :=
  ∀ p, ¬ folder <+: p → ∀ content,
    fs'.get? p = some (.file content) ↔ fs.get? p = some (.file content)

/-- The file systems differ in nothing but the content of regular files outside the folder. -/
structure DifferOutside (folder : Path) (fs fs' : FileSystem) : Prop where
  inside (p : Path) : folder <+: p → fs'.get? p = fs.get? p
  isFile (p : Path) : fs'.isFile p = fs.isFile p
  has (p : Path) : fs'.has p = fs.has p

/-- A file system does not differ from itself. -/
theorem DifferOutside.refl (folder : Path) (fs : FileSystem) : fs.DifferOutside folder fs :=
  ⟨fun _ _ => rfl, fun _ => rfl, fun _ => rfl⟩

/-- A file system beside another one, and what it still shares with an earlier one: what is carried
along two runs. -/
structure Beside (folder : Path) (fs₀ fs fs' : FileSystem) : Prop where
  spared : Spared folder fs₀ fs
  differ : DifferOutside folder fs fs'

/-- The results of steps on files: the same fault or none, and file systems side by side. -/
def BesideEnds (folder : Path) (fs₀ : FileSystem) :
    Except FileFault FileSystem → Except FileFault FileSystem → Prop
  | .ok fs, .ok fs' => Beside folder fs₀ fs fs'
  | .error f, .error f' => f = f'
  | _, _ => False

namespace Beside

variable (h : Beside folder fs₀ fs fs')

include h

/-- What is put at a path must not be a regular file outside the folder, nor replace one. -/
theorem put {node : Node} (hn : folder <+: p ∨ node = .folder ∧ fs.has p = false) :
    Beside folder fs₀ (fs.put p node) (fs'.put p node) := by
  by_cases hp : p = []
  · subst hp
    exact h
  -- The two file systems hold the same at the path, and what they held before anywhere else.
  have look (q : Path) : (fs'.put p node).get? q = (fs.put p node).get? q ∨
      (fs'.put p node).get? q = fs'.get? q ∧ (fs.put p node).get? q = fs.get? q := by
    rw [get?_put fs hp, get?_put fs' hp]
    split
    · exact .inl rfl
    · exact .inr ⟨rfl, rfl⟩
  refine ⟨fun q hq content => ?_, fun q hq => ?_, fun q => ?_, fun q => ?_⟩
  · rw [get?_put fs hp, ← h.spared q hq content]
    split
    · rename_i heq
      subst heq
      obtain ⟨rfl, hnone⟩ := hn.resolve_left hq
      have : fs.get? q = none := by simpa [FileSystem.has] using hnone
      simp [this]
    · rfl
  · rw [get?_put fs hp, get?_put fs' hp, h.differ.inside q hq]
  · have hq := h.differ.isFile q
    unfold FileSystem.isFile at hq ⊢
    rcases look q with heq | ⟨heq', heq⟩
    · rw [heq]
    · rw [heq', heq, hq]
  · have hq := h.differ.has q
    unfold FileSystem.has at hq ⊢
    rcases look q with heq | ⟨heq', heq⟩
    · rw [heq]
    · rw [heq', heq, hq]

/-- Whether a path leads through a file is the same on both sides. -/
theorem belowFile (p : Path) : fs'.belowFile p = fs.belowFile p := by
  have : fs'.isFile = fs.isFile := funext h.differ.isFile
  rw [FileSystem.belowFile, this]
  rfl

/-- Folders are made alike, wherever they are. -/
theorem makeFolder (p : Path) :
    BesideEnds folder fs₀ (fs.makeFolder p) (fs'.makeFolder p) := by
  have made (ps : List Path) {fs fs' : FileSystem} (h : Beside folder fs₀ fs fs') :
      Beside folder fs₀
        (ps.foldl (fun fs q => if fs.has q then fs else fs.put q .folder) fs)
        (ps.foldl (fun fs q => if fs.has q then fs else fs.put q .folder) fs') := by
    induction ps generalizing fs fs' with
    | nil => exact h
    | cons q rest ih =>
      refine ih ?_
      dsimp only
      rw [h.differ.has q]
      split
      · exact h
      · rename_i hq
        exact h.put (.inr ⟨rfl, by simpa using hq⟩)
  unfold FileSystem.makeFolder
  rw [h.belowFile, h.differ.isFile]
  split
  · rfl
  · split
    · rfl
    · exact made _ h

/-- A file in the folder is written on both sides. -/
theorem writeFile (hp : folder <+: p) (content : Bytes) :
    BesideEnds folder fs₀ (fs.writeFile p content) (fs'.writeFile p content) := by
  unfold FileSystem.writeFile
  rw [h.differ.inside p hp]
  split
  · rfl
  · exact h.put (.inl hp)

/-- A file in the folder is copied on both sides. -/
theorem copyFile (hp : folder <+: p) (hq : folder <+: q) :
    BesideEnds folder fs₀ (fs.copyFile p q) (fs'.copyFile p q) := by
  unfold FileSystem.copyFile
  rw [h.differ.inside p hp, h.differ.inside q hq]
  split
  · exact h.put (.inl hq)
  · exact h.put (.inl hq)
  · rfl
  · rfl

/-- A file in the folder is read alike on both sides. -/
theorem read (hp : folder <+: p) : fs'.read p = fs.read p := by
  unfold FileSystem.read
  rw [h.differ.inside p hp, h.belowFile]

/-- Two steps on files, of which the second one starts from where the first one ends. -/
theorem attempt {first second : FileSystem → Except FileFault FileSystem}
    (h₁ : BesideEnds folder fs₀ (first fs) (first fs'))
    (h₂ : ∀ {a a'}, Beside folder fs₀ a a' → BesideEnds folder fs₀ (second a) (second a')) :
    (fs'.attempt first second).2 = (fs.attempt first second).2 ∧
      Beside folder fs₀ (fs.attempt first second).1 (fs'.attempt first second).1 := by
  unfold FileSystem.attempt
  cases hf : first fs with
  | error f =>
    cases hf' : first fs' with
    | error f' =>
      rw [hf, hf'] at h₁
      cases h₁
      exact ⟨rfl, h⟩
    | ok a' => rw [hf, hf'] at h₁; exact h₁.elim
  | ok a =>
    cases hf' : first fs' with
    | error f' => rw [hf, hf'] at h₁; exact h₁.elim
    | ok a' =>
      rw [hf, hf'] at h₁
      have h₃ := h₂ h₁
      dsimp only
      cases hs : second a with
      | error f =>
        cases hs' : second a' with
        | error f' =>
          rw [hs, hs'] at h₃
          cases h₃
          exact ⟨rfl, h₁⟩
        | ok b' => rw [hs, hs'] at h₃; exact h₃.elim
      | ok b =>
        cases hs' : second a' with
        | error f' => rw [hs, hs'] at h₃; exact h₃.elim
        | ok b' =>
          rw [hs, hs'] at h₃
          exact ⟨rfl, h₃⟩

/-- A path in the folder is written alike on both sides. -/
theorem write (hp : folder <+: p) (content : Bytes) :
    (fs'.write p content).2 = (fs.write p content).2 ∧
      Beside folder fs₀ (fs.write p content).1 (fs'.write p content).1 :=
  h.attempt (h.makeFolder p.parent) fun ha => ha.writeFile hp content

/-- A path in the folder is copied alike on both sides. -/
theorem copy (hp : folder <+: p) (hq : folder <+: q) :
    (fs'.copy p q).2 = (fs.copy p q).2 ∧
      Beside folder fs₀ (fs.copy p q).1 (fs'.copy p q).1 :=
  h.attempt (h.makeFolder q.parent) fun ha => ha.copyFile hp hq

end Beside

end FileSystem

/-! ## Runs on two file systems -/

/-- The engine has a configuration, and its work under way stays below a folder. -/
structure Engine.ConfinedTo (config : Config) (folder : Path) (e : Engine) : Prop where
  config : e.config = config
  inFlight : ∀ w ∈ e.inFlight, w.job.Within (folder <+: ·)

/-- The engines differ in files only, which lie side by side. -/
structure Engine.Beside (config : Config) (folder : Path) (fs₀ : FileSystem) (e e' : Engine) :
    Prop where
  confined : e.ConfinedTo config folder
  files : FileSystem.Beside folder fs₀ e.files e'.files
  rest : e' = { e with files := e'.files }

namespace Engine.Beside

variable {config : Config} {folder : Path} {fs₀ : FileSystem} {e e' : Engine}

/-- What comes after a job on files is the same on both sides. -/
theorem afterFiles (h : Engine.Beside config folder fs₀ e e') {r r' : FileSystem × Option FileFault}
    (hr : r'.2 = r.2 ∧ FileSystem.Beside folder fs₀ r.1 r'.1) :
    (Background.afterFiles e' r').2 = (Background.afterFiles e r).2 ∧
      Engine.Beside config folder fs₀ (Background.afterFiles e r).1
        (Background.afterFiles e' r').1 := by
  obtain ⟨files, fault⟩ := r
  obtain ⟨files', fault'⟩ := r'
  obtain ⟨hfault, hfiles⟩ := hr
  cases hfault
  rw [h.rest]
  cases fault with
  | none => exact ⟨rfl, ⟨⟨h.confined.config, h.confined.inFlight⟩, hfiles, rfl⟩⟩
  | some f => exact ⟨rfl, ⟨⟨h.confined.config, h.confined.inFlight⟩, hfiles, rfl⟩⟩

/-- Sending a request does not look at files. -/
theorem send (h : Engine.Beside config folder fs₀ e e') (r : WebRequest) :
    (Background.send e' r).2 = (Background.send e r).2 ∧
      Engine.Beside config folder fs₀ (Background.send e r).1 (Background.send e' r).1 := by
  rw [h.rest]
  unfold Background.send
  dsimp only
  split
  · exact ⟨rfl, ⟨⟨h.confined.config, h.confined.inFlight⟩, h.files, rfl⟩⟩
  · split
    · exact ⟨rfl, ⟨⟨h.confined.config, h.confined.inFlight⟩, h.files, rfl⟩⟩
    · exact ⟨rfl, ⟨⟨h.confined.config, h.confined.inFlight⟩, h.files, rfl⟩⟩

/-- A response that did not fail is written where it is to go. -/
theorem fetch (h : Engine.Beside config folder fs₀ e e') {r : WebRequest}
    (hr : ∀ path, r.saveTo = some path → folder <+: path) :
    (Background.fetch e' r).2 = (Background.fetch e r).2 ∧
      Engine.Beside config folder fs₀ (Background.fetch e r).1 (Background.fetch e' r).1 := by
  obtain ⟨response, sent⟩ := h.send r
  have started : e'.clock = e.clock := by rw [h.rest]
  unfold Background.fetch
  rw [started]
  generalize Background.send e r = x at response sent ⊢
  generalize Background.send e' r = x' at response sent ⊢
  obtain ⟨e₁, response₁⟩ := x
  obtain ⟨e₁', response₁'⟩ := x'
  cases response
  replace sent : Engine.Beside config folder fs₀ e₁ e₁' := sent
  have ended : e₁'.clock = e₁.clock := by rw [sent.rest]
  dsimp only
  rw [ended]
  split
  · rename_i path _ hpath
    have written := sent.files.write (hr path hpath) response₁.body
    generalize e₁.files.write path response₁.body = w at written ⊢
    generalize e₁'.files.write path response₁.body = w' at written ⊢
    obtain ⟨files, fault⟩ := w
    obtain ⟨files', fault'⟩ := w'
    obtain ⟨hfault, hfiles⟩ := written
    cases hfault
    rw [sent.rest]
    cases fault with
    | none => exact ⟨rfl, ⟨⟨sent.confined.config, sent.confined.inFlight⟩, hfiles, rfl⟩⟩
    | some f => exact ⟨rfl, ⟨⟨sent.confined.config, sent.confined.inFlight⟩, hfiles, rfl⟩⟩
  · exact ⟨rfl, sent⟩

/-- A job within the folder is done alike on both sides. -/
theorem perform (h : Engine.Beside config folder fs₀ e e') {job : Job}
    (hj : job.Within (folder <+: ·)) :
    (Background.perform e' job).2 = (Background.perform e job).2 ∧
      Engine.Beside config folder fs₀ (Background.perform e job).1
        (Background.perform e' job).1 := by
  cases job with
  | read path =>
    unfold Background.perform
    dsimp only
    rw [h.files.read hj]
    split
    · exact ⟨rfl, h⟩
    · exact ⟨rfl, h⟩
  | write path content => exact h.afterFiles (h.files.write hj content)
  | copy origin destination => exact h.afterFiles (h.files.copy hj.1 hj.2)
  | request r => exact h.fetch hj
  | give v => exact ⟨rfl, h⟩
  | fail message => exact ⟨rfl, h⟩
  | giveUnusable message => exact ⟨rfl, h⟩

end Engine.Beside

/-- Engines with a limit that differ in the content of regular files beyond the limit. -/
def Likeness.beside (config : Config) (hlimit : Text.lower config.filePathLimit ≠ "none")
    (fs₀ : FileSystem) : Likeness where
  like := Engine.Beside config (Path.resolve config.dataPath config.filePathLimit) fs₀
  scopes := Eq
  goes := (Path.resolve config.dataPath config.filePathLimit <+: ·)
  plain h := by rw [h.rest]; rfl
  settings h := by rw [h.rest]
  script n h := by rw [h.rest]; rfl
  scripts_size h := by rw [h.rest]
  scopes_refl _ := rfl
  samePlace h := by rw [h]; rfl
  scope n h := (Likeness.scope_congr (by rw [h.rest]; rfl) (by rw [h.rest]) n).symm
  path h hp := by
    rw [h.confined.config, Config.scriptPath?_eq hlimit] at hp
    split at hp
    · cases hp
      assumption
    · cases hp
  has h _ := h.files.differ.has _
  inFlight h := h.confined.inFlight
  lend p h hw := by
    rw [h.rest]
    exact ⟨⟨h.confined.config, hw⟩, h.files, rfl⟩
  emit event h hs := by
    subst hs
    rw [h.rest]
    unfold Engine.emit
    dsimp only
    split
    · exact ⟨⟨h.confined.config, h.confined.inFlight⟩, h.files, rfl⟩
    · exact ⟨h.confined, h.files, rfl⟩
  base n codes h := by
    rw [h.rest]
    exact ⟨⟨h.confined.config, h.confined.inFlight⟩, h.files, rfl⟩
  push record h := by
    rw [h.rest]
    exact ⟨⟨h.confined.config, h.confined.inFlight⟩, h.files, rfl⟩
  perform h hj := h.perform hj

/-! ## Every run -/

/-- A new engine has the settings that it was given. -/
theorem Host.create_config (config : Config) (modules : List CommandModule) :
    (Host.create config modules).config = config := by
  have add (ms : List CommandModule) (e : Engine) : (ms.foldl Host.addModule e).config = e.config := by
    induction ms generalizing e with
    | nil => rfl
    | cons m rest ih => exact ih (Host.addModule e m)
  exact add _ _

section Runs

variable {config : Config} (hlimit : Text.lower config.filePathLimit ≠ "none")

/-- An engine beside itself, its own files to be spared. -/
theorem Engine.ConfinedTo.beside {folder : Path} {e : Engine} (h : e.ConfinedTo config folder)
    {fs : FileSystem} (hfs : e.files.DifferOutside folder fs) :
    Engine.Beside config folder e.files e { e with files := fs } :=
  ⟨h, ⟨fun _ _ _ => Iff.rfl, hfs⟩, rfl⟩

include hlimit

/-- Work that an engine has under way never leaves the folder. -/
theorem Reachable.confinedTo {modules : List CommandModule} {e : Engine}
    (h : Reachable (Host.create config modules) e) :
    e.ConfinedTo config (Path.resolve config.dataPath config.filePathLimit) := by
  induction h with
  | first =>
    refine ⟨Host.create_config config modules, fun w hw => ?_⟩
    rw [(Host.create_isNew config modules).inFlight] at hw
    exact absurd hw List.not_mem_nil
  | @next e fuel op _ _ _ ih =>
    by_cases hop : op.IsWorld
    · cases op with
      | world files webPlans clock => exact ⟨ih.config, ih.inFlight⟩
      | _ => exact hop.elim
    · have same := ih.beside (FileSystem.DifferOutside.refl _ _)
      exact (Likeness.twin_run (Likeness.steady_act (L := .beside config hlimit e.files) fuel hop) same).2.confined

/-- The path that a script names is the resolved one, or the command fails. -/
theorem requirePath_eq {e : Engine} (he : e.config = config) (target : String) :
    Commands.Files.requirePath target e =
      (if Path.resolve config.dataPath config.filePathLimit <+: Path.resolve config.dataPath target
        then .ok (Path.resolve config.dataPath target)
        else .error (.runtime (.outside target)), e) := by
  rw [Commands.Files.requirePath, Action.look_bind, he, Config.scriptPath?_eq hlimit]
  by_cases h : Path.resolve config.dataPath config.filePathLimit <+: Path.resolve config.dataPath target
  · rw [if_pos h, if_pos h]
    rfl
  · rw [if_neg h, if_neg h]
    rfl

end Runs

/-- File commands are confined to the limit of the configuration.

The data folder is read against the folder that the process works in, the limit and every target
against the data folder.  A path that a script names is admitted exactly if the limit is a beginning
of it, and is then the normalised path.  Whatever a host does with an engine, in however many steps,
the regular files beyond the limit stay as they are; and a second engine whose files differ in the
content of regular files beyond the limit gives the same answers and ends in the same state, these
files aside. -/
theorem file_commands_confined {config : Config}
    (hlimit : Text.lower config.filePathLimit ≠ "none") (modules : List CommandModule) :
    let data := Path.resolve config.workingFolder config.dataFolder
    let limit := Path.resolve data config.filePathLimit
    (∀ (target : String) (e : Engine), e.config = config →
      let full := Path.resolve data target
      full.Normal ∧ Commands.Files.requirePath target e =
        (if limit <+: full then .ok full else .error (.runtime (.outside target)), e)) ∧
    ∀ e, Reachable (Host.create config modules) e →
      ∀ ops : List (Nat × Operation), (∀ op ∈ ops, ¬ op.2.IsWorld) →
        let run := Operation.runAll ops e
        e.files.Spared limit run.2.files ∧
          ∀ fs, e.files.DifferOutside limit fs →
            let other := Operation.runAll ops { e with files := fs }
            other.1 = run.1 ∧ other.2 = { run.2 with files := other.2.files } ∧
              run.2.files.DifferOutside limit other.2.files := by
  intro data limit
  refine ⟨fun target e he => ?_, fun e h ops hops => ?_⟩
  · exact ⟨Path.normal_resolve config.normal_dataPath target, requirePath_eq hlimit he target⟩
  · have confined := h.confinedTo hlimit
    have runs {fs : FileSystem} (hfs : e.files.DifferOutside limit fs) :=
      Likeness.like_runAll (L := .beside config hlimit e.files) hops (confined.beside hfs)
    refine ⟨(runs (FileSystem.DifferOutside.refl limit e.files)).2.files.spared, fun fs hfs => ?_⟩
    obtain ⟨answers, beside⟩ := runs hfs
    exact ⟨answers, beside.rest, beside.files.differ⟩

/-- In a process that does not work at the root, a script copies a file inside the data folder, in the
background, and is refused what it asks for outside.  The file outside is as it was. -/
theorem file_commands_confined_secret :
    let config : Config :=
      { workingFolder := ⟨["srv", "app"], by decide +kernel⟩,
        dataFolder := "data", allowFileRead := true, allowFileCopy := true }
    let files : FileSystem :=
      ⟨[(["srv"], .folder), (["srv", "app"], .folder), (["srv", "app", "secret"], .file [1]),
        (["srv", "app", "data"], .folder), (["srv", "app", "data", "in"], .file [2])]⟩
    let e := ((Operation.world files [] 0.0).act 0 (Host.create config [])).2
    let source := "fileread path:../secret\n~filecopy origin:in destination:copy"
    let ops : List (Nat × Operation) :=
      [(9, .runCommands source none {} true), (9, .tick none), (9, .settle 0)]
    let after := (Operation.runAll ops e).2
    Text.lower config.filePathLimit ≠ "none" ∧
      (after.files.get? ["srv", "app", "data", "copy"] = some (.file [2]) ∧ after.events.length = 1) ∧
      e.files.Spared (Path.resolve config.dataPath config.filePathLimit) after.files := by
  intro config files e source ops after
  have hlimit : Text.lower config.filePathLimit ≠ "none" := by decide +kernel
  have reached : Reachable (Host.create config []) e :=
    Reachable.ok .first 0 (.world files [] 0.0) trivial rfl
  have quiet : ∀ op ∈ ops, ¬ op.2.IsWorld := by
    simp [ops, Operation.IsWorld]
  refine ⟨hlimit, by decide +kernel, ?_⟩
  exact ((file_commands_confined hlimit []).2 e reached ops quiet).1

end QueueScript
