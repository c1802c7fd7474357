import QueueScript.Keyed
import QueueScript.Path
import QueueScript.Text.Utf8

/-!
# Files and folders

A file system in memory: what stands at each path. Writing below a regular file, writing to a
folder and reading what is not there are faults, worded as an operating system words them.
-/

namespace QueueScript

/-- What stands at a path. -/
inductive Node where
  /-- A folder. -/
  | folder
  /-- A regular file and its content. -/
  | file (content : Bytes)
  deriving DecidableEq, Repr

/-- What stands at which path. The root folder is always there. -/
structure FileSystem where
  /-- The paths below the root that are there. -/
  nodes : List (Path × Node)

/-- What goes wrong with files. -/
inductive FileFault where
  /-- Nothing is there to be opened. -/
  | missing (path : Path)
  /-- A folder was to be read. -/
  | readFolder
  /-- A folder was to be opened for writing. -/
  | openFolder (path : Path)
  /-- The path goes through a regular file. -/
  | openBelowFile (path : Path)
  /-- A folder was to be made where a regular file is. -/
  | folderIsFile (path : Path)
  /-- A folder was to be made below a regular file. -/
  | folderBelowFile (path : Path)
  /-- A folder was to be copied, or copied over. -/
  | copyFolder (origin destination : Path)
  deriving DecidableEq, Repr

/-- The wording of a fault. -/
def FileFault.message : FileFault → String
  | .missing p => "ENOENT: no such file or directory, open '" ++ p.text ++ "'"
  | .readFolder => "EISDIR: illegal operation on a directory, read"
  | .openFolder p => "EISDIR: illegal operation on a directory, open '" ++ p.text ++ "'"
  | .openBelowFile p => "ENOTDIR: not a directory, open '" ++ p.text ++ "'"
  | .folderIsFile p => "EEXIST: file already exists, mkdir '" ++ p.text ++ "'"
  | .folderBelowFile p => "ENOTDIR: not a directory, mkdir '" ++ p.text ++ "'"
  | .copyFolder a b =>
    "EISDIR: illegal operation on a directory, copyfile '" ++ a.text ++ "' -> '" ++ b.text ++ "'"

namespace FileSystem

/-- Nothing but the root folder. -/
def empty : FileSystem := ⟨[]⟩

/-- What stands at a path. -/
def get? (fs : FileSystem) (p : Path) : Option Node :=
  if p.isEmpty then some .folder else (fs.nodes.find? (·.1 == p)).map (·.2)

/-- Whether a regular file stands at a path. -/
def isFile (fs : FileSystem) (p : Path) : Bool :=
  match fs.get? p with
  | some (.file _) => true
  | _ => false

/-- Whether a path goes through a regular file. -/
def belowFile (fs : FileSystem) (p : Path) : Bool :=
  p.ancestors.any fs.isFile

/-- Whether anything stands at a path. -/
def has (fs : FileSystem) (p : Path) : Bool :=
  (fs.get? p).isSome

/-- Puts something at a path below the root, in place of what was there. -/
def put (fs : FileSystem) (p : Path) (node : Node) : FileSystem :=
  if p.isEmpty then fs else ⟨fs.nodes.filter (·.1 != p) ++ [(p, node)]⟩

/-- Makes a folder and those on the way to it. -/
def makeFolder (fs : FileSystem) (p : Path) : Except FileFault FileSystem :=
  if fs.belowFile p then .error (.folderBelowFile p)
  else if fs.isFile p then .error (.folderIsFile p)
  else
    .ok ((p.ancestors ++ [p]).foldl (fun fs q => if fs.has q then fs else fs.put q .folder) fs)

/-- The content of a file. -/
def read (fs : FileSystem) (p : Path) : Except FileFault Bytes :=
  match fs.get? p with
  | some (.file content) => .ok content
  | some .folder => .error .readFolder
  | none => if fs.belowFile p then .error (.openBelowFile p) else .error (.missing p)

/-- Writes a file whose folder is there. -/
def writeFile (fs : FileSystem) (p : Path) (content : Bytes) : Except FileFault FileSystem :=
  match fs.get? p with
  | some .folder => .error (.openFolder p)
  | _ => .ok (fs.put p (.file content))

/-- Copies a file into a folder that is there. -/
def copyFile (fs : FileSystem) (origin destination : Path) : Except FileFault FileSystem :=
  match fs.get? origin, fs.get? destination with
  | some (.file content), some (.file _) => .ok (fs.put destination (.file content))
  | some (.file content), none => .ok (fs.put destination (.file content))
  | none, _ => .error (.missing origin)
  | _, _ => .error (.copyFolder origin destination)

/-- The result of a step on files: the file system after it, and a fault if it failed. What was done
before the fault stays done. -/
def attempt (fs : FileSystem) (first : FileSystem → Except FileFault FileSystem)
    (second : FileSystem → Except FileFault FileSystem) : FileSystem × Option FileFault :=
  match first fs with
  | .error e => (fs, some e)
  | .ok made =>
    match second made with
    | .error e => (made, some e)
    | .ok written => (written, none)

/-- Writes a file, making the folders on the way. -/
def write (fs : FileSystem) (p : Path) (content : Bytes) : FileSystem × Option FileFault :=
  fs.attempt (·.makeFolder p.parent) (·.writeFile p content)

/-- Copies a file, making the folders on the way. -/
def copy (fs : FileSystem) (origin destination : Path) : FileSystem × Option FileFault :=
  fs.attempt (·.makeFolder destination.parent) (·.copyFile origin destination)

/-- The text of a node's path relative to the folder it was found in; a folder ends in a slash. -/
def entryText (relative : Path) : Node → String
  | .folder => String.intercalate "/" relative ++ "/"
  | .file _ => String.intercalate "/" relative

/-- Everything below a folder, in the order of its texts. -/
def below (fs : FileSystem) (folder : Path) : List (String × Node) :=
  let found := fs.nodes.filterMap fun (p, node) =>
    if folder.isPrefixOf p && p != folder then
      some (entryText (p.drop folder.length) node, node)
    else none
  found.mergeSort fun a b => decide (a.1 ≤ b.1)

end FileSystem

end QueueScript
