import QueueScript.Text.Blank

/-!
# Paths

A path is the list of the names on the way down from the root folder. Texts are read against a
folder: a leading slash starts at the root, `.` and empty names stay, and `..` goes up, at the root
nowhere.
-/

namespace QueueScript

/-- An absolute path, the names from the root down. -/
abbrev Path := List String

namespace Path

/-- One more name on the way, where `path` is in reverse. -/
def step (path : List String) (name : String) : List String :=
  if name = "" ∨ name = "." then path
  else if name = ".." then path.tail
  else name :: path

/-- The path that a text names, read against a folder. -/
def resolve (folder : Path) (text : String) : Path :=
  let start := if text.startsWith "/" then [] else folder
  ((Text.splitAt '/' text).foldl step start.reverse).reverse

/-- The text of a path. -/
def text (p : Path) : String :=
  "/" ++ String.intercalate "/" p

/-- A name that a normalised path may hold. -/
def IsName (name : String) : Prop :=
  name ≠ "" ∧ name ≠ "." ∧ name ≠ ".." ∧ '/' ∉ name.toList

instance (name : String) : Decidable (IsName name) :=
  inferInstanceAs (Decidable (_ ∧ _))

/-- A normalised path: every name on it is one. -/
def Normal (p : Path) : Prop :=
  ∀ name ∈ p, IsName name

instance (p : Path) : Decidable (Normal p) :=
  inferInstanceAs (Decidable (∀ name ∈ p, IsName name))

/-- The root is normalised. -/
theorem normal_nil : Normal [] :=
  fun _ h => absurd h List.not_mem_nil

/-- The folder that a path lies in; the root lies in itself. -/
def parent (p : Path) : Path :=
  p.dropLast

/-- What is left of two paths after their common beginning. -/
def dropCommon : Path → Path → Path × Path
  | a :: as, b :: bs => if a = b then dropCommon as bs else (a :: as, b :: bs)
  | as, bs => (as, bs)

/-- The way from one path to another: up to the common folder and down again. -/
def relative (start goal : Path) : List String :=
  let (up, down) := dropCommon start goal
  up.map (fun _ => "..") ++ down

/-- Whether the way from a folder to a path leaves the folder. -/
def leaves (folder goal : Path) : Bool :=
  (relative folder goal).head? == some ".."

/-- The proper beginnings of a path, from the root on. -/
def ancestors (p : Path) : List Path :=
  (List.range p.length).map p.take

end Path

end QueueScript
