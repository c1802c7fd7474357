import QueueScript.Engine.Commands.Basic

/-!
# Conditions

The command that runs the first of its blocks whose condition holds. A condition is words: values,
comparisons of values, and these joined by `&&` and `||`, of which `||` binds looser. Words are
resolved only as far as the outcome depends on them.
-/

namespace QueueScript.Commands.Condition

/-! ## Words of a condition -/

/-- The groups of words between occurrences of a word. -/
def splitBetween (separator : String) : List String → List (List String)
  | [] => [[]]
  | w :: rest =>
    let groups := splitBetween separator rest
    if w = separator then [] :: groups
    else (w :: groups.headD []) :: groups.tail

/-- The comparisons. -/
inductive Comparison where
  | equal
  | different
  | less
  | greater
  | atMost
  | atLeast
  deriving DecidableEq, Repr

/-- How a comparison is written. -/
def Comparison.text : Comparison → String
  | .equal => "=="
  | .different => "!="
  | .less => "<"
  | .greater => ">"
  | .atMost => "<="
  | .atLeast => ">="

/-- The comparison that a word stands for. -/
def Comparison.ofWord? : String → Option Comparison
  | "==" => some .equal
  | "!=" => some .different
  | "<" => some .less
  | ">" => some .greater
  | "<=" => some .atMost
  | ">=" => some .atLeast
  | _ => none

/-- A part of a condition. -/
inductive Clause where
  /-- A value that must be true, or must not be. -/
  | truth (text : String) (negated : Bool)
  /-- Two values to be compared. -/
  | compare (left : String) (comparison : Comparison) (right : String)
  deriving DecidableEq, Repr

/-- The words before the first comparison, the comparison, and the words after it. -/
def splitComparison : List String → Option (List String × Comparison × List String)
  | [] => none
  | w :: rest =>
    match Comparison.ofWord? w with
    | some c => some ([], c, rest)
    | none => (splitComparison rest).map fun (before, c, after) => (w :: before, c, after)

/-- The reading of the words of a part, which is never empty. -/
def Clause.ofWords? (words : List String) : Option Clause :=
  if words.isEmpty then none
  else
    match splitComparison words with
    | some (before, c, after) => some (.compare (showWords before) c (showWords after))
    | none =>
      match (showWords words).toList with
      | '!' :: rest => some (.truth (String.ofList rest) true)
      | text => some (.truth (String.ofList text) false)

/-! ## Comparing values -/

/-- Whether two values are equal: as numbers if both are numbers, else as texts, case aside. -/
def same (left right : Value) : Bool :=
  match left.asNumber, right.asNumber with
  | some x, some y => x == y
  | _, _ => Text.lower left.text == Text.lower right.text

/-- The outcome of a comparison. Only numbers have a size. -/
def Comparison.holds (c : Comparison) (left right : Value) : Except RuntimeFault Bool :=
  let sizes (test : Float → Float → Bool) : Except RuntimeFault Bool :=
    match left.asNumber, right.asNumber with
    | some x, some y => .ok (test x y)
    | _, _ => .error (.cannotCompare left.describe c.text right.describe)
  match c with
  | .equal => .ok (same left right)
  | .different => .ok !(same left right)
  | .less => sizes fun x y => decide (x < y)
  | .greater => sizes fun x y => decide (y < x)
  | .atMost => sizes fun x y => decide (x ≤ y)
  | .atLeast => sizes fun x y => decide (y ≤ x)

/-- Whether a part of a condition holds. -/
def Clause.holds (calls : Calls) (n : EntryRef) : Clause → Action Bool
  | .truth text negated => do
    let v ← Action.reveal (← Entries.resolveText calls n text)
    pure ((v.asBoolean == some true) != negated)
  | .compare left c right => do
    let x ← Entries.resolveText calls n left
    let y ← Entries.resolveText calls n right
    Action.ofExcept .runtime (c.holds (← Action.reveal x) (← Action.reveal y))

/-- Whether the words of a part hold. -/
def partHolds (calls : Calls) (n : EntryRef) (words : List String) : Action Bool :=
  match Clause.ofWords? words with
  | some clause => clause.holds calls n
  | none => Action.refuse .emptyCondition

/-- Whether a condition holds: some group between `||` of which every part between `&&` does. -/
def holds (calls : Calls) (n : EntryRef) (words : List String) : Action Bool :=
  if words.isEmpty then Action.refuse .noCondition
  else
    Action.someHolds (fun group => Action.allHold (partHolds calls n) (splitBetween "&&" group))
      (splitBetween "||" words)

/-! ## Blocks -/

/-- The condition of a later block, or nothing if it has none. -/
def laterCondition (args : List String) : Except RuntimeFault (Option (List String)) :=
  match args with
  | [] => .error (.notElse (showWords args))
  | first :: rest =>
    if Text.lower first ≠ "else" then .error (.notElse (showWords args))
    else
      match rest with
      | [] => .ok none
      | second :: words =>
        if Text.lower second = "if" then .ok (some words) else .error (.notElseIf (showWords args))

/-- Whether a block is the one to run. The first block's words are its condition. -/
def isChosen (calls : Calls) (n : EntryRef) (index : Nat) (branch : Branch EntryRef) :
    Action Bool :=
  if index = 0 then holds calls n branch.args
  else do
    match ← Action.ofExcept .runtime (laterCondition branch.args) with
    | none => pure true
    | some words => holds calls n words

/-- The first block to run, and its place, from an index on. -/
def choose (calls : Calls) (n : EntryRef) :
    Nat → List (Branch EntryRef) → Action (Option (Nat × Branch EntryRef))
  | _, [] => pure none
  | index, branch :: rest => do
    if ← isChosen calls n index branch then pure (some (index, branch))
    else choose calls n (index + 1) rest

/-- Asks for a block. -/
def parse (n : EntryRef) : Action Unit := do
  if !(← Action.entry n).code.hasBlocks then
    Action.refuse .noBlock

/-- Puts clones of the entries of the chosen block at the head of the queue. -/
def execute (calls : Calls) (n : EntryRef) : Action Unit := do
  let q ← Entries.requireQueue n
  match ← choose calls n 0 (← branches n) with
  | none => report n [("branch", "none")]
  | some (index, branch) =>
    report n [("branch", Number.natText (index + 1)),
      ("entries", Number.natText branch.body.length)]
    Queues.inject q (← Entries.spawn n branch.body)

end QueueScript.Commands.Condition
