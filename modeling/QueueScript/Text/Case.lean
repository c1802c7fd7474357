import QueueScript.Text.Blank
import QueueScript.Text.CaseTable

/-!
# Lower and upper case of texts

Case mapping of whole texts: each character maps to one or more characters, and a capital sigma at
the end of a word takes its final form. Names, keywords and prefixes are compared through `lower`.
-/

namespace QueueScript.Text

/-- The code point after the shift of the first run that contains it. -/
def shiftBy (runs : List CaseRun) (n : Nat) : Nat :=
  match runs.find? (·.contains n) with
  | some r => (n + r.shift).toNat
  | none => n

/-- The lower-case form of one character, context aside. -/
def lowerChar (c : Char) : List Char :=
  if c.toNat < 128 then [c.toLower]
  else if c.toNat = 0x130 then ['i', Char.ofNat 0x307]
  else [Char.ofNat (shiftBy lowerRuns c.toNat)]

/-- The upper-case form of one character. -/
def upperChar (c : Char) : List Char :=
  if c.toNat < 128 then [c.toUpper]
  else
    match upperExpansions.find? (·.1 == c.toNat) with
    | some (_, codes) => codes.map Char.ofNat
    | none => [Char.ofNat (shiftBy upperRuns c.toNat)]

/-- Has a case. -/
def isCased (c : Char) : Bool :=
  inRanges casedRanges c.toNat

/-- Is passed over when the neighbours of a sigma are looked for. -/
def isCaseIgnorable (c : Char) : Bool :=
  inRanges caseIgnorableRanges c.toNat

/-- Whether the first character that counts has a case. -/
def meetsCased (cs : List Char) : Bool :=
  match cs.dropWhile isCaseIgnorable with
  | [] => false
  | c :: _ => isCased c

/-- Lower case of the characters `cs` that follow the characters `before`, nearest first. A capital
sigma after a cased character and before none becomes the final sigma. -/
def lowerAfter (before : List Char) : List Char → List Char
  | [] => []
  | c :: cs =>
    (if c.toNat = 0x3A3 ∧ meetsCased before = true ∧ meetsCased cs = false then [Char.ofNat 0x3C2]
     else lowerChar c) ++ lowerAfter (c :: before) cs

/-- The lower-case form of a text. -/
def lower (s : String) : String :=
  String.ofList (lowerAfter [] s.toList)

/-- The upper-case form of a text. -/
def upper (s : String) : String :=
  String.ofList (s.toList.flatMap upperChar)

/-- Equality of texts that differ at most in case. -/
def sameFolded (s t : String) : Bool :=
  lower s == lower t

end QueueScript.Text
