/-!
# Blank characters

White space as scripts see it: the ASCII controls from tab to carriage return, the space, the
no-break space, the byte order mark, the line and paragraph separators and every space separator.
The same class separates words, is trimmed from texts and may stand between the tokens of an
object literal.
-/

namespace QueueScript.Text

/-- The code points of white space, as closed ranges in ascending order. -/
def blankRanges : List (Nat × Nat) :=
  [(0x9, 0xD), (0x20, 0x20), (0xA0, 0xA0), (0x1680, 0x1680), (0x2000, 0x200A), (0x2028, 0x2029),
   (0x202F, 0x202F), (0x205F, 0x205F), (0x3000, 0x3000), (0xFEFF, 0xFEFF)]

/-- Membership of a code point in a list of closed ranges. -/
def inRanges (ranges : List (Nat × Nat)) (n : Nat) : Bool :=
  ranges.any fun r => decide (r.1 ≤ n) && decide (n ≤ r.2)

/-- White space. -/
def isBlank (c : Char) : Bool :=
  inRanges blankRanges c.toNat

/-- The text without the white space at its two ends, on characters. -/
def trimChars (cs : List Char) : List Char :=
  ((cs.dropWhile isBlank).reverse.dropWhile isBlank).reverse

/-- The text without the white space at its two ends. -/
def trim (s : String) : String :=
  String.ofList (trimChars s.toList)

/-- Whether the text has any white space. -/
def hasBlank (s : String) : Bool :=
  s.toList.any isBlank

/-- Splitting at every character of a class: one piece more than there are such characters. -/
def splitChars (p : Char → Bool) : List Char → List (List Char)
  | [] => [[]]
  | c :: cs =>
    if p c then [] :: splitChars p cs
    else
      match splitChars p cs with
      | [] => [[c]]
      | piece :: pieces => (c :: piece) :: pieces

/-- Splitting always leaves a piece. -/
theorem splitChars_ne_nil (p : Char → Bool) (cs : List Char) : splitChars p cs ≠ [] := by
  cases cs with
  | nil => simp [splitChars]
  | cons c cs =>
    unfold splitChars
    split
    · simp
    · split <;> simp

/-- The pieces of a text between occurrences of a character. -/
def splitAt (sep : Char) (s : String) : List String :=
  (splitChars (· == sep) s.toList).map String.ofList

/-- Removes a leading piece of text, if it is there. -/
def stripLead : List Char → List Char → Option (List Char)
  | [], cs => some cs
  | _ :: _, [] => none
  | l :: ls, c :: cs => if l = c then stripLead ls cs else none

/-- What a stripped lead leaves is the rest of the text. -/
theorem stripLead_eq_some {ls cs rest : List Char} (h : stripLead ls cs = some rest) :
    cs = ls ++ rest := by
  induction ls generalizing cs with
  | nil => simpa [stripLead] using h
  | cons l ls ih =>
    cases cs with
    | nil => simp [stripLead] at h
    | cons c cs =>
      simp only [stripLead] at h
      split at h
      · next hc => simp [hc, ih h]
      · simp at h

/-- Splitting at every occurrence of a non-empty separator, found from the left. -/
def splitOnChars (sep : List Char) (cs : List Char) : List (List Char) :=
  go cs []
where
  /-- The pieces of what is left, the first one opened by the characters already passed. -/
  go (cs : List Char) (piece : List Char) : List (List Char) :=
    match cs with
    | [] => [piece.reverse]
    | c :: rest =>
      match h : stripLead sep (c :: rest) with
      | some after =>
        if hs : sep = [] then go rest (c :: piece)
        else
          have : after.length < (c :: rest).length := by
            have := congrArg List.length (stripLead_eq_some h)
            have hpos : 0 < sep.length := List.length_pos_iff.2 hs
            simp only [List.length_append] at this
            omega
          piece.reverse :: go after []
      | none => go rest (c :: piece)
  termination_by cs.length
  decreasing_by
    · exact Nat.lt_succ_self _
    · assumption
    · exact Nat.lt_succ_self _

end QueueScript.Text
