import QueueScript.Json5.Lexeme
import QueueScript.Value.Json

/-!
# Quoted texts are read as they were

The escaping of a text and the scanner of quoted texts meet in a few characters only: a quote, a
backslash and the controls are written as escapes, and everything else stands for itself. The line
and paragraph separators are not escaped, and the scanner takes them as they are.
-/

namespace QueueScript.Json5

/-- A reader has taken its word: it gives `a`, and `rest` is what is left of the text. -/
def Reads {α : Type} (result : Except Fault (α × Cursor)) (a : α) (rest : List Char) : Prop :=
  ∃ line column, result = .ok (a, ⟨rest, line, column⟩)

/-! ## Code points -/

/-- No character is half of a pair. -/
theorem not_surrogate (c : Char) : ¬(0xD800 ≤ c.toNat ∧ c.toNat ≤ 0xDFFF) := by
  have hvalid : c.toNat < 0xD800 ∨ 0xDFFF < c.toNat ∧ c.toNat < 0x110000 := c.valid
  omega

/-- The code points of a text stand for its characters. -/
theorem charsOfCodes_toNat (cs : List Char) : charsOfCodes (cs.map Char.toNat) = cs := by
  induction cs with
  | nil => rfl
  | cons c rest ih =>
    have hc := not_surrogate c
    cases rest with
    | nil => simp [charsOfCodes, hc]
    | cons d rest =>
      have hpair : ¬(0xD800 ≤ c.toNat ∧ c.toNat ≤ 0xDBFF ∧ 0xDC00 ≤ d.toNat ∧ d.toNat ≤ 0xDFFF) := by
        omega
      simp only [List.map_cons, charsOfCodes, hpair, hc, if_false, Char.ofNat_toNat]
      simpa using ih

/-! ## Escapes -/

/-- A hexadecimal digit has the value it was written for. -/
theorem hexValue_hexDigit : ∀ n < 16, Text.hexValue (Text.hexDigit n) = some n := by
  decide

/-- The scanner reads an escape of four digits, the first two of them zeros, as the code point that
the others spell. -/
theorem scanQuoted_code {a b : Char} {high low : Nat} (ha : Text.hexValue a = some high)
    (hb : Text.hexValue b = some low) (codes : List Nat) (rest : List Char) (line column : Nat) :
    ∃ line' column', scanQuoted '"' .plain codes ('\\' :: 'u' :: '0' :: '0' :: a :: b :: rest)
      line column = scanQuoted '"' .plain ((high * 16 + low) :: codes) rest line' column' := by
  have zero : Text.hexValue '0' = some 0 := rfl
  have mark : letterEscape 'u' = none := rfl
  simp only [scanQuoted, ↓reduceIte, mark, Char.reduceEq, zero, Nat.reduceLeDiff,
    Nat.add_one_sub_one, ha, hb, Std.le_refl, Nat.zero_mul, Nat.add_zero, Nat.zero_add]
  exact ⟨_, _, rfl⟩

/-- The scanner reads the escape of a character as that character. -/
theorem scanQuoted_escapeChar (c : Char) (codes : List Nat) (rest : List Char) (line column : Nat) :
    ∃ line' column', scanQuoted '"' .plain codes (Value.escapeChar c ++ rest) line column =
      scanQuoted '"' .plain (c.toNat :: codes) rest line' column' := by
  unfold Value.escapeChar
  split
  case isTrue h => exact ⟨_, _, by subst h; rfl⟩
  split
  case isTrue h => exact ⟨_, _, by subst h; rfl⟩
  next hq hb =>
  split
  case isFalse h =>
    have hn : c ≠ '\n' := by rintro rfl; exact h (by decide)
    have hr : c ≠ '\r' := by rintro rfl; exact h (by decide)
    simp only [List.cons_append, List.nil_append, scanQuoted, hq, hb, hn, hr, or_self, if_false]
    exact ⟨_, _, rfl⟩
  next hcontrol =>
  split
  case isTrue h => exact ⟨_, _, by rw [h]; rfl⟩
  split
  case isTrue h => exact ⟨_, _, by rw [h]; rfl⟩
  split
  case isTrue h => exact ⟨_, _, by subst h; rfl⟩
  split
  case isTrue h => exact ⟨_, _, by subst h; rfl⟩
  split
  case isTrue h => exact ⟨_, _, by subst h; rfl⟩
  have high := hexValue_hexDigit (c.toNat / 16) (by omega)
  have low := hexValue_hexDigit (c.toNat % 16) (by omega)
  have value : c.toNat / 16 * 16 + c.toNat % 16 = c.toNat := by omega
  simpa only [value, List.cons_append, List.nil_append] using
    scanQuoted_code high low codes rest line column

/-- The scanner reads the escapes of a text as its code points, up to the closing quote. -/
theorem scanQuoted_escaped (cs : List Char) (codes : List Nat) (rest : List Char)
    (line column : Nat) :
    Reads (scanQuoted '"' .plain codes (cs.flatMap Value.escapeChar ++ '"' :: rest) line column)
      (codes.reverse ++ cs.map Char.toNat) rest := by
  induction cs generalizing codes line column with
  | nil => exact ⟨_, _, by simp [scanQuoted, Cursor.after]; exact ⟨rfl, rfl⟩⟩
  | cons c cs ih =>
    obtain ⟨line', column', hc⟩ := scanQuoted_escapeChar c codes
      (cs.flatMap Value.escapeChar ++ '"' :: rest) line column
    rw [List.flatMap_cons, List.append_assoc, hc]
    simpa using ih (c.toNat :: codes) line' column'

/-- The characters of a quoted text. -/
theorem toList_quoted (s : String) :
    (Value.quoted s).toList = '"' :: (s.toList.flatMap Value.escapeChar ++ ['"']) := by
  simp [Value.quoted]

/-- A quoted text is read as the text that was quoted. -/
theorem reads_quoted (s : String) {k : Cursor} {rest : List Char}
    (h : k.rest = (Value.quoted s).toList ++ rest) : Reads (k.quoted '"') s rest := by
  have hk : k.rest = '"' :: (s.toList.flatMap Value.escapeChar ++ '"' :: rest) := by
    simpa [toList_quoted] using h
  have hinside : k.next.rest = s.toList.flatMap Value.escapeChar ++ '"' :: rest := by
    simp [Cursor.next, Cursor.after, hk]
  obtain ⟨line, column, hscan⟩ :=
    scanQuoted_escaped s.toList [] rest k.next.line k.next.column
  refine ⟨line, column, ?_⟩
  simp only [Cursor.quoted, hinside, hscan]
  simp [charsOfCodes_toNat, bind, Except.bind, pure, Except.pure]

end QueueScript.Json5
