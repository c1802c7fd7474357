import QueueScript.Engine.Host
import QueueScript.Proofs.Json.Numbers
import QueueScript.Proofs.Json.Objects

/-!
# Values survive their JSON form

What is written as JSON is read back as the value it was. The values are those that JSON can say:
no value, truth values, texts, finite numbers, lists and plain objects. The reader knows a larger
grammar than the writer uses, and needs to be followed only where the writer goes.
-/

namespace QueueScript.Value

/-- The values that JSON can say. The zero with a sign is left out, as it is written without its
sign. The fields of an object stand in the order that objects keep them in. -/
inductive IsJson : Value → Prop
  | null : IsJson .null
  | bool (b : Bool) : IsJson (.bool b)
  | num {x : Float} (finite : Number.isFinite x = true)
      (signless : Number.isNegativeZero x = false) : IsJson (.num x)
  | str (s : String) : IsJson (.str s)
  | list {items : List Value} (each : ∀ v ∈ items, IsJson v) : IsJson (.list items)
  | obj {fields : List (String × Value)} (ordered : fieldsOf fields = fields)
      (each : ∀ f ∈ fields, IsJson f.2) : IsJson (.obj fields)

/-- Every object made of values that JSON can say is one of them, whatever its keys. -/
theorem IsJson.ofPairs {pairs : List (String × Value)} (each : ∀ f ∈ fieldsOf pairs, f.2.IsJson) :
    (Value.ofPairs pairs).IsJson :=
  .obj (fieldsOf_fieldsOf pairs) each

mutual

/-- The numbers inside a value. -/
def numbers : Value → List Float
  | .num x => [x]
  | .list items => itemNumbers items
  | .obj fields => fieldNumbers fields
  | _ => []

/-- The numbers inside the items of a list. -/
def itemNumbers : List Value → List Float
  | [] => []
  | v :: rest => numbers v ++ itemNumbers rest

/-- The numbers inside the fields of an object. -/
def fieldNumbers : List (String × Value) → List Float
  | [] => []
  | (_, v) :: rest => numbers v ++ fieldNumbers rest

end

theorem mem_itemNumbers {v : Value} {items : List Value} (h : v ∈ items) {x : Float}
    (hx : x ∈ v.numbers) : x ∈ itemNumbers items := by
  induction items with
  | nil => cases h
  | cons w items ih =>
    rw [itemNumbers]
    rcases List.mem_cons.1 h with rfl | h
    · exact List.mem_append_left _ hx
    · exact List.mem_append_right _ (ih h)

theorem mem_fieldNumbers {f : String × Value} {fields : List (String × Value)} (h : f ∈ fields)
    {x : Float} (hx : x ∈ f.2.numbers) : x ∈ fieldNumbers fields := by
  induction fields with
  | nil => cases h
  | cons g fields ih =>
    rw [fieldNumbers]
    rcases List.mem_cons.1 h with rfl | h
    · exact List.mem_append_left _ hx
    · exact List.mem_append_right _ (ih h)

/-- There is nothing to reveal in a value that JSON can say. -/
theorem IsJson.reveal_eq {v : Value} (h : v.IsJson) (read : Nat → List Value) :
    v.reveal read = v := by
  induction h with
  | null | bool | num | str => rfl
  | @list items _ ih =>
    have hitems : revealItems read items = items := by
      clear * - ih
      induction items with
      | nil => rfl
      | cons v items rest =>
        rw [revealItems, ih v List.mem_cons_self,
          rest fun w hw => ih w (List.mem_cons_of_mem _ hw)]
    rw [reveal, hitems]
  | @obj fields _ _ ih =>
    have hfields : revealFields read fields = fields := by
      clear * - ih
      induction fields with
      | nil => rfl
      | cons f fields rest =>
        rw [revealFields, ih f List.mem_cons_self,
          rest fun g hg => ih g (List.mem_cons_of_mem _ hg)]
    rw [reveal, hfields]

/-! ## Writing -/

theorem toList_list (items : List Value) : (Value.list items).json.toList =
    '[' :: ((String.intercalate "," (jsonItems items)).toList ++ [']']) := by
  simp only [json, String.toList_append]
  rfl

theorem toList_obj (fields : List (String × Value)) : (Value.obj fields).json.toList =
    '\x7b' :: ((String.intercalate "," (jsonFields fields)).toList ++ ['\x7d']) := by
  simp only [json, jsonObject, String.toList_append]
  rfl

theorem toList_commas (t u : String) (texts : List String) :
    (String.intercalate "," (t :: u :: texts)).toList =
      t.toList ++ ',' :: (String.intercalate "," (u :: texts)).toList := by
  rw [String.intercalate_cons_cons]
  simp

/-- The first character of a value as it is written opens a word and closes nothing. -/
theorem IsJson.head {v : Value} (h : v.IsJson) :
    ∃ c cs, v.json.toList = c :: cs ∧ Text.isBlank c = false ∧ c ≠ '/' ∧ c ≠ ']' := by
  cases h with
  | null => exact ⟨'n', "ull".toList, rfl, rfl, by decide, by decide⟩
  | bool b =>
    cases b
    · exact ⟨'f', "alse".toList, rfl, rfl, by decide, by decide⟩
    · exact ⟨'t', "rue".toList, rfl, rfl, by decide, by decide⟩
  | @num x finite _ =>
    obtain ⟨s, hs⟩ := Number.text_spelled finite
    obtain ⟨d, ds, hwhole, -⟩ := s.exists_whole
    have hjson : (Value.num x).json.toList = s.chars := by
      rw [json, jsonNumber, if_pos finite, hs]
    obtain ⟨c, cs, hc⟩ : ∃ c cs, s.chars = c :: cs := by
      refine List.exists_cons_of_ne_nil ?_
      simp [Number.Spelling.chars, Number.Spelling.body, hwhole]
    have hmem : c ∈ s.chars := hc ▸ List.mem_cons_self
    refine ⟨c, cs, hjson.trans hc, s.not_blank hmem, ?_, ?_⟩ <;> rintro rfl <;>
      exact s.not_mem_chars rfl hmem
  | str s => exact ⟨'"', _, Json5.toList_quoted s, rfl, by decide, by decide⟩
  | list => exact ⟨'[', _, toList_list _, rfl, by decide, by decide⟩
  | obj => exact ⟨'\x7b', _, toList_obj _, rfl, by decide, by decide⟩

/-- A field that is not an empty place is written as a member. -/
theorem jsonFields_cons {f : String × Value} (fields : List (String × Value)) (h : f.2.IsJson) :
    jsonFields (f :: fields) = (quoted f.1 ++ ":" ++ json f.2) :: jsonFields fields := by
  obtain ⟨k, v⟩ := f
  cases h <;> rfl

end QueueScript.Value

namespace QueueScript.Json5

open Value

/-! ## Reading -/

/-- Between words that nothing separates, there is no gap. -/
theorem word_eq {k : Cursor} {c : Char} {rest : List Char} (h : k.rest = c :: rest)
    (hc : Text.isBlank c = false ∧ c ≠ '/') : k.word = .ok k := by
  obtain ⟨chars, line, column⟩ := k
  subst h
  simp [Cursor.word, skipGap, hc.1, hc.2]

/-- The place after a character has the characters after it. -/
theorem next_rest {k : Cursor} {c : Char} {rest : List Char} (h : k.rest = c :: rest) :
    k.next.rest = rest := by
  rw [Cursor.next, h]
  simp only [Cursor.after]
  split <;> rfl

/-- A fixed word is read. -/
theorem reads_literal {k : Cursor} {rest : List Char} (word : List Char)
    (h : k.rest = word ++ rest) :
    ∃ line column, k.literal word = .ok ⟨rest, line, column⟩ := by
  induction word generalizing k with
  | nil => exact ⟨k.line, k.column, by rw [Cursor.literal, ← List.nil_append rest, ← h]⟩
  | cons c word ih =>
    obtain ⟨line, column, hread⟩ := ih (next_rest h)
    exact ⟨line, column, by rw [Cursor.literal, h]; simpa using hread⟩

/-- A spelled number is read with its sign. -/
theorem reads_number (s : Number.Spelling) {fuel : Nat} {k : Cursor} {rest : List Char}
    (h : k.rest = s.chars ++ rest) (hrest : Closes rest) :
    Reads (readValue (fuel + 1) k) (.num s.value) rest := by
  obtain ⟨d, ds, hwhole, hd⟩ := s.exists_whole
  cases hs : s.negative
  · have hbody : k.rest = s.body ++ rest := by simpa [Number.Spelling.chars, hs] using h
    have hfirst : k.rest = d :: (ds ++ (Number.fractionChars s.fraction ++
        Number.exponentChars s.exponent) ++ rest) := by
      rw [hbody, Number.Spelling.body, hwhole]
      rfl
    obtain ⟨line, column, hread⟩ := reads_unsigned s hbody hrest
    have hvalue : s.value = s.size := by simp [Number.Spelling.value, Number.withSign, hs]
    have hother {c : Char} {cs : List Char} (h : k.rest = c :: cs)
        (hc : Number.isDigit c = false) : False := by
      rw [hfirst] at h
      rw [← (List.cons.inj h).1, hd] at hc
      cases hc
    refine ⟨line, column, ?_⟩
    rw [readValue]
    split
    case h_10 => simp [hread, hvalue, bind, Except.bind, pure, Except.pure]
    all_goals next heq => exact (hother heq rfl).elim
  · have hminus : k.rest = '-' :: (s.body ++ rest) := by simpa [Number.Spelling.chars, hs] using h
    obtain ⟨line, column, hread⟩ := reads_unsigned s (next_rest hminus) hrest
    have hvalue : s.value = -s.size := by simp [Number.Spelling.value, Number.withSign, hs]
    refine ⟨line, column, ?_⟩
    rw [readValue]
    simp [hminus, hread, hvalue, bind, Except.bind, pure, Except.pure]

/-- The reader reads a value back from its JSON form, wherever the form stands. -/
def ReadBack (v : Value) : Prop :=
  ∀ fuel k rest, k.rest = v.json.toList ++ rest → v.json.toList.length ≤ fuel → Closes rest →
    Reads (readValue fuel k) v rest

/-- A JSON form has a character, so that the reader always has fuel for its first step. -/
theorem ReadBack.intro {v : Value} (h : v.IsJson)
    (hread : ∀ fuel k rest, k.rest = v.json.toList ++ rest → v.json.toList.length ≤ fuel + 1 →
      Closes rest → Reads (readValue (fuel + 1) k) v rest) : ReadBack v := by
  intro fuel k rest hk hfuel hrest
  obtain ⟨c, cs, hchars, -⟩ := h.head
  cases fuel with
  | zero => simp [hchars] at hfuel
  | succ fuel => exact hread fuel k rest hk hfuel hrest

/-- A value is read up to what follows it, with no gap before it or after it. -/
theorem ReadBack.followed {v : Value} (hv : ReadBack v) (hjson : v.IsJson) {fuel : Nat} {k : Cursor}
    {d : Char} {rest : List Char} (hk : k.rest = v.json.toList ++ d :: rest)
    (hd : d ∈ [',', ']', '\x7d']) (hfuel : v.json.toList.length ≤ fuel) :
    k.word = .ok k ∧ ∃ after : Cursor, after.rest = d :: rest ∧
      readValue fuel k = .ok (v, after) ∧ after.word = .ok after := by
  obtain ⟨c, cs, hchars, hblank, hslash, -⟩ := hjson.head
  have hfirst : k.rest = c :: (cs ++ d :: rest) := by simpa [hchars] using hk
  have hcloses : Closes (d :: rest) := by
    rintro x hx
    obtain rfl : d = x := Option.some.inj hx
    exact hd
  have hgap : Text.isBlank d = false ∧ d ≠ '/' := by
    simp only [List.mem_cons, List.not_mem_nil, or_false] at hd
    rcases hd with rfl | rfl | rfl <;> exact ⟨rfl, by decide⟩
  obtain ⟨line, column, hread⟩ := hv fuel k _ hk hfuel hcloses
  exact ⟨word_eq hfirst ⟨hblank, hslash⟩, _, rfl, hread, word_eq rfl hgap⟩

/-- One step of the reader of lists, up to what follows the item. -/
theorem readItems_item {v : Value} (hjson : v.IsJson) (hv : ReadBack v) {fuel : Nat} {k : Cursor}
    {d : Char} {rest : List Char} (hk : k.rest = v.json.toList ++ d :: rest) (hd : d = ',' ∨ d = ']')
    (hfuel : v.json.toList.length ≤ fuel) :
    ∃ after : Cursor, after.rest = d :: rest ∧ readItems (fuel + 1) k =
      if d = ',' then (do
        let (vs, after) ← readItems fuel after.next
        pure (v :: vs, after))
      else .ok ([v], after.next) := by
  have hclosing : d ∈ [',', ']', '\x7d'] := by rcases hd with rfl | rfl <;> decide
  obtain ⟨hword, after, hafter, hread, hgap⟩ := hv.followed hjson hk hclosing hfuel
  obtain ⟨c, cs, hchars, -, -, hbracket⟩ := hjson.head
  have hfirst : k.rest = c :: (cs ++ d :: rest) := by simpa [hchars] using hk
  refine ⟨after, hafter, ?_⟩
  rw [readItems, hword]
  simp only [bind, Except.bind]
  split
  · next heq => exact absurd (List.cons.inj (hfirst.symm.trans heq)).1 hbracket
  · next heq => exact absurd (hfirst.symm.trans heq) (by simp)
  · rcases hd with rfl | rfl <;> simp [hread, hgap, hafter, pure, Except.pure]

/-- The reader reads the items of a list back. -/
theorem reads_items {items : List Value} (each : ∀ v ∈ items, v.IsJson ∧ ReadBack v) {fuel : Nat}
    {k : Cursor} {rest : List Char}
    (hk : k.rest = (String.intercalate "," (jsonItems items)).toList ++ ']' :: rest)
    (hfuel : (String.intercalate "," (jsonItems items)).toList.length < fuel) :
    Reads (readItems fuel k) items rest := by
  induction items generalizing fuel k with
  | nil =>
    obtain ⟨fuel, rfl⟩ : ∃ n, fuel = n + 1 := ⟨fuel - 1, by omega⟩
    have hclose : k.rest = ']' :: rest := by simpa [jsonItems] using hk
    refine ⟨k.next.line, k.next.column, ?_⟩
    rw [readItems, word_eq hclose ⟨rfl, by decide⟩]
    simp only [bind, Except.bind, hclose, pure, Except.pure]
    rw [← next_rest hclose]
  | cons v items ih =>
    obtain ⟨fuel, rfl⟩ : ∃ n, fuel = n + 1 := ⟨fuel - 1, by omega⟩
    obtain ⟨hjson, hv⟩ := each v List.mem_cons_self
    cases items with
    | nil =>
      simp only [jsonItems, String.intercalate_singleton] at hk hfuel
      have hle : v.json.toList.length ≤ fuel := by omega
      obtain ⟨after, hafter, hstep⟩ := readItems_item hjson hv hk (.inr rfl) hle
      refine ⟨after.next.line, after.next.column, ?_⟩
      rw [hstep, if_neg (by decide), ← next_rest hafter]
    | cons w items =>
      rw [jsonItems, jsonItems, toList_commas, ← jsonItems, List.append_assoc] at hk
      rw [jsonItems, jsonItems, toList_commas, ← jsonItems, List.length_append,
        List.length_cons] at hfuel
      have hle : v.json.toList.length ≤ fuel := by omega
      have hlt : (String.intercalate "," (jsonItems (w :: items))).toList.length < fuel := by omega
      obtain ⟨after, hafter, hstep⟩ := readItems_item hjson hv hk (.inl rfl) hle
      obtain ⟨line, column, hread⟩ :=
        ih (fun u hu => each u (List.mem_cons_of_mem _ hu)) (next_rest hafter) hlt
      refine ⟨line, column, ?_⟩
      rw [hstep, if_pos rfl]
      simp only [bind, Except.bind, hread]
      rfl

/-- One step of the reader of objects, up to what follows the member. -/
theorem readMembers_member {key : String} {v : Value} (hjson : v.IsJson) (hv : ReadBack v)
    {fuel : Nat} {k : Cursor} {d : Char} {rest : List Char}
    (hk : k.rest = (quoted key ++ ":" ++ v.json).toList ++ d :: rest) (hd : d = ',' ∨ d = '\x7d')
    (hfuel : (quoted key ++ ":" ++ v.json).toList.length ≤ fuel) :
    ∃ after : Cursor, after.rest = d :: rest ∧ readMembers (fuel + 1) k =
      if d = ',' then (do
        let (ps, after) ← readMembers fuel after.next
        pure ((key, v) :: ps, after))
      else .ok ([(key, v)], after.next) := by
  have hkey : k.rest = (quoted key).toList ++ ':' :: (v.json.toList ++ d :: rest) := by
    simpa using hk
  have hfirst : k.rest = '"' :: (key.toList.flatMap escapeChar ++ ['"'] ++
      ':' :: (v.json.toList ++ d :: rest)) := by
    rw [hkey, toList_quoted]
    rfl
  obtain ⟨line, column, hquoted⟩ := reads_quoted key hkey
  have hcolon := word_eq (k := ⟨':' :: (v.json.toList ++ d :: rest), line, column⟩) rfl
    ⟨rfl, by decide⟩
  have hclosing : d ∈ [',', ']', '\x7d'] := by rcases hd with rfl | rfl <;> decide
  have hle : v.json.toList.length ≤ fuel := by
    simp only [String.toList_append, List.length_append] at hfuel
    omega
  have hinside : (Cursor.next ⟨':' :: (v.json.toList ++ d :: rest), line, column⟩).rest =
      v.json.toList ++ d :: rest := next_rest rfl
  obtain ⟨hword, after, hafter, hread, hgap⟩ := hv.followed hjson hinside hclosing hle
  refine ⟨after, hafter, ?_⟩
  rw [readMembers, word_eq hfirst ⟨rfl, by decide⟩]
  simp only [bind, Except.bind]
  split
  · next heq => exact absurd (List.cons.inj (hfirst.symm.trans heq)).1 (by decide)
  · next heq => exact absurd (hfirst.symm.trans heq) (by simp)
  · next heq =>
    obtain rfl := (List.cons.inj (hfirst.symm.trans heq)).1
    rw [if_pos (Or.inl rfl), hquoted]
    simp only [hcolon, hword, hread, hgap, hafter]
    rcases hd with rfl | rfl <;> simp [pure, Except.pure]

/-- The reader reads the members of an object back. -/
theorem reads_members {fields : List (String × Value)}
    (each : ∀ f ∈ fields, f.2.IsJson ∧ ReadBack f.2) {fuel : Nat} {k : Cursor} {rest : List Char}
    (hk : k.rest = (String.intercalate "," (jsonFields fields)).toList ++ '\x7d' :: rest)
    (hfuel : (String.intercalate "," (jsonFields fields)).toList.length < fuel) :
    Reads (readMembers fuel k) fields rest := by
  induction fields generalizing fuel k with
  | nil =>
    obtain ⟨fuel, rfl⟩ : ∃ n, fuel = n + 1 := ⟨fuel - 1, by omega⟩
    have hclose : k.rest = '\x7d' :: rest := by simpa [jsonFields] using hk
    refine ⟨k.next.line, k.next.column, ?_⟩
    rw [readMembers, word_eq hclose ⟨rfl, by decide⟩]
    simp only [bind, Except.bind, hclose, pure, Except.pure]
    rw [← next_rest hclose]
  | cons f fields ih =>
    obtain ⟨fuel, rfl⟩ : ∃ n, fuel = n + 1 := ⟨fuel - 1, by omega⟩
    obtain ⟨hjson, hv⟩ := each f List.mem_cons_self
    rw [jsonFields_cons _ hjson] at hk hfuel
    cases fields with
    | nil =>
      simp only [jsonFields, String.intercalate_singleton] at hk hfuel
      obtain ⟨after, hafter, hstep⟩ :=
        readMembers_member hjson hv hk (.inr rfl) (Nat.le_of_lt_succ hfuel)
      refine ⟨after.next.line, after.next.column, ?_⟩
      rw [hstep, if_neg (by decide), ← next_rest hafter]
    | cons g fields =>
      have hg := (each g (by simp)).1
      rw [jsonFields_cons _ hg, toList_commas, ← jsonFields_cons _ hg, List.append_assoc] at hk
      rw [jsonFields_cons _ hg, toList_commas, ← jsonFields_cons _ hg, List.length_append,
        List.length_cons] at hfuel
      have hlt : (String.intercalate "," (jsonFields (g :: fields))).toList.length < fuel := by
        omega
      have hle : (quoted f.1 ++ ":" ++ f.2.json).toList.length ≤ fuel := by omega
      obtain ⟨after, hafter, hstep⟩ := readMembers_member hjson hv hk (.inl rfl) hle
      obtain ⟨line, column, hread⟩ :=
        ih (fun u hu => each u (List.mem_cons_of_mem _ hu)) (next_rest hafter) hlt
      refine ⟨line, column, ?_⟩
      rw [hstep, if_pos rfl]
      simp only [bind, Except.bind, hread]
      rfl

/-- The reader reads a value back wherever its JSON form stands. -/
theorem readBack {v : Value} (h : v.IsJson)
    (numbers : ∀ x ∈ v.numbers, Number.ofLiteral (Number.text x) = x) : ReadBack v := by
  induction h with
  | null =>
    refine .intro .null fun fuel k rest hk _ _ => ?_
    have hfirst : k.rest = 'n' :: ("ull".toList ++ rest) := hk
    obtain ⟨line, column, hword⟩ := reads_literal ['n', 'u', 'l', 'l'] hk
    exact ⟨line, column, by simp [readValue, hfirst, hword, bind, Except.bind, pure, Except.pure]⟩
  | bool b =>
    refine .intro (.bool b) fun fuel k rest hk _ _ => ?_
    cases b
    · have hfirst : k.rest = 'f' :: ("alse".toList ++ rest) := hk
      obtain ⟨line, column, hword⟩ := reads_literal ['f', 'a', 'l', 's', 'e'] hk
      exact ⟨line, column, by simp [readValue, hfirst, hword, bind, Except.bind, pure, Except.pure]⟩
    · have hfirst : k.rest = 't' :: ("rue".toList ++ rest) := hk
      obtain ⟨line, column, hword⟩ := reads_literal ['t', 'r', 'u', 'e'] hk
      exact ⟨line, column, by simp [readValue, hfirst, hword, bind, Except.bind, pure, Except.pure]⟩
  | @num x finite signless =>
    refine .intro (.num finite signless) fun fuel k rest hk _ hrest => ?_
    obtain ⟨s, hs⟩ := Number.text_spelled finite
    have hchars : k.rest = s.chars ++ rest := by
      rw [hk, json, jsonNumber, if_pos finite, hs]
    have hvalue : s.value = x := by
      rw [← Number.ofLiteral_spelled, hs, String.ofList_toList]
      exact numbers x (by simp [Value.numbers])
    exact hvalue ▸ reads_number s hchars hrest
  | str s =>
    refine .intro (.str s) fun fuel k rest hk _ _ => ?_
    have hfirst : k.rest = '"' :: (s.toList.flatMap escapeChar ++ ['"'] ++ rest) := by
      rw [hk, json, toList_quoted]
      rfl
    obtain ⟨line, column, hquoted⟩ := reads_quoted s hk
    exact ⟨line, column, by
      simp [readValue, hfirst, hquoted, bind, Except.bind, pure, Except.pure]⟩
  | @list items each ih =>
    refine .intro (.list each) fun fuel k rest hk hfuel _ => ?_
    have back : ∀ v ∈ items, v.IsJson ∧ ReadBack v := fun v hv =>
      ⟨each v hv, ih v hv fun x hx => numbers x (mem_itemNumbers hv hx)⟩
    rw [toList_list] at hk hfuel
    have hfirst : k.rest =
        '[' :: ((String.intercalate "," (jsonItems items)).toList ++ ']' :: rest) := by
      simpa using hk
    have hlt : (String.intercalate "," (jsonItems items)).toList.length < fuel := by
      simp only [List.length_cons, List.length_append, List.length_nil] at hfuel
      omega
    obtain ⟨line, column, hread⟩ := reads_items back (next_rest hfirst) hlt
    exact ⟨line, column, by simp [readValue, hfirst, hread, bind, Except.bind, pure, Except.pure]⟩
  | @obj fields ordered each ih =>
    refine .intro (.obj ordered each) fun fuel k rest hk hfuel _ => ?_
    have back : ∀ f ∈ fields, f.2.IsJson ∧ ReadBack f.2 := fun f hf =>
      ⟨each f hf, ih f hf fun x hx => numbers x (mem_fieldNumbers hf hx)⟩
    rw [toList_obj] at hk hfuel
    have hfirst : k.rest =
        '\x7b' :: ((String.intercalate "," (jsonFields fields)).toList ++ '\x7d' :: rest) := by
      simpa using hk
    have hlt : (String.intercalate "," (jsonFields fields)).toList.length < fuel := by
      simp only [List.length_cons, List.length_append, List.length_nil] at hfuel
      omega
    obtain ⟨line, column, hread⟩ := reads_members back (next_rest hfirst) hlt
    exact ⟨line, column, by
      simp [readValue, hfirst, hread, ofPairs, ordered, bind, Except.bind, pure, Except.pure]⟩

/-- A value is read back from its JSON form. -/
theorem parse_json {v : Value} (h : v.IsJson)
    (numbers : ∀ x ∈ v.numbers, Number.ofLiteral (Number.text x) = x) :
    parse v.json = .ok v := by
  obtain ⟨c, cs, hchars, hblank, hslash, -⟩ := h.head
  have hword : (Cursor.start v.json).word = .ok (Cursor.start v.json) :=
    word_eq hchars ⟨hblank, hslash⟩
  have hfuel : v.json.toList.length ≤ 2 * v.json.length + 2 := by
    rw [String.length_toList]
    omega
  obtain ⟨line, column, hread⟩ := readBack h numbers (2 * v.json.length + 2)
    (Cursor.start v.json) [] (by simp [Cursor.start]) hfuel (by simp [Closes])
  simp only [parse, bind, Except.bind, hword, hread]
  rfl

end QueueScript.Json5

namespace QueueScript.Tags

open Value

/-- The JSON form of a value gives the value back: `<base.to_json.from_json>` is `<base>`, for every
value that JSON can say, down to the order of the fields of its objects. Of the numbers in it, it is
assumed that their texts read as these numbers. -/
theorem to_json_then_from_json {v : Value} (json : v.IsJson)
    (numbers : ∀ x ∈ v.numbers, Number.ofLiteral (Number.text x) = x) {e : Engine}
    (writes : e.attributes.get? "to_json" = some .toJson)
    (reads : e.attributes.get? "from_json" = some .fromJson) {first second : ReadySegment}
    (hfirst : Text.lower first.name = "to_json") (hsecond : Text.lower second.name = "from_json") :
    applySegments v [first, second] e = (.ok v, e) := by
  have hname : name [first, second] = "to_json" := hfirst
  have hlast : name [second] = "from_json" := hsecond
  have hwrite : applySegment v [first, second] e = (.ok (.str v.json), e) := by
    have hobject : v.mapAsObject = v := by cases json <;> rfl
    simp only [applySegment, Action.reveal, Engine.reveal, json.reveal_eq, hname, writes,
      attributeValue, hobject, Action.look, bind, Action.andThen, pure, Action.done]
  have hread : applySegment (.str v.json) [second] e = (.ok v, e) := by
    have htext : (Value.str v.json).text = v.json := rfl
    simp only [applySegment, Action.reveal, Engine.reveal, (IsJson.str v.json).reveal_eq, hlast,
      reads, attributeValue, htext, Json5.parse_json json numbers, Action.ofExcept, Action.look,
      bind, Action.andThen, Action.done]
  simp only [applySegments, hwrite, hread, bind, Action.andThen, pure, Action.done]

/-- An object that writes an exponent, escapes and an index among its keys comes back. -/
theorem to_json_then_from_json_nested :
    let v := Value.ofPairs [("a\n\"", .ofPairs [("", .str "\\\u0001\u2028"), ("b", .bool true)]),
      ("2", .list [.null, .num (-0.5), .num 1e-7])]
    applySegments v [⟨"TO_json", none⟩, ⟨"from_json", none⟩] (Host.create {} []) =
      (.ok v, Host.create {} []) := by
  intro v
  have inner : (Value.ofPairs [("", .str "\\\u0001\u2028"), ("b", .bool true)]).IsJson :=
    .ofPairs <| List.forall_mem_cons.2 ⟨.str _, List.forall_mem_singleton.2 (.bool true)⟩
  have items : (Value.list [.null, .num (-0.5), .num 1e-7]).IsJson :=
    .list <| List.forall_mem_cons.2 ⟨.null, List.forall_mem_cons.2
      ⟨.num (by decide +kernel) (by decide +kernel),
        List.forall_mem_singleton.2 (.num (by decide +kernel) (by decide +kernel))⟩⟩
  have json : v.IsJson := .ofPairs <| List.forall_mem_cons.2 ⟨items, List.forall_mem_singleton.2 inner⟩
  refine to_json_then_from_json json ?_ rfl rfl (by decide +kernel) (by decide +kernel)
  exact List.forall_mem_cons.2 ⟨by decide +kernel, List.forall_mem_singleton.2 (by decide +kernel)⟩

end QueueScript.Tags
