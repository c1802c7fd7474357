import QueueScript.Json5.Lexeme
import QueueScript.Value.Basic

/-!
# Reading object literals

The reader of JSON5 texts: values, lists with optional trailing commas, and objects whose keys are
quoted or identifiers. Every value, item and member takes at least one character, so a reader given
fuel for two steps a character never runs out of it.
-/

namespace QueueScript.Json5

mutual

/-- The value that begins here, and the place after it. -/
def readValue : Nat → Cursor → Except Fault (Value × Cursor)
  | 0, k => .error k.unexpected
  | fuel + 1, k =>
    match k.rest with
    | '{' :: _ => do
      let (pairs, after) ← readMembers fuel k.next
      pure (Value.ofPairs pairs, after)
    | '[' :: _ => do
      let (items, after) ← readItems fuel k.next
      pure (.list items, after)
    | 'n' :: _ => do
      let after ← k.literal "null".toList
      pure (.null, after)
    | 't' :: _ => do
      let after ← k.literal "true".toList
      pure (.bool true, after)
    | 'f' :: _ => do
      let after ← k.literal "false".toList
      pure (.bool false, after)
    | '"' :: _ => do
      let (s, after) ← k.quoted '"'
      pure (.str s, after)
    | '\'' :: _ => do
      let (s, after) ← k.quoted '\''
      pure (.str s, after)
    | '-' :: _ => do
      let (x, after) ← k.next.unsigned
      pure (.num (-x), after)
    | '+' :: _ => do
      let (x, after) ← k.next.unsigned
      pure (.num x, after)
    | _ => do
      let (x, after) ← k.unsigned
      pure (.num x, after)

/-- The items of a list up to its closing bracket. -/
def readItems : Nat → Cursor → Except Fault (List Value × Cursor)
  | 0, k => .error k.unexpected
  | fuel + 1, k => do
    let k ← k.word
    match k.rest with
    | ']' :: _ => pure ([], k.next)
    | [] => .error k.unexpected
    | _ =>
      let (v, k) ← readValue fuel k
      let k ← k.word
      match k.rest with
      | ',' :: _ => do
        let (vs, after) ← readItems fuel k.next
        pure (v :: vs, after)
      | ']' :: _ => pure ([v], k.next)
      | _ => .error k.unexpected

/-- The pairs of an object up to its closing brace. -/
def readMembers : Nat → Cursor → Except Fault (List (String × Value) × Cursor)
  | 0, k => .error k.unexpected
  | fuel + 1, k => do
    let k ← k.word
    match k.rest with
    | '}' :: _ => pure ([], k.next)
    | [] => .error k.unexpected
    | c :: _ =>
      let (key, k) ← if c = '"' ∨ c = '\'' then k.quoted c else k.name
      let k ← k.word
      match k.rest with
      | ':' :: _ =>
        let k ← k.next.word
        let (v, k) ← readValue fuel k
        let k ← k.word
        match k.rest with
        | ',' :: _ => do
          let (ps, after) ← readMembers fuel k.next
          pure ((key, v) :: ps, after)
        | '}' :: _ => pure ([(key, v)], k.next)
        | _ => .error k.unexpected
      | _ => .error k.unexpected

end

/-- The value that a JSON5 text stands for. Nothing but blanks and comments may stand around it. -/
def parse (s : String) : Except Fault Value := do
  let k ← (Cursor.start s).word
  let (v, k) ← readValue (2 * s.length + 2) k
  let k ← k.word
  match k.rest with
  | [] => pure v
  | _ => .error k.unexpected

end QueueScript.Json5
