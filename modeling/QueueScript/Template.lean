import QueueScript.Words

/-!
# Templates

Argument texts with tags. A tag is written `<base[param].attribute[param]...>`, and parameters may
hold further tags. A template is a list of literal texts and tags; a tag is a list of segments,
each a name with an optional template as its parameter.
-/

namespace QueueScript

mutual

/-- A text with tags, parsed. -/
inductive Template where
  /-- The text as written, and its parts. -/
  | mk (source : String) (parts : List Part)

/-- A part of a template. -/
inductive Part where
  /-- Literal text. -/
  | text (s : String)
  /-- A tag: the text between its brackets, and its segments. -/
  | tag (source : String) (segments : List Segment)

/-- A segment of a tag. -/
inductive Segment where
  /-- A name alone. -/
  | bare (name : String)
  /-- A name and the parameter in brackets after it. -/
  | param (name : String) (param : Template)

end

namespace Template

/-- The text as written. -/
def source : Template → String
  | .mk s _ => s

/-- The parts of the text. -/
def parts : Template → List Part
  | .mk _ ps => ps

end Template

/-- Whether a part is a tag. -/
def Part.isTag : Part → Bool
  | .text _ => false
  | .tag _ _ => true

/-- Whether the text has a tag, so that it means something only when it is resolved. -/
def Template.hasTag (t : Template) : Bool :=
  t.parts.any Part.isTag

/-- The text, if it has no tag. -/
def Template.literal? (t : Template) : Option String :=
  if t.hasTag then none else some t.source

/-! ## Scanning -/

/-- A part of a text before the inside of its tags is read. -/
inductive RawPart where
  /-- Literal characters. -/
  | text (cs : List Char)
  /-- The characters between the brackets of a tag. -/
  | tag (content : List Char)

/-- The inside of a tag, up to the `>` that closes it, and what follows. `depth` counts the tags that
are open, and `body` holds the inside so far in reverse. -/
def tagBody (depth : Nat) (body : List Char) : List Char → Option (List Char × List Char)
  | [] => none
  | c :: rest =>
    if opensTag (c :: rest) then tagBody (depth + 1) (c :: body) rest
    else if c = '>' then
      if depth ≤ 1 then some (body.reverse, rest) else tagBody (depth - 1) (c :: body) rest
    else tagBody depth (c :: body) rest

/-- The literal part of the characters read so far, in reverse, unless there are none. -/
def rawText (buffer : List Char) : List RawPart :=
  if buffer.isEmpty then [] else [.text buffer.reverse]

/-- The parts of a text after the literal characters `buffer`, which are in reverse. A `<` that opens
a tag without an end stands for itself. -/
def rawPartsFrom : Nat → List Char → List Char → List RawPart
  | _, buffer, [] => rawText buffer
  | 0, buffer, _ :: _ => rawText buffer
  | fuel + 1, buffer, c :: rest =>
    if opensTag (c :: rest) then
      match tagBody 1 [] rest with
      | some (content, after) => rawText buffer ++ .tag content :: rawPartsFrom fuel [] after
      | none => rawPartsFrom fuel (c :: buffer) rest
    else rawPartsFrom fuel (c :: buffer) rest

/-- The parts of a text. Each step takes at least one character. -/
def rawParts (cs : List Char) : List RawPart :=
  rawPartsFrom cs.length [] cs

/-- The segments of the inside of a tag: pieces between points that stand outside brackets and inner
tags. `piece` holds the piece being read, in reverse. -/
def rawSegmentsFrom (brackets tags : Nat) (piece : List Char) : List Char → List (List Char)
  | [] => [piece.reverse]
  | c :: rest =>
    if opensTag (c :: rest) then rawSegmentsFrom brackets (tags + 1) (c :: piece) rest
    else if c = '>' ∧ 0 < tags then rawSegmentsFrom brackets (tags - 1) (c :: piece) rest
    else if tags = 0 ∧ c = '[' then rawSegmentsFrom (brackets + 1) tags (c :: piece) rest
    else if tags = 0 ∧ c = ']' ∧ 0 < brackets then
      rawSegmentsFrom (brackets - 1) tags (c :: piece) rest
    else if c = '.' ∧ brackets = 0 ∧ tags = 0 then
      piece.reverse :: rawSegmentsFrom brackets tags [] rest
    else rawSegmentsFrom brackets tags (c :: piece) rest

/-- The segments of the inside of a tag. -/
def rawSegments (content : List Char) : List (List Char) :=
  rawSegmentsFrom 0 0 [] content

/-- The name of a segment and the text of its parameter: what stands between the first opening
bracket and a closing bracket at the end. -/
def splitSegment (segment : List Char) : List Char × Option (List Char) :=
  match segment.dropWhile (· != '[') with
  | _ :: inside =>
    if inside.getLast? = some ']' then (segment.takeWhile (· != '['), some inside.dropLast)
    else (segment, none)
  | [] => (segment, none)

/-! ## Parsing -/

/-- The template of a text. A parameter is shorter than the text it stands in, so fuel for the length
of the text is enough. -/
def parseTemplate : Nat → List Char → Template
  | 0, cs => .mk (String.ofList cs) [.text (String.ofList cs)]
  | fuel + 1, cs =>
    .mk (String.ofList cs) ((rawParts cs).map fun part =>
      match part with
      | .text t => .text (String.ofList t)
      | .tag content =>
        .tag (String.ofList content) ((rawSegments content).map fun segment =>
          match splitSegment segment with
          | (name, none) => .bare (String.ofList name)
          | (name, some p) => .param (String.ofList name) (parseTemplate fuel p)))

/-- The template of a text. -/
def Template.parse (s : String) : Template :=
  parseTemplate (s.toList.length + 1) s.toList

end QueueScript
