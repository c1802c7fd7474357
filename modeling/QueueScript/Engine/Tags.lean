import QueueScript.Engine.Action

/-!
# Resolving tags

A tag is resolved segment by segment: its base gives a value, and each later segment changes it. A
parameter is resolved when it is asked for, and as often. A tag that fails is reported and resolves
to no value.
-/

namespace QueueScript.Tags

/-- What tags may read. -/
structure Context where
  /-- The entry that they are resolved for. -/
  entry : Option EntryRef
  /-- The queue that they read. -/
  queue : Option QueueRef

/-- A segment whose parameter is ready to be resolved. -/
structure ReadySegment where
  /-- The name as written. -/
  name : String
  /-- How its parameter is resolved. -/
  param : Option (Action Value)

/-! ## Looking at the segments that are left -/

/-- The name of the next segment as written; empty if there is none. -/
def rawName : List ReadySegment → String
  | [] => ""
  | s :: _ => s.name

/-- The name of the next segment in lower case; empty if there is none. -/
def name (segments : List ReadySegment) : String :=
  Text.lower (rawName segments)

/-- Whether the next segment has a parameter. -/
def hasParam : List ReadySegment → Bool
  | [] => false
  | s :: _ => s.param.isSome

/-- The parameter of the next segment; no value if there is none. -/
def param : List ReadySegment → Action Value
  | ⟨_, some resolve⟩ :: _ => resolve
  | _ => pure .null

/-- The text of the parameter of the next segment. -/
def paramText (segments : List ReadySegment) : Action String := do
  Action.textOf (← param segments)

/-- The parameter of the next segment, which must be there. -/
def requireParam (segments : List ReadySegment) : Action Value :=
  if hasParam segments then param segments else Action.breakOff (.needsParam (name segments))

/-! ## Bases -/

/-- A property of a queue. -/
def queueProperty (q : QueueRef) (property : String) : Action Value := do
  let queue ← Action.queue q
  match property with
  | "id" => pure (.str queue.id)
  | "name" => pure (.str queue.name)
  | "size" => pure (.num (Float.ofNat queue.pending.length))
  | "state" => pure (.str queue.state.name)
  | "determination" =>
    match queue.determinations with
    | some n => pure (.determined n)
    | none => pure (.list [])
  | "definitions" => do
    let definitions ← Action.look (·.definitions q)
    pure (.list (definitions.keys.map .str))
  | _ => Action.breakOff (.unknownProperty property)

/-- What a base of the host gives, and the segments it leaves. -/
def hostBase (source : String) (base : HostBase) (segments : List ReadySegment) :
    Action (Value × List ReadySegment) :=
  match base with
  | .give v passes => pure (v, segments.drop passes)
  | .fail message => Action.fail (.host message)
  | .failBare text => Action.fail (.bare text)
  | .look => do
    let first ← param segments
    let text ← paramText segments
    let rest := segments.drop 1
    let second ← param rest
    pure (.list [.str (name segments), .str (rawName segments), .bool (hasParam segments), first,
      .str text, .str source, .bool rest.isEmpty, .str (name rest), .str (rawName rest), second], rest)

/-- What a base gives, and the segments it leaves. -/
def baseValue (calls : Calls) (context : Context) (source : String) (base : TagBase)
    (segments : List ReadySegment) : Action (Value × List ReadySegment) :=
  match base with
  | .definition => do
    let name ← paramText segments
    match ← Action.look fun e => context.queue.bind (e.definition? · name) with
    | some v => pure (v, segments.drop 1)
    | none => Action.breakOff (.noDefinition name)
  | .entry => do
    let saved ← paramText segments
    match ← Action.look fun e => context.queue.bind (e.held? · saved) with
    | none => Action.breakOff (.noSaved saved)
    | some n =>
      let rest := segments.drop 1
      let key := name rest
      if key.isEmpty then Action.breakOff (.noResultName saved)
      else
        match (← Action.entry n).object? key with
        | some v => pure (v, rest.drop 1)
        | none => Action.breakOff (.noResult saved key)
  | .queue =>
    match context.queue with
    | none => Action.breakOff .queueUnavailable
    | some q => do
      let rest := segments.drop 1
      let property := name rest
      if property.isEmpty then
        let queue ← Action.queue q
        pure (.str queue.id, rest)
      else
        let v ← queueProperty q property
        pure (v, rest.drop 1)
  | .element => do
    let v ← param segments
    pure (v, segments.drop 1)
  | .list => do
    let v ← Action.reveal (← param segments)
    pure (.list v.asList, segments.drop 1)
  | .proc => do
    let procedure ← Action.textOf (← requireParam segments)
    let rest := segments.drop 1
    if name rest = "context" then
      let args ← Action.reveal (← param rest)
      let v ← calls.procedure procedure args.asList
      pure (v, rest.drop 1)
    else
      let v ← calls.procedure procedure []
      pure (v, rest)
  | .escape text => pure (.str text, segments.drop 1)
  | .host base => hostBase source base segments

/-- The bases that every engine starts with. -/
def builtinBases : Keyed TagBase :=
  [("", .definition), ("entry", .entry), ("queue", .queue), ("element", .element), ("list", .list),
   ("proc", .proc), ("&lt", .escape "<"), ("&gt", .escape ">"), ("&dq", .escape "\""),
   ("&sq", .escape "'"), ("&sp", .escape " "), ("&co", .escape ":"), ("&pipe", .escape "|"),
   ("&nl", .escape "\n")]

/-! ## Attributes -/

/-- A value as a number, which it must be. -/
def requireNumber (v : Value) (what : String) : Action Float := do
  let v ← Action.reveal v
  match v.asNumber with
  | some x => pure x
  | none => Action.breakOff (.notNumber what v.describe)

/-- A calculation with the value and the parameter. -/
def calculate (f : Float → Float → Float) (v : Value) (segments : List ReadySegment) :
    Action Value := do
  let x ← requireNumber v "Value"
  let y ← requireNumber (← requireParam segments) "Parameter"
  pure (.num (f x y))

/-- The pieces of a text between occurrences of a separator; every character if it is empty. -/
def splitText (text separator : String) : List String :=
  if separator.isEmpty then text.toList.map String.singleton
  else (Text.splitOnChars separator.toList text.toList).map String.ofList

/-- The item of a list at a position counted from one. -/
def itemAt (v : Value) (position : String) : Action Value :=
  match v with
  | .list items =>
    if !Number.isWholeText position then Action.breakOff (.indexNotWhole position)
    else
      let index := Number.leadingWhole position
      if index < 1.0 || Float.ofNat items.length < index then
        Action.breakOff (.indexRange (Number.text index) items.length)
      else pure ((items.getD (index.toUInt64.toNat - 1) .null).filled)
  | _ => Action.breakOff (.cannotIndex v.describe)

/-- What an attribute makes of a value that is as it is now. -/
def attributeValue (a : Attribute) (v : Value) (segments : List ReadySegment) : Action Value :=
  match a with
  | .size => pure (.num (Float.ofNat v.size))
  | .upper => pure (.str (Text.upper v.text))
  | .lower => pure (.str (Text.lower v.text))
  | .add => calculate (· + ·) v segments
  | .sub => calculate (· - ·) v segments
  | .mul => calculate (· * ·) v segments
  | .equals => do
    let other ← Action.textOf (← requireParam segments)
    pure (.bool (v.text == other))
  | .not =>
    match v.asBoolean with
    | some b => pure (.bool !b)
    | none => Action.breakOff (.cannotNegate v.describe)
  | .split => do
    let separator ← if hasParam segments then paramText segments else pure "|"
    pure (.list ((splitText v.text separator).map .str))
  | .get => do
    itemAt v (← paramText segments)
  | .utf8Encode => pure (.bytes (Text.encodeUtf8 v.text))
  | .utf8Decode =>
    match v with
    | .bytes b => pure (.str (Text.decodeUtf8 b))
    | _ => Action.breakOff (.notBinary v.describe)
  | .toJson => pure (.str v.mapAsObject.json)
  | .fromJson => Action.ofExcept .literal (Json5.parse v.text)
  | .host => do
    let shown ← if hasParam segments then (", " ++ ·) <$> paramText segments else pure ""
    pure (.str (rawName segments ++ "(" ++ v.describe ++ shown ++ ")"))

/-- The attributes that every engine starts with. -/
def builtinAttributes : Keyed Attribute :=
  [("size", .size), ("upper", .upper), ("lower", .lower), ("add", .add), ("sub", .sub),
   ("mul", .mul), ("equals", .equals), ("not", .not), ("split", .split), ("get", .get),
   ("utf8_encode", .utf8Encode), ("utf8_decode", .utf8Decode), ("to_json", .toJson),
   ("from_json", .fromJson)]

/-- What the next segment makes of a value: an attribute, or else a property of the value. -/
def applySegment (v : Value) (segments : List ReadySegment) : Action Value := do
  let v ← Action.reveal v
  match ← Action.look (·.attributes.get? (name segments)) with
  | some a => attributeValue a v segments
  | none =>
    match v.property? (rawName segments) with
    | some p => pure p
    | none => Action.breakOff (.unknownAttribute (name segments) v.describe)

/-- What the segments make of a value, one after the other. -/
def applySegments (v : Value) : List ReadySegment → Action Value
  | [] => pure v
  | s :: rest => do
    let v ← applySegment v (s :: rest)
    applySegments v rest

/-! ## Tags and templates -/

/-- Where the tags of a context stand, for diagnostics. -/
def Context.scope (context : Context) (e : Engine) : Scope :=
  match context.entry with
  | some n => e.scope n
  | none => { queue := context.queue.map fun q => (e.queue q).id }

/-- The value of a tag. A tag that fails is reported and has no value. -/
def tagValue (calls : Calls) (context : Context) (source : String)
    (segments : List ReadySegment) : Action Value :=
  Action.orElse
    (do
      match ← Action.look (·.bases.get? (name segments)) with
      | none => Action.breakOff (.unknownBase (name segments))
      | some base =>
        let (v, rest) ← baseValue calls context source base segments
        applySegments v rest)
    (fun f => do
      let scope ← Action.look context.scope
      Action.error ("Tag <" ++ source ++ "> is invalid: " ++ f.message) scope none
      pure .null)

mutual

/-- The value of a template: its text if it has no tag, the value of the tag if it is one tag, and
the joined texts of its parts otherwise. -/
def resolve (calls : Calls) (context : Context) : Template → Action Value
  | .mk _ [.tag source segments] => tagValue calls context source (ready calls context segments)
  | .mk source parts =>
    if parts.any Part.isTag then do
      let texts ← resolveParts calls context parts
      pure (.str (String.join texts))
    else pure (.str source)

/-- The texts of the parts of a template. -/
def resolveParts (calls : Calls) (context : Context) : List Part → Action (List String)
  | [] => pure []
  | .text s :: rest => do
    let texts ← resolveParts calls context rest
    pure (s :: texts)
  | .tag source segments :: rest => do
    let v ← tagValue calls context source (ready calls context segments)
    let text ← Action.textOf v
    let texts ← resolveParts calls context rest
    pure (text :: texts)

/-- Segments with their parameters ready to be resolved. -/
def ready (calls : Calls) (context : Context) : List Segment → List ReadySegment
  | [] => []
  | .bare name :: rest => ⟨name, none⟩ :: ready calls context rest
  | .param name p :: rest => ⟨name, some (resolve calls context p)⟩ :: ready calls context rest

end

end QueueScript.Tags
