import QueueScript.Engine.Tags

/-!
# Entries

Making entries, putting them on queues, resolving their arguments and keeping what they parsed.
Arguments are resolved against the queue that the entry ran on when its context was last brought up
to date.
-/

namespace QueueScript.Entries

open QueueScript.Action (entry changeEntry)

/-! ## Making and placing entries -/

/-- A new entry of a compiled command with its blocks, on no queue. -/
def make (code : Compiled) (blocks : List (Branch EntryRef)) : Action EntryRef :=
  fun e => (.ok e.entries.size, { e with entries := e.entries.push { code, blocks } })

/-- New entries of compiled commands with their blocks, on no queue. -/
def makeAll (codes : List Compiled) (blocks : List (List (Branch EntryRef))) :
    Action (List EntryRef) :=
  Action.collect (fun x => make x.1 x.2) (codes.zip blocks)

mutual

/-- The blocks of a compiled command, with new entries of the commands in them. -/
def furnish (code : Compiled) : Action (List (Branch EntryRef)) :=
  match code with
  | { branches := none, .. } => pure []
  | { branches := some branches, .. } => furnishBranches branches

/-- The blocks of each of the compiled commands. -/
def furnishAll (codes : List Compiled) : Action (List (List (Branch EntryRef))) :=
  match codes with
  | [] => pure []
  | code :: rest => do
    let blocks ← furnish code
    let others ← furnishAll rest
    pure (blocks :: others)

/-- Blocks with new entries of the commands in them. -/
def furnishBranches (branches : List (Branch Compiled)) : Action (List (Branch EntryRef)) :=
  match branches with
  | [] => pure []
  | ⟨key, args, body⟩ :: rest => do
    let blocks ← furnishAll body
    let entries ← makeAll body blocks
    let others ← furnishBranches rest
    pure (⟨key, args, entries⟩ :: others)

end

/-- A new entry of a compiled command, after those of its blocks. -/
def create (code : Compiled) : Action EntryRef := do
  make code (← furnish code)

/-- New entries of compiled commands, after those of their blocks. -/
def createAll (codes : List Compiled) : Action (List EntryRef) := do
  makeAll codes (← furnishAll codes)

/-- Brings the queue that an entry's tags read up to date. -/
def refresh (n : EntryRef) : Action Unit := do
  let q ← Action.look (·.residingQueue n)
  changeEntry n ({ · with context := q })

/-- Puts an entry on a queue, or on none. -/
def place (n : EntryRef) (q : Option QueueRef) : Action Unit := do
  changeEntry n ({ · with residing := q })
  refresh n

/-- Marks an entry as done. It stays done. -/
def finish (n : EntryRef) : Action Unit :=
  changeEntry n ({ · with isFinished := true })

/-- Makes an entry run at once, or not. -/
def forceInstant (n : EntryRef) (instant : Bool) : Action Unit :=
  changeEntry n ({ · with forcedInstant := instant })

/-- Takes over how another entry is placed and paced. -/
def takeOver (n other : EntryRef) : Action Unit := do
  let o ← entry other
  changeEntry n ({ · with forcedInstant := o.forcedInstant, owner := o.owner })
  place n o.residing

/-- A fresh entry of the same command with the same blocks, placed and paced alike. -/
def clone (n : EntryRef) : Action EntryRef := do
  let original ← entry n
  let copy ← make original.code original.blocks
  takeOver copy n
  pure copy

/-- Fresh entries of the same commands. -/
def cloneAll (entries : List EntryRef) : Action (List EntryRef) :=
  Action.collect clone entries

/-- Fresh entries of the same commands, owned by an entry and placed on its queue. -/
def spawn (owner : EntryRef) (entries : List EntryRef) : Action (List EntryRef) := do
  let q ← Action.look (·.residingQueue owner)
  Action.collect (fun base => do
    let n ← clone base
    changeEntry n ({ · with owner := some owner })
    place n q
    pure n) entries

/-! ## Resolving arguments -/

/-- What the tags of an entry read. -/
def context (n : EntryRef) : Action Tags.Context := do
  pure ⟨some n, (← entry n).context⟩

/-- The value of a text in the context of an entry. -/
def resolveText (calls : Calls) (n : EntryRef) (text : String) : Action Value := do
  Tags.resolve calls (← context n) (.parse text)

/-- An argument with a key and a value, its text being that of the value as it is now. -/
def argumentOf (key : Option String) (object : Value) : Action Argument := do
  pure ⟨key, object, ← Action.textOf object, false⟩

/-- A compiled argument, resolved. -/
def resolveArgument (calls : Calls) (n : EntryRef) (a : CompiledArgument) : Action Argument :=
  match a.literal? with
  | some argument => pure argument
  | none => do
    let context ← context n
    let key ←
      match a.key with
      | none => pure none
      | some t => do
        let v ← Tags.resolve calls context t
        some <$> Action.textOf v
    let object ← Tags.resolve calls context a.value
    let handler := (← entry n).code.handler
    match key, object with
    | none, .str text =>
      if a.hadColon && handler.dynamicKeys then
        pure (Argument.ofText text handler.anyKeySymbol true)
      else argumentOf none object
    | _, _ => argumentOf key object

/-- Resolves the arguments that the handler parses, and keeps them on the entry. -/
def resolveArguments (calls : Calls) (n : EntryRef) : Action (List Argument) := do
  let args ← Action.collect (resolveArgument calls n) (← entry n).code.parsed
  changeEntry n ({ · with arguments := args })
  pure args

/-- The argument with a key, if there is one. -/
def argument? (calls : Calls) (n : EntryRef) (key : String) : Action (Option Argument) := do
  match (← entry n).code.argument? key with
  | some a => some <$> resolveArgument calls n a
  | none => pure none

/-- The text of the argument with a key, if there is one. -/
def argumentText? (calls : Calls) (n : EntryRef) (key : String) : Action (Option String) := do
  pure ((← argument? calls n key).map (·.raw))

/-- The text of the argument with a key, which must be there. -/
def requiredText (calls : Calls) (n : EntryRef) (key : String) : Action String := do
  match ← argumentText? calls n key with
  | some text => pure text
  | none => Action.refuse (.missingKey key)

/-- Whether a word is given, as a bare word or as a key with a truth value. -/
def flag (calls : Calls) (n : EntryRef) (word : String) : Action Bool := do
  match ← argument? calls n word with
  | some a => Action.ofExcept .arguments a.asBoolean
  | none => pure ((← entry n).code.literals.contains (Text.lower word))

/-! ## Objects -/

/-- Stores an object under a key, case aside. -/
def store (n : EntryRef) (key : String) (v : Value) : Action Unit :=
  changeEntry n fun e => { e with objects := e.objects.put (Text.lower key) v }

/-- Stores an object under a key that has none. -/
def storeDefault (n : EntryRef) (key : String) (v : Value) : Action Unit := do
  unless (← entry n).hasObject key do
    store n key v

/-- A stored object. -/
def object? (n : EntryRef) (key : String) : Action (Option Value) := do
  pure ((← entry n).object? key)

/-- The text of a stored object. -/
def element? (n : EntryRef) (key : String) : Action (Option String) := do
  match ← object? n key with
  | some v => some <$> Action.textOf v
  | none => pure none

/-- Whether the truth value true is stored. -/
def isTrue (n : EntryRef) (key : String) : Action Bool := do
  match ← object? n key with
  | some (.bool b) => pure b
  | _ => pure false

/-- The number that a stored object counts as. -/
def count (n : EntryRef) (key : String) : Action Float := do
  match ← object? n key with
  | some v => pure (← Action.reveal v).count
  | none => pure (0.0 / 0.0)

/-- Where an entry stands, for diagnostics. -/
def scope (n : EntryRef) : Action Scope :=
  Action.look (·.scope n)

/-- The queue that an entry runs on, which its command needs. -/
def requireQueue (n : EntryRef) : Action QueueRef := do
  match ← Action.look (·.residingQueue n) with
  | some q => pure q
  | none => Action.breakOff (.needsQueue (← entry n).code.handler.name)

end QueueScript.Entries
