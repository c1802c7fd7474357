import QueueScript.Argument

/-!
# Command handlers

A handler is what a command word stands for: how many arguments the command takes, which of them are
read by key or as bare words, where it may run, and what it does. What it does is named, not stored
as a function, so that handlers are plain data; commands of the host are described by data as well.
-/

namespace QueueScript

/-! ## Commands of the host -/

/-- How a command of the host reads its arguments. -/
inductive HostParse where
  /-- It takes none. -/
  | refuse
  /-- It stores every argument on its entry: as shown, its key, its value, and where the key came
  from. -/
  | record
  deriving DecidableEq, Repr

/-- What a command of the host does. -/
inductive HostAction where
  /-- Fails for a reason the author of the script can act on. -/
  | failRuntime
  /-- Refuses its arguments. -/
  | failArguments
  /-- Fails with an error. -/
  | failError
  /-- Gives up with a bare text. -/
  | failBare
  /-- Nothing; the entry is left as it is. -/
  | hold
  /-- Finishes the entry. -/
  | finish
  /-- Starts work that succeeds with the value, which is then stored as the result. -/
  | work
  /-- Starts work that fails. -/
  | workFails
  /-- Starts work that succeeds but whose result cannot be applied. -/
  | workResultFails
  /-- Puts the entries of its first block at the head of the queue. -/
  | inject
  /-- Asks for the queue and does nothing with it. -/
  | needQueue
  /-- Writes its arguments to the log. -/
  | log
  deriving DecidableEq, Repr

/-- A command of the host. -/
structure HostCommand where
  /-- How it reads its arguments. -/
  parse : HostParse
  /-- What it does. -/
  action : HostAction
  /-- What it says when it fails. -/
  message : String
  /-- What its work gives. -/
  value : Value

/-! ## Handlers -/

/-- What a command does. -/
inductive Behaviour where
  /-- Reports that the command is unknown or has a wrong number of arguments. -/
  | stub
  /-- Writes a message. -/
  | debug
  /-- Sets or removes a definition. -/
  | define
  /-- Adds a determination. -/
  | determine
  /-- Stops the queue. -/
  | stop
  /-- Runs the first block whose condition holds. -/
  | condition
  /-- Runs a block a number of times. -/
  | loop
  /-- Delays a queue. -/
  | wait
  /-- Starts a script on a queue of its own. -/
  | run
  /-- Reads a file. -/
  | fileRead
  /-- Writes a file. -/
  | fileWrite
  /-- Copies a file. -/
  | fileCopy
  /-- Sends a web request. -/
  | webRequest
  /-- Does what the host asks. -/
  | host (command : HostCommand)

/-- What a command word stands for. Keys and words are in lower case. -/
structure Handler where
  /-- The command word. -/
  name : String
  /-- How the command is written. -/
  usage : String := ""
  /-- The least number of arguments. -/
  least : Nat := 0
  /-- The greatest number of arguments, if there is one. -/
  most : Option Nat := none
  /-- Whether it may run in a procedure. -/
  isProcedural : Bool := false
  /-- Whether it may leave its entry unfinished while work goes on. -/
  isHoldable : Bool := false
  /-- Whether it is waited for even when it is not asked to be. -/
  isAlwaysHeld : Bool := false
  /-- Whether it owns blocks of further commands. -/
  isBraced : Bool := false
  /-- Whether keys of its arguments may hold any symbol. -/
  anyKeySymbol : Bool := false
  /-- Whether a key is split off again when a tag resolves to text with a key. -/
  dynamicKeys : Bool := false
  /-- The keys it reads by name. -/
  handledKeys : List String := []
  /-- The bare words it reads by name. -/
  handledWords : List String := []
  /-- Other spellings of keys. -/
  keyAliases : Keyed String := []
  /-- The keys that are resolved before its arguments and stored on the entry. -/
  reservedKeys : List String := []
  /-- What it does. -/
  behaviour : Behaviour

namespace Handler

/-- The handler of unknown commands and of commands with a wrong number of arguments. -/
def stub : Handler :=
  { name := "invalid", isProcedural := true, behaviour := .stub }

/-- Whether this is the handler of unknown commands. -/
def isStub (h : Handler) : Bool :=
  match h.behaviour with
  | .stub => true
  | _ => false

/-- How the command is written, for a message. -/
def usageHint (h : Handler) : String :=
  "Usage: " ++ (if h.usage.isEmpty then h.name else h.usage)

/-- The key that a spelling stands for, case aside. -/
def canonicalKey (h : Handler) (key : String) : String :=
  let lower := Text.lower key
  (h.keyAliases.get? lower).getD lower

/-- Whether a number of arguments is refused. Blocks lift the upper bound. -/
def refusesCount (h : Handler) (count : Nat) (hasBlocks : Bool) : Bool :=
  decide (count < h.least) ||
    (match h.most with
     | some most => decide (most < count) && !hasBlocks
     | none => false)

/-- Whether an argument is left for the handler to parse: not if it is read by key or by word. -/
def parsesArgument (h : Handler) (a : CompiledArgument) : Bool :=
  match a.literalKey? with
  | some key => !h.handledKeys.contains (h.canonicalKey key)
  | none =>
    match a.key, a.value.literal? with
    | none, some raw => !h.handledWords.contains (Text.lower raw)
    | _, _ => true

end Handler

/-- The commands by word, in order of registration. -/
abbrev Catalogue := Keyed Handler

namespace Catalogue

/-- The handler of a command word, case aside. -/
def find? (c : Catalogue) (word : String) : Option Handler :=
  c.get? (Text.lower word)

/-- The catalogue with a handler under its name. -/
def register (c : Catalogue) (h : Handler) : Catalogue :=
  c.put (Text.lower h.name) h

end Catalogue

end QueueScript
