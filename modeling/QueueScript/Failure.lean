import QueueScript.Config
import QueueScript.FileSystem

/-!
# Failures

Why a command, a tag or a host operation fails. Every cause is a constructor, and its wording is in
one place. Failures fall into kinds that are reported differently: arguments that a command cannot
use are reported with a usage hint, run-time failures with their message alone, and all others as
internal errors.
-/

namespace QueueScript

/-- Arguments that a command cannot use. -/
inductive ArgumentFault where
  /-- The argument is no whole number. -/
  | notWhole (arg : String)
  /-- The argument is no number. -/
  | notNumber (arg : String)
  /-- The argument is neither true nor false. -/
  | notBoolean (arg : String)
  /-- The argument is no duration. -/
  | notDuration (arg : String)
  /-- The command has no use for the argument. -/
  | unknown (arg : String)
  /-- An argument with this key is needed. -/
  | missingKey (key : String)
  /-- There is nothing to write. -/
  | noMessage
  /-- There is no name to define. -/
  | noDefinition
  /-- There is no block of commands. -/
  | noBlock
  /-- There is no condition. -/
  | noCondition
  /-- A conjunction or disjunction lacks a side. -/
  | emptyCondition
  /-- There is neither a quantity nor a control word. -/
  | noQuantity
  /-- There is no script to run. -/
  | noScript
  /-- There is no address. -/
  | noUrl
  /-- The address has no scheme of the web. -/
  | badUrl (url : String)
  /-- The request method is not known. -/
  | unknownMethod (method : String) (known : List String)
  /-- The command takes another number of arguments. -/
  | wrongCount (command : String) (least : Nat) (most : Option Nat) (count : Nat)
  /-- There is no such command. -/
  | unknownCommand (command : String)
  /-- The host says so. -/
  | host (message : String)

/-- How many arguments a command takes, in words. -/
def countRange (least : Nat) : Option Nat → String
  | none => "at least " ++ Number.natText least
  | some most =>
    if least = most then "exactly " ++ Number.natText least
    else Number.natText least ++ " to " ++ Number.natText most

/-- The wording of a fault. -/
def ArgumentFault.message : ArgumentFault → String
  | .notWhole arg => "'" ++ arg ++ "' is not a whole number"
  | .notNumber arg => "'" ++ arg ++ "' is not a number"
  | .notBoolean arg => "'" ++ arg ++ "' is not true or false"
  | .notDuration arg => "'" ++ arg ++ "' is not a duration"
  | .unknown arg => "Unknown argument '" ++ arg ++ "'"
  | .missingKey key => "Missing '" ++ key ++ "' argument!"
  | .noMessage => "Must specify a message!"
  | .noDefinition => "Must specify a definition name!"
  | .noBlock => "Must have a block of commands to run!"
  | .noCondition => "Missing condition!"
  | .emptyCondition => "Empty condition around && or ||"
  | .noQuantity => "Must specify a quantity, or stop or next!"
  | .noScript => "Must specify a script to run!"
  | .noUrl => "Must specify a URL!"
  | .badUrl url => "Invalid URL '" ++ url ++ "': must start with http:// or https://"
  | .unknownMethod method known =>
    "Unknown method '" ++ method ++ "', must be one of " ++ String.intercalate ", " known
  | .wrongCount command least most count =>
    "The command '" ++ command ++ "' takes " ++ countRange least most ++ " argument(s), but " ++
      Number.natText count ++ " were given."
  | .unknownCommand command => "Unknown command '" ++ command ++ "'."
  | .host message => message

/-- Failures that the author of a script can act on. -/
inductive RuntimeFault where
  /-- The command needs a queue. -/
  | needsQueue (command : String)
  /-- A later block of a condition does not start with `else`. -/
  | notElse (header : String)
  /-- A later block of a condition has words other than `else` and `else if`. -/
  | notElseIf (header : String)
  /-- Only numbers can be compared by size. -/
  | cannotCompare (left operator right : String)
  /-- A loop has nothing to repeat. -/
  | emptyLoop
  /-- A loop is to be continued that was never started. -/
  | noLoop
  /-- No loop is there to be stopped, or to be continued early. -/
  | notInLoop (stop : Bool)
  /-- No queue is registered under the name. -/
  | noQueue (name : String)
  /-- No script has the name. -/
  | noScript (name : String)
  /-- A queue with this name is running already. -/
  | queueExists (name : String)
  /-- No procedure has the name. -/
  | noProcedure (name : String)
  /-- The script is no procedure. -/
  | notProcedure (name : String)
  /-- The procedure ended without a value. -/
  | undetermined (name : String)
  /-- The path leaves the folder that file commands may use. -/
  | outside (target : String)
  /-- The configuration forbids it. -/
  | disabled (action : String) (setting : String)
  /-- A file could not be read. -/
  | cannotRead (target : String) (fault : FileFault)
  /-- A file could not be written. -/
  | cannotWrite (target : String) (fault : FileFault)
  /-- A tag segment lacks its parameter. -/
  | needsParam (name : String)
  /-- A tag calculates with something that is no number. -/
  | notNumber (what description : String)
  /-- No tag base has the name. -/
  | unknownBase (name : String)
  /-- The value has no such attribute. -/
  | unknownAttribute (name description : String)
  /-- The definition does not exist. -/
  | noDefinition (name : String)
  /-- No entry was saved under the name. -/
  | noSaved (name : String)
  /-- A saved entry was named, but none of its results. -/
  | noResultName (name : String)
  /-- The saved entry has no such result. -/
  | noResult (name result : String)
  /-- A tag asks for the queue where there is none. -/
  | queueUnavailable
  /-- Queues have no such property. -/
  | unknownProperty (name : String)
  /-- Only truth values can be negated. -/
  | cannotNegate (description : String)
  /-- Only lists have positions. -/
  | cannotIndex (description : String)
  /-- The position is no whole number. -/
  | indexNotWhole (index : String)
  /-- The list has no such position. -/
  | indexRange (index : String) (size : Nat)
  /-- Only binary data can be decoded. -/
  | notBinary (description : String)
  /-- The host says so. -/
  | host (message : String)

/-- The wording of a fault. -/
def RuntimeFault.message : RuntimeFault → String
  | .needsQueue command => "The command '" ++ command ++ "' must run on a queue."
  | .notElse header => "Expected 'else' before the next block, found '" ++ header ++ "'."
  | .notElseIf header => "Expected 'else' or 'else if', found '" ++ header ++ "'."
  | .cannotCompare left operator right =>
    "Cannot compare " ++ left ++ " " ++ operator ++ " " ++ right ++ ": both sides must be numbers."
  | .emptyLoop => "Empty subsection - did you forget a \x7b or a - ?"
  | .noLoop => "Loop callback has no loop to continue."
  | .notInLoop stop =>
    "Cannot " ++ (if stop then "stop" else "skip") ++ " repeat: not inside a loop!"
  | .noQueue name => "Queue '" ++ name ++ "' does not exist or has ended."
  | .noScript name => "Script '" ++ name ++ "' does not exist."
  | .queueExists name => "A queue with id '" ++ name ++ "' is already running."
  | .noProcedure name => "Procedure '" ++ name ++ "' does not exist."
  | .notProcedure name => "Script '" ++ name ++ "' is not a procedure."
  | .undetermined name => "Procedure '" ++ name ++ "' did not determine a value."
  | .outside target => "Path '" ++ target ++ "' is outside the folder file commands may use."
  | .disabled action setting => action ++ " disabled in the engine config (" ++ setting ++ ")."
  | .cannotRead target fault => "Cannot read '" ++ target ++ "': " ++ fault.message
  | .cannotWrite target fault => "Cannot write '" ++ target ++ "': " ++ fault.message
  | .needsParam name => "'" ++ name ++ "' needs a [parameter]"
  | .notNumber what description => what ++ " is not a number: " ++ description
  | .unknownBase name => "Unknown tag base '" ++ name ++ "'"
  | .unknownAttribute name description => "Unknown attribute '" ++ name ++ "' for " ++ description
  | .noDefinition name => "Definition '" ++ name ++ "' does not exist"
  | .noSaved name => "No entry was saved as '" ++ name ++ "'"
  | .noResultName name => "Specify which result of '" ++ name ++ "' to read"
  | .noResult name result => "Saved entry '" ++ name ++ "' has no result '" ++ result ++ "'"
  | .queueUnavailable => "No queue is available here"
  | .unknownProperty name => "Unknown queue property '" ++ name ++ "'"
  | .cannotNegate description => "Cannot negate " ++ description
  | .cannotIndex description => "Cannot index " ++ description
  | .indexNotWhole index => "Index '" ++ index ++ "' is not a whole number"
  | .indexRange index size => "Index " ++ index ++ " is out of range 1.." ++ Number.natText size
  | .notBinary description => "Expected binary data, got " ++ description
  | .host message => message

/-- A failure. -/
inductive Failure where
  /-- The command cannot use its arguments. -/
  | arguments (fault : ArgumentFault)
  /-- The script asks for something impossible. -/
  | runtime (fault : RuntimeFault)
  /-- The configuration is refused. -/
  | config (fault : ConfigFault)
  /-- An object literal is malformed. -/
  | literal (fault : Json5.Fault)
  /-- An entry of a map is not written `key=value`. -/
  | mapEntry (entry : String)
  /-- A file operation failed. -/
  | file (fault : FileFault)
  /-- The host failed with an error. -/
  | host (message : String)
  /-- The host gave up with a bare text. -/
  | bare (text : String)
  /-- The run was cut off before its end. -/
  | exhausted

/-- The wording of a failure. -/
def Failure.message : Failure → String
  | .arguments f => f.message
  | .runtime f => f.message
  | .config f => f.message
  | .literal f => f.message
  | .mapEntry entry => "Invalid map entry '" ++ entry ++ "', expected key=value"
  | .file f => f.message
  | .host message => message
  | .bare text => text
  | .exhausted => "The run did not end in time"

end QueueScript
