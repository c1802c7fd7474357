import QueueScript.Command.Handler
import QueueScript.Command.Info

/-!
# The built-in commands

The handlers that every engine starts with, in four modules: script output, control of the queue,
files under the data folder, and web requests.
-/

namespace QueueScript

/-- A built-in command: its handler and its description. -/
structure Builtin where
  /-- The handler. -/
  handler : Handler
  /-- The description. -/
  info : CommandInfo

/-- A group of commands that are loaded together. -/
structure CommandModule where
  /-- The name of the group. -/
  name : String
  /-- What the commands are about. -/
  description : String
  /-- The handlers in order of registration. -/
  handlers : List Handler
  /-- The descriptions by name. -/
  infos : List (String × CommandInfo)
  /-- The names of the commands. -/
  commands : List String

namespace Builtin

/-! ## Script output -/

/-- The words that choose how a message is written. -/
def messageKinds : List String := ["log", "echo", "error"]

/-- Writes a message. -/
def debug : Builtin where
  handler :=
    { name := "debug", usage := "debug (log/echo/error) [<message>]", least := 1,
      isProcedural := true, behaviour := .debug }
  info :=
    { description := "Writes a message to the diagnostics sink"
      parameters :=
        [{ name := "type", dataType := .string,
           description := "log (always shown), echo (verbose mode only) or error",
           field := .select, required := false, default := some (.str "log") },
         { name := "message", label := some "Message", dataType := .string,
           description := "Words to write; tags are filled in", field := .text, required := true }]
      sample := some "debug log \"Count is <[count]>\"" }

/-! ## Control of the queue -/

/-- Sets or removes a definition. -/
def define : Builtin where
  handler :=
    { name := "define", usage := "define [<id>](:<value>)", least := 1, most := some 2,
      isProcedural := true, dynamicKeys := true, behaviour := .define }
  info :=
    { description :=
        "Sets a definition on the current queue, or removes it when no value is given"
      parameters :=
        [{ name := "id", dataType := .string,
           description := "Definition name, optionally followed by :value",
           field := .text, required := true },
         { name := "value", dataType := .any, description := "Value to store",
           field := .text, required := false }]
      sample := some "define count:3" }

/-- Adds a determination. -/
def determine : Builtin where
  handler :=
    { name := "determine", usage := "determine (passively) [<value>]", least := 1, most := some 2,
      isProcedural := true, behaviour := .determine }
  info :=
    { description :=
        "Adds a determination to the queue and, unless passively, ends the queue"
      parameters :=
        [{ name := "passively", dataType := .boolean,
           description := "Keep running after determining", field := .checkbox,
           required := false },
         { name := "value", dataType := .any, description := "The determined value",
           field := .text, required := true }]
      sample := some "determine <[a].add[<[b]>]>" }

/-- Stops the queue. -/
def stop : Builtin where
  handler :=
    { name := "stop", usage := "stop", most := some 0, isProcedural := true, behaviour := .stop }
  info :=
    { description := "Stops the current queue", sample := some "stop" }

/-- Runs the first block whose condition holds. -/
def condition : Builtin where
  handler :=
    { name := "if"
      usage := "if [<value>] (!)(<operator> <value>) (&&/|| ...) [<commands>] " ++
        "(else (if <comparison>) [<commands>])"
      least := 1, isProcedural := true, isBraced := true, behaviour := .condition }
  info :=
    { description := "Runs the first block whose condition holds"
      parameters :=
        [{ name := "condition", dataType := .string,
           description :=
             "A value, or two values around ==, !=, <, >, <=, >=, joined by && and ||",
           field := .code, required := true }]
      sample := some "if <[count]> > 2 \x7b" }

/-- The word that marks the end of an iteration on the queue. No written word holds its first
character. -/
def loopMark : String := "\x00callback"

/-- Runs a block a number of times. -/
def loop : Builtin where
  handler :=
    { name := "repeat"
      usage := "repeat [stop/next/<amount>] (from:<#>) (as:<name>) [<commands>]"
      least := 1, most := some 3, isProcedural := true, isBraced := true,
      handledKeys := ["from", "as"], handledWords := ["stop", "next", loopMark],
      behaviour := .loop }
  info :=
    { description :=
        "Runs the block a number of times, binding the loop index to a definition"
      parameters :=
        [{ name := "amount", dataType := .number,
           description := "Number of iterations, or stop / next inside a loop",
           field := .number, required := true },
         { name := "from", key := some "from", dataType := .number, description := "First index",
           field := .number, required := false, default := some (.num 1.0) },
         { name := "as", key := some "as", dataType := .string,
           description := "Definition that holds the index", field := .text, required := false,
           default := some (.str "value") }]
      sample := some "repeat 5 as:i \x7b" }

/-- Delays a queue. -/
def wait : Builtin where
  handler :=
    { name := "wait", usage := "wait (<duration>) (queue:<name>) (system)", most := some 3,
      handledKeys := ["queue"], handledWords := ["system"], behaviour := .wait }
  info :=
    { description := "Delays the queue, converting it to a timed queue when needed"
      parameters :=
        [{ name := "duration", dataType := .duration, description := "How long to wait",
           field := .text, required := false, default := some (.str "3s") },
         { name := "queue", key := some "queue", dataType := .string,
           description := "Queue to delay instead of the current one", field := .text,
           required := false },
         { name := "system", dataType := .boolean,
           description := "Count wall-clock time instead of heartbeat time", field := .checkbox,
           required := false }]
      sample := some "wait 2s" }

/-- Starts a script on a queue of its own. -/
def run : Builtin where
  handler :=
    { name := "run"
      usage := "run [<script>] (def:<element>|...) (id:<name>) (instant) (speed:<duration>)"
      least := 1, most := some 5, isHoldable := true, handledKeys := ["def", "id", "speed"],
      handledWords := ["instant"], behaviour := .run }
  info :=
    { description := "Starts a script on a new queue; with ~ the current queue waits for it"
      parameters :=
        [{ name := "script", dataType := .string, description := "Name of the script",
           field := .text, required := true },
         { name := "def", key := some "def", dataType := .list,
           description := "Values bound to the script definitions, in order", field := .text,
           required := false },
         { name := "id", key := some "id", dataType := .string,
           description := "Id for the new queue", field := .text, required := false },
         { name := "instant", dataType := .boolean, description := "Run on an instant queue",
           field := .checkbox, required := false },
         { name := "speed", key := some "speed", dataType := .duration,
           description := "Run on a timed queue with this pause between entries", field := .text,
           required := false }]
      saveKeys := some ["created_queue"]
      sample := some "~run greet def:world save:greeting" }

/-! ## Files -/

/-- Reads a file. -/
def fileRead : Builtin where
  handler :=
    { name := "fileread", usage := "fileread [path:<path>]", least := 1, most := some 1,
      isHoldable := true, handledKeys := ["path"], behaviour := .fileRead }
  info :=
    { description := "Reads a file as binary data"
      parameters :=
        [{ name := "path", key := some "path", dataType := .string,
           description := "File path, relative to the data folder", field := .file,
           required := true }]
      saveKeys := some ["data"]
      sample := some "~fileread path:notes.txt save:notes" }

/-- Writes a file. -/
def fileWrite : Builtin where
  handler :=
    { name := "filewrite", usage := "filewrite [path:<path>] [data:<binary>]", least := 2,
      most := some 2, isHoldable := true, handledKeys := ["path", "data"],
      behaviour := .fileWrite }
  info :=
    { description := "Writes binary data or text to a file, creating folders as needed"
      parameters :=
        [{ name := "path", key := some "path", dataType := .string,
           description := "File path, relative to the data folder", field := .file,
           required := true },
         { name := "data", key := some "data", dataType := .binary,
           description := "Content to write; text is written as UTF-8", field := .textarea,
           required := true }]
      sample := some "~filewrite path:out.txt data:<element[hello].utf8_encode>" }

/-- Copies a file. -/
def fileCopy : Builtin where
  handler :=
    { name := "filecopy", usage := "filecopy [origin:<path>] [destination:<path>] (overwrite)",
      least := 2, most := some 3, isHoldable := true, handledKeys := ["origin", "destination"],
      handledWords := ["overwrite"], behaviour := .fileCopy }
  info :=
    { description := "Copies a file"
      parameters :=
        [{ name := "origin", key := some "origin", dataType := .string,
           description := "File to copy", field := .file, required := true },
         { name := "destination", key := some "destination", dataType := .string,
           description := "Where to copy it", field := .file, required := true },
         { name := "overwrite", dataType := .boolean,
           description := "Replace the destination if it exists", field := .checkbox,
           required := false }]
      saveKeys := some ["success"]
      sample := some "~filecopy origin:a.txt destination:backup/a.txt overwrite save:copy" }

/-! ## Web requests -/

/-- The request methods. -/
def webMethods : List String :=
  ["GET", "POST", "HEAD", "OPTIONS", "PUT", "DELETE", "PATCH"]

/-- Sends a web request. -/
def webRequest : Builtin where
  handler :=
    { name := "webget"
      usage := "webget [<url>] (data:<data>) (method:<method>) (headers:<map>) " ++
        "(timeout:<duration>/\x7b10s\x7d) (savefile:<path>) (hide_failure)"
      least := 1, most := some 7, isHoldable := true,
      handledKeys := ["data", "method", "headers", "timeout", "savefile"],
      handledWords := ["hide_failure"], keyAliases := [("post", "data")],
      behaviour := .webRequest }
  info :=
    { description := "Sends an HTTP request and saves the response on the entry"
      parameters :=
        [{ name := "url", dataType := .string,
           description := "Address to request, starting with http:// or https://",
           field := .text, required := true },
         { name := "data", key := some "data", dataType := .binary,
           description := "Request body; text is sent as UTF-8. Also accepted as post:",
           field := .textarea, required := false },
         { name := "method", key := some "method", dataType := .string,
           description := "HTTP method; GET, or POST when data is given", field := .select,
           required := false },
         { name := "headers", key := some "headers", dataType := .map,
           description := "Request headers as a map or name=value|name=value", field := .json,
           required := false },
         { name := "timeout", key := some "timeout", dataType := .string,
           description := "How long to wait for a response", field := .text, required := false,
           default := some (.str "10s") },
         { name := "savefile", key := some "savefile", dataType := .string,
           description := "Also write the response body to this file", field := .file,
           required := false },
         { name := "hide_failure", dataType := .boolean,
           description := "Do not report failed requests", field := .checkbox,
           required := false }]
      saveKeys :=
        some ["status", "failed", "result", "result_binary", "result_headers", "time_ran"]
      sample := some "~webget https://example.com/api timeout:5s save:request" }

/-- A module of built-in commands. -/
def group (name description : String) (members : List Builtin) : CommandModule :=
  { name, description
    handlers := members.map (·.handler)
    infos := members.map fun b => (b.handler.name, b.info)
    commands := members.map (·.handler.name) }

/-- The modules that every engine starts with. -/
def modules : List CommandModule :=
  [group "core" "Script output" [debug],
   group "queue" "Definitions, blocks, loops, delays and sub-scripts on the current queue"
     [define, determine, stop, condition, loop, wait, run],
   group "file" "File access under the configured data folder" [fileRead, fileWrite, fileCopy],
   group "web" "HTTP requests" [webRequest]]

end Builtin

end QueueScript
