import QueueScript.Engine.Commands.Condition
import QueueScript.Engine.Commands.Definitions
import QueueScript.Engine.Commands.Host
import QueueScript.Engine.Commands.Loop
import QueueScript.Engine.Commands.Output
import QueueScript.Engine.Commands.Pacing
import QueueScript.Engine.Commands.Web

/-!
# The two steps of a command

Which parse step and which execute step a handler stands for.
-/

namespace QueueScript.Commands

/-- Why a command with the stub for a handler cannot run. -/
def stubFault (code : Compiled) : ArgumentFault :=
  match code.intended with
  | some h => .wrongCount code.keyword h.least h.most code.counted.length
  | none => .unknownCommand code.keyword

/-- Reads the resolved arguments of an entry into objects on it. -/
def parse (calls : Calls) (n : EntryRef) : Action Unit := do
  let code := (← Action.entry n).code
  match code.handler.behaviour with
  | .stub => Action.refuse (stubFault code)
  | .debug => Debug.parse n
  | .define => Define.parse n
  | .determine => Determine.parse n
  | .stop => takeNone n
  | .condition => Condition.parse n
  | .loop => Loop.parse calls n
  | .wait => Wait.parse n
  | .run => Run.parse calls n
  | .fileRead => Files.Read.parse calls n
  | .fileWrite => Files.Write.parse calls n
  | .fileCopy => Files.Copy.parse calls n
  | .webRequest => Web.parse calls n
  | .host command => Host.parse command n

/-- Does what the command of an entry is for. -/
def execute (calls : Calls) (n : EntryRef) : Action Unit := do
  match (← Action.entry n).code.handler.behaviour with
  | .stub => pure ()
  | .debug => Debug.execute n
  | .define => Define.execute n
  | .determine => Determine.execute n
  | .stop => Stop.execute n
  | .condition => Condition.execute calls n
  | .loop => Loop.execute calls n
  | .wait => Wait.execute calls n
  | .run => Run.execute calls n
  | .fileRead => Files.Read.execute n
  | .fileWrite => Files.Write.execute n
  | .fileCopy => Files.Copy.execute n
  | .webRequest => Web.execute calls n
  | .host command => Host.execute command n

end QueueScript.Commands
