import QueueScript.Engine.Queues

/-!
# Background work

Work that entries start and do not finish at once: files and web requests. Work touches files and
the web, never queues or entries; its outcome is handed to the entry at a later heartbeat, and is
dropped if the entry's queue has been stopped by then.
-/

namespace QueueScript.Background

/-! ## Doing work -/

/-- The bytes and headers of a response, before the body is read. -/
def respond (plan : WebPlan) : WebResponse :=
  let ok := decide (200.0 ≤ plan.status) && decide (plan.status < 300.0)
  let r : WebResponse :=
    { status := some plan.status, failed := !ok, headers := textFields plan.headers }
  match plan.bodyError with
  | some message => { r with error := some message }
  | none =>
    let problem := Text.trim ("HTTP " ++ Number.text plan.status ++ " " ++ plan.statusText)
    { r with body := plan.body, error := if ok then none else some problem }

/-- Sends a web request: the engine afterwards, and what came of it, the time it took aside. -/
def send (e : Engine) (r : WebRequest) : Engine × WebResponse :=
  let e := { e with webCalls := r :: e.webCalls }
  match e.webPlans with
  | [] => (e, { error := some "fetch failed" })
  | plan :: rest =>
    let e := { e with webPlans := rest, clock := e.clock + plan.millis }
    match plan.error with
    | some message => (e, { error := some message })
    | none => (e, respond plan)

/-- Sends a web request and writes the body of a response that did not fail where it is to go. -/
def fetch (e : Engine) (r : WebRequest) : Engine × Outcome :=
  let started := e.clock
  let (e, response) := send e r
  let response := { response with timeRan := Number.round (e.clock - started) }
  match response.failed, r.saveTo with
  | false, some path =>
    let (files, fault) := e.files.write path response.body
    let e := { e with files }
    match fault with
    | some f => (e, .failure (.file f))
    | none => (e, .response response r.url r.isSilent)
  | _, _ => (e, .response response r.url r.isSilent)

/-- The outcome of a step on files that gives nothing. -/
def afterFiles (e : Engine) (r : FileSystem × Option FileFault) : Engine × Outcome :=
  let e := { e with files := r.1 }
  match r.2 with
  | some f => (e, .failure (.file f))
  | none => (e, .done)

/-- Does a job: the engine afterwards, and the outcome. -/
def perform (e : Engine) : Job → Engine × Outcome
  | .read path =>
    match e.files.read path with
    | .ok content => (e, .content content)
    | .error f => (e, .failure (.file f))
  | .write path content => afterFiles e (e.files.write path content)
  | .copy origin destination => afterFiles e (e.files.copy origin destination)
  | .request r => fetch e r
  | .give v => (e, .value v)
  | .fail message => (e, .failure (.host message))
  | .giveUnusable message => (e, .unusable message)

/-- Starts work for an entry. -/
def launch (n : EntryRef) (job : Job) : Action Unit :=
  Action.change fun e => { e with inFlight := e.inFlight ++ [⟨n, job⟩] }

/-- Does one piece of work and queues its handoff. -/
def settleOne (e : Engine) (w : Work) : Engine :=
  let (e, outcome) := perform e w.job
  { e with handoffs := e.handoffs ++ [.settle w.entry outcome] }

/-- Does all work under way, in the order it was started. -/
def settleAll : Action Unit :=
  Action.change fun e => e.inFlight.foldl settleOne { e with inFlight := [] }

/-! ## Applying outcomes -/

/-- The objects that a response leaves on its entry. -/
def responseObjects (r : WebResponse) : List (String × Value) :=
  [("status", (r.status.map Value.num).getD .null),
   ("failed", .bool r.failed),
   ("result", .str (Text.decodeUtf8 r.body)),
   ("result_binary", .bytes r.body),
   ("result_headers", .obj (r.headers.map fun (k, v) => (k, .str v))),
   ("time_ran", .num r.timeRan)]

/-- Applies an outcome to its entry. -/
def apply (n : EntryRef) (outcome : Outcome) : Action Unit := do
  let handler := (← Action.entry n).code.handler
  match outcome with
  | .content b => Entries.store n "data" (.bytes b)
  | .done =>
    match handler.behaviour with
    | .fileCopy => Entries.store n "success" (.bool true)
    | _ => pure ()
  | .response r url isSilent => do
    Action.each (fun (k, v) => Entries.store n k v) (responseObjects r)
    if r.failed && !isSilent then
      Action.error ("Request to '" ++ url ++ "' failed: " ++ r.error.getD "unknown error")
        (← Entries.scope n) none
  | .value v => Entries.store n "result" v
  | .unusable message => Action.fail (.host message)
  | .failure f =>
    match handler.behaviour with
    | .fileCopy => do
      Entries.store n "success" (.bool false)
      Action.error ("Cannot copy file: " ++ f.message) (← Entries.scope n) (some f)
    | _ =>
      Action.error ("'" ++ handler.name ++ "' failed: " ++ f.message) (← Entries.scope n) (some f)

/-- Hands an outcome to its entry, unless the entry's queue was stopped. The entry is done in any
case. -/
def handOver (n : EntryRef) (outcome : Outcome) : Action Unit :=
  Action.ensuring
    (do
      let stopped ← Action.look fun e =>
        (e.residingQueue n).filter fun q => (e.queue q).state == .stopped
      match stopped with
      | some q =>
        let name := (← Action.entry n).code.handler.name
        let id := (← Action.queue q).id
        Action.trace ("Discarding '" ++ name ++ "' result: queue '" ++ id ++ "' was stopped")
          (← Entries.scope n)
      | none => apply n outcome)
    (Entries.finish n)

end QueueScript.Background
