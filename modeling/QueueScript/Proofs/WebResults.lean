import QueueScript.Proofs.Confinement
import QueueScript.Proofs.Handoffs
import QueueScript.Proofs.KeptScripts

/-!
# What a web request leaves on its entry

A web request runs in the background.  It gets a response or none; a response is read or not; and the body
of a response that is ok is written to a file if the entry asks for that.  Whatever comes of it is handed to
the entry later, by way of an outcome.  There are two kinds of outcomes, and here is what each of them
leaves: a response leaves all results, also when nothing was answered; a body that could not be written
leaves none (`Background.Unwritten`).

The result that says whether the request failed looks at the status only.  So a response that is ok but
whose body could not be read counts as one that did not fail.
-/

namespace QueueScript

/-! ## Several objects stored one after the other -/

namespace Keyed

variable {α : Type}

/-- The table with values put under keys one after the other, case of the keys aside. -/
def putAll (t : Keyed α) (pairs : List (String × α)) : Keyed α :=
  pairs.foldl (fun t p => t.put (Text.lower p.1) p.2) t

/-- A key that is not among those that are put keeps its value. -/
theorem get?_putAll_of_not_mem {pairs : List (String × α)} {k : String}
    (h : k ∉ pairs.map (Text.lower ·.1)) (t : Keyed α) : (t.putAll pairs).get? k = t.get? k := by
  induction pairs generalizing t with
  | nil => rfl
  | cons p rest ih =>
    obtain ⟨hp, hrest⟩ := List.ne_and_not_mem_of_not_mem_cons h
    exact (ih hrest _).trans (t.get?_put_of_ne p.2 hp)

/-- Values that are put under different keys are all there. -/
theorem get?_putAll {pairs : List (String × α)} (h : (pairs.map (Text.lower ·.1)).Nodup)
    {p : String × α} (hp : p ∈ pairs) (t : Keyed α) :
    (t.putAll pairs).get? (Text.lower p.1) = some p.2 := by
  induction pairs generalizing t with
  | nil => cases hp
  | cons q rest ih =>
    obtain ⟨hq, hrest⟩ := List.nodup_cons.1 h
    rcases List.mem_cons.1 hp with rfl | hp
    · show (putAll (t.put (Text.lower p.1) p.2) rest).get? (Text.lower p.1) = some p.2
      rw [get?_putAll_of_not_mem hq, get?_put_self]
    · exact ih hrest hp _

end Keyed

theorem Entries.each_store {n : EntryRef} (pairs : List (String × Value)) {e : Engine}
    (hn : n < e.entries.size) :
    ∃ x, Action.each (fun p => store n p.1 p.2) pairs e = (.ok (), x) ∧ n < x.entries.size ∧
      (x.entry n).objects = (e.entry n).objects.putAll pairs := by
  induction pairs generalizing e with
  | nil => exact ⟨e, rfl, hn, rfl⟩
  | cons p rest ih =>
    let put (y : Entry) : Entry := { y with objects := y.objects.put (Text.lower p.1) p.2 }
    have size : n < (e.changeEntry n put).entries.size := by simpa using hn
    obtain ⟨x, stored, there, objects⟩ := ih size
    refine ⟨x, ?_, there, ?_⟩
    · have first : store n p.1 p.2 e = (.ok (), e.changeEntry n put) := rfl
      exact (Action.bind_ok first).trans stored
    · rw [objects, e.entry_changeEntry_self hn]
      rfl

/-! ## What comes of a request -/

/-- Whether a response has a status that is ok. -/
def WebPlan.isOk (plan : WebPlan) : Bool :=
  decide (200.0 ≤ plan.status) && decide (plan.status < 300.0)

/-- What is read of the body of a response: nothing if reading fails. -/
def WebPlan.readBody (plan : WebPlan) : Bytes :=
  if plan.bodyError.isSome then [] else plan.body

namespace Background

/-- The response that the next request gets, if it gets one. -/
def answer? (e : Engine) : Option WebPlan :=
  e.webPlans.head?.filter (·.error.isNone)

/-- Whether the next request gets a response with a status that is ok. -/
def answersOk (e : Engine) : Bool :=
  (answer? e).any WebPlan.isOk

/-- A response is ok, but its body cannot be written where the request wants it. -/
def Unwritten (e : Engine) (r : WebRequest) : Prop :=
  ∃ plan path, answer? e = some plan ∧ plan.isOk = true ∧ r.saveTo = some path ∧
    (e.files.write path plan.readBody).2 ≠ none

theorem respond_eq (plan : WebPlan) :
    (respond plan).failed = !plan.isOk ∧ (respond plan).body = plan.readBody := by
  unfold respond WebPlan.readBody
  cases plan.bodyError with
  | none => exact ⟨rfl, rfl⟩
  | some message => exact ⟨rfl, rfl⟩

/-- A request fails unless it gets a response that is ok, and it touches no files. -/
theorem send_eq (e : Engine) (r : WebRequest) :
    (send e r).1.files = e.files ∧ (send e r).2.failed = !answersOk e ∧
      ∀ plan, answer? e = some plan → (send e r).2.body = plan.readBody := by
  unfold send answersOk answer?
  cases hplans : e.webPlans with
  | nil => exact ⟨rfl, rfl, nofun⟩
  | cons plan rest =>
    cases herror : plan.error with
    | some message => simp [herror]
    | none =>
      obtain ⟨failed, body⟩ := respond_eq plan
      simp [herror, failed, body]

end Background

/-- A file is written in the place of anything but a folder. -/
theorem FileSystem.writeFile_eq {fs : FileSystem} {p : Path} (content : Bytes) (h : fs.get? p ≠ some .folder) :
    fs.writeFile p content = .ok (fs.put p (.file content)) := by
  unfold writeFile
  split
  · exact absurd ‹_› h
  · rfl

/-- What was written can be read. -/
theorem FileSystem.read_write {fs : FileSystem} {p : Path} {content : Bytes}
    (h : (fs.write p content).2 = none) : (fs.write p content).1.read p = .ok content := by
  unfold write attempt at h ⊢
  cases made : fs.makeFolder p.parent with
  | error fault => simp [made] at h
  | ok fs' =>
    simp only [made] at h ⊢
    have free : fs'.get? p ≠ some .folder := by
      intro folder
      simp [writeFile, folder] at h
    have below : p ≠ [] := by
      rintro rfl
      exact free rfl
    rw [writeFile_eq content free]
    simp [read, get?_put fs' below]

namespace Background

/-- What came of a request, with the time it took. -/
def timed (e : Engine) (r : WebRequest) : WebResponse :=
  { (send e r).2 with timeRan := Number.round ((send e r).1.clock - e.clock) }

theorem fetch_of_unsaved {e : Engine} {r : WebRequest} (h : answersOk e = false ∨ r.saveTo = none) :
    fetch e r = ((send e r).1, .response (timed e r) r.url r.isSilent) := by
  obtain ⟨-, failed, -⟩ := send_eq e r
  rcases h with h | h
  · simp [fetch, timed, failed, h]
  · cases hok : answersOk e <;> simp [fetch, timed, failed, h, hok]

theorem fetch_of_saved {e : Engine} {r : WebRequest} {plan : WebPlan} {path : Path}
    (hplan : answer? e = some plan) (hok : plan.isOk = true) (hpath : r.saveTo = some path) :
    let written := e.files.write path plan.readBody
    fetch e r = ({ (send e r).1 with files := written.1 },
      match written.2 with
      | some fault => .failure (.file fault)
      | none => .response (timed e r) r.url r.isSilent) := by
  obtain ⟨files, failed, body⟩ := send_eq e r
  have ok : answersOk e = true := by simp [answersOk, hplan, hok]
  intro written
  simp only [fetch, failed, ok, hpath, Bool.not_true, files, body plan hplan]
  cases written.2 with
  | some fault => rfl
  | none => simp [written, timed, failed, ok, body plan hplan]

/-- A request ends with a failure if the body cannot be written, and else with a response.  Then the body is
in the file if it was to be written. -/
theorem fetch_cases (e : Engine) (r : WebRequest) :
    (Unwritten e r ∧ ∃ fault, (fetch e r).2 = .failure (.file fault)) ∨
    (¬ Unwritten e r ∧ (fetch e r).2 = .response (timed e r) r.url r.isSilent ∧
      ∀ plan path, answer? e = some plan → plan.isOk = true → r.saveTo = some path →
        (fetch e r).1.files.read path = .ok plan.readBody) := by
  by_cases saved : ∃ plan path, answer? e = some plan ∧ plan.isOk = true ∧ r.saveTo = some path
  · obtain ⟨plan, path, hplan, hok, hpath⟩ := saved
    have fetched := fetch_of_saved hplan hok hpath
    cases hfault : (e.files.write path plan.readBody).2 with
    | some fault =>
      refine .inl ⟨⟨plan, path, hplan, hok, hpath, by simp [hfault]⟩, fault, ?_⟩
      rw [fetched, hfault]
    | none =>
      have same {plan' : WebPlan} {path' : Path} (hplan' : answer? e = some plan')
          (hpath' : r.saveTo = some path') : plan' = plan ∧ path' = path :=
        ⟨Option.some.inj (hplan'.symm.trans hplan), Option.some.inj (hpath'.symm.trans hpath)⟩
      refine .inr ⟨?_, ?_, ?_⟩
      · rintro ⟨plan', path', hplan', -, hpath', fault⟩
        obtain ⟨rfl, rfl⟩ := same hplan' hpath'
        exact fault hfault
      · rw [fetched, hfault]
      · intro plan' path' hplan' _ hpath'
        obtain ⟨rfl, rfl⟩ := same hplan' hpath'
        rw [fetched]
        exact FileSystem.read_write hfault
  · have unsaved : answersOk e = false ∨ r.saveTo = none := by
      by_contra hnot
      obtain ⟨hok, hsave⟩ := not_or.1 hnot
      obtain ⟨plan, hplan, hok⟩ : ∃ plan, answer? e = some plan ∧ plan.isOk = true := by
        simpa [answersOk, Option.any_eq_true] using hok
      obtain ⟨path, hpath⟩ := Option.ne_none_iff_exists'.1 hsave
      exact saved ⟨plan, path, hplan, hok, hpath⟩
    refine .inr ⟨?_, by rw [fetch_of_unsaved unsaved], ?_⟩
    · rintro ⟨plan, path, hplan, hok, hpath, -⟩
      exact saved ⟨plan, path, hplan, hok, hpath⟩
    · intro plan path hplan hok hpath
      exact absurd ⟨plan, path, hplan, hok, hpath⟩ saved

/-! ## What an outcome leaves -/

/-- The results of a response have different names. -/
theorem nodup_responseObjects (r : WebResponse) :
    ((responseObjects r).map (Text.lower ·.1)).Nodup := by
  have names : (responseObjects r).map (Text.lower ·.1) =
      ["status", "failed", "result", "result_binary", "result_headers", "time_ran"].map Text.lower := rfl
  rw [names]
  decide +kernel

/-- A response leaves all its results. -/
theorem apply_response {e : Engine} {n : EntryRef} (hn : n < e.entries.size) (r : WebResponse)
    (url : String) (isSilent : Bool) :
    ∃ x, apply n (.response r url isSilent) e = (.ok (), x) ∧ n < x.entries.size ∧
      ∀ p ∈ responseObjects r, (x.entry n).objects.get? (Text.lower p.1) = some p.2 := by
  obtain ⟨x, stored, there, objects⟩ := Entries.each_store (responseObjects r) hn
  have kept : ∀ p ∈ responseObjects r, (x.entry n).objects.get? (Text.lower p.1) = some p.2 := by
    intro p hp
    rw [objects, Keyed.get?_putAll (nodup_responseObjects r) hp]
  rw [apply, Action.entry_bind]
  dsimp only
  rw [Action.bind_ok stored]
  cases r.failed && !isSilent with
  | true =>
    obtain ⟨events, shown⟩ := x.emit_eq (.error ("Request to '" ++ url ++ "' failed: " ++
      r.error.getD "unknown error") (x.scope n) none) (x.scope n)
    exact ⟨{ x with events }, Prod.ext rfl shown, there, kept⟩
  | false => exact ⟨x, rfl, there, kept⟩

/-- The failure of a request is reported and leaves nothing. -/
theorem apply_failure {e : Engine} {n : EntryRef} (hb : (e.entry n).code.handler.behaviour = .webRequest)
    (f : Failure) : ∃ events, apply n (.failure f) e = (.ok (), { e with events }) := by
  obtain ⟨events, shown⟩ := e.emit_eq (.error ("'" ++ (e.entry n).code.handler.name ++ "' failed: " ++
    f.message) (e.scope n) (some f)) (e.scope n)
  refine ⟨events, ?_⟩
  rw [apply, Action.entry_bind]
  dsimp only
  rw [hb]
  exact Prod.ext rfl shown

/-- What the outcome of a request leaves on its entry when it is handed over. -/
theorem handedOver_request {e x y : Engine} {n : EntryRef} {r : WebRequest} (hn : n < x.entries.size)
    (hb : (x.entry n).code.handler.behaviour = .webRequest) (hd : ¬ Drops x n)
    (h : HandedOver x n (fetch e r).2 y) :
    (y.entry n).isFinished = true ∧
      (Unwritten e r → (y.entry n).objects = (x.entry n).objects) ∧
      (¬ Unwritten e r → ∀ p ∈ responseObjects (timed e r),
        (y.entry n).objects.get? (Text.lower p.1) = some p.2) := by
  -- In both cases the outcome is applied without a failure, and then the entry is marked.
  have marked {z : Engine} (hz : n < z.entries.size) (happly : apply n (fetch e r).2 x = (.ok (), z)) :
      (y.entry n).isFinished = true ∧ (y.entry n).objects = (z.entry n).objects := by
    rw [h.eq_of_applied hd happly, z.entry_changeEntry_self hz]
    exact ⟨rfl, rfl⟩
  obtain ⟨lost, fault, failure⟩ | ⟨kept, response, -⟩ := fetch_cases e r
  · obtain ⟨events, applied⟩ := apply_failure hb (.file fault)
    obtain ⟨finished, objects⟩ := marked (z := { x with events }) hn (by rw [failure, applied])
    exact ⟨finished, fun _ => objects, fun kept => absurd lost kept⟩
  · obtain ⟨z, applied, there, results⟩ := apply_response hn (timed e r) r.url r.isSilent
    obtain ⟨finished, objects⟩ := marked there (by rw [response, applied])
    refine ⟨finished, fun lost => absurd lost kept, fun _ p hp => ?_⟩
    rw [objects]
    exact results p hp

end Background

/-! ## A request is sent -/

namespace Action

variable {α β : Type}

/-- Every result of the action has a property. -/
def Yields (P : α → Prop) (a : Action α) : Prop :=
  ∀ e x e', a e = (.ok x, e') → P x

theorem yields_pure {P : α → Prop} {x : α} (h : P x) : Yields P (pure x : Action α) := by
  intro e y e' heq
  cases heq
  exact h

theorem yields_bind {P : β → Prop} {a : Action α} {f : α → Action β} (h : ∀ x, Yields P (f x)) :
    Yields P (a >>= f) := by
  intro e y e' heq
  obtain ⟨x, e₁, -, rest⟩ := ok_of_bind heq
  exact h x e₁ y e' rest

end Action

namespace Commands

open QueueScript.Action (Yields yields_bind yields_pure ok_of_bind)

variable {calls : Calls} {n : EntryRef} {e e' : Engine}

/-- A request keeps where its body is to be written. -/
theorem Web.requestWith_saveTo (saveTo : Option Path) (body : Option Argument) (url method : Option String)
    (headers : List (String × String)) :
    Yields (·.saveTo = saveTo) (requestWith calls n saveTo body url method headers) := by
  have rest (body : Option Value) : Yields (·.saveTo = saveTo) (do
      let timeout ← Entries.count n "timeout"
      let isSilent ← Entries.flag calls n "hide_failure"
      pure { url := url.getD "", method := method.getD "GET", headers, body, timeout, saveTo, isSilent } :
      Action WebRequest) := yields_bind fun _ => yields_bind fun _ => yields_pure rfl
  cases body with
  | none => exact yields_bind fun b => rest b
  | some a => exact yields_bind fun _ => yields_bind fun b => rest b

/-- The body of the response is written if the entry says where. -/
theorem Web.savePath_isSome {saveTo : Option Path} (h : savePath calls n e = (.ok saveTo, e')) :
    saveTo.isSome = ((e.entry n).code.argument? "savefile").isSome := by
  obtain ⟨text, e₁, asked, rest⟩ := ok_of_bind h
  obtain ⟨given, e₂, found, made⟩ := ok_of_bind asked
  cases made
  have named : given.isSome = ((e.entry n).code.argument? "savefile").isSome := by
    cases hkey : (e.entry n).code.argument? "savefile" with
    | none =>
      rw [Entries.argument?_of_none hkey] at found
      cases found
      rfl
    | some a =>
      rw [Entries.argument?_of_some hkey] at found
      obtain ⟨v, e₃, -, last⟩ := ok_of_bind found
      cases last
      rfl
  rw [← named]
  cases given with
  | none =>
    cases rest
    rfl
  | some a =>
    obtain ⟨_, e₃, -, rest⟩ := ok_of_bind rest
    obtain ⟨path, e₄, -, last⟩ := ok_of_bind rest
    cases last
    rfl

/-- An entry that passes its checks has its request under way. -/
theorem Web.execute_launches (hb : (e.entry n).code.handler.behaviour = .webRequest)
    (h : Commands.execute calls n e = (.ok (), e')) :
    ∃ (x : Engine) (r : WebRequest), e' = { x with inFlight := x.inFlight ++ [⟨n, .request r⟩] } ∧
      r.saveTo.isSome = ((e.entry n).code.argument? "savefile").isSome := by
  rw [Commands.execute, Action.entry_bind, hb] at h
  obtain ⟨_, e₁, allowed, requested⟩ := ok_of_bind h
  have same : e₁ = e := by
    obtain ⟨c, e₂, looked, rest⟩ := ok_of_bind allowed
    cases looked
    split at rest
    · cases rest
    · cases rest
      rfl
  subst same
  obtain ⟨r, e₂, asked, reported⟩ := ok_of_bind requested
  obtain ⟨_, e₃, -, launched⟩ := ok_of_bind reported
  cases launched
  refine ⟨e₃, r, rfl, ?_⟩
  rw [request_eq] at asked
  obtain ⟨saveTo, e₄, saved, rest⟩ := ok_of_bind asked
  rw [← savePath_isSome saved]
  refine congrArg Option.isSome (yields_bind (P := fun r => r.saveTo = saveTo) (fun headers => yields_bind fun body =>
    yields_bind fun url => yields_bind fun method => ?_) e₄ r e₂ rest)
  cases headers with
  | none => exact yields_bind fun _ => requestWith_saveTo saveTo _ _ _ _
  | some a => exact yields_bind fun _ => yields_bind fun _ => requestWith_saveTo saveTo _ _ _ _

end Commands

/-! ## Along runs -/

/-- Entries keep their commands between any two engines of a run. -/
theorem Reachable.code_eq {config : Config} {e e' : Engine} (he : Reachable (Host.create config []) e)
    (h : Reachable e e') {n : EntryRef} (hn : n < e.entries.size) : (e'.entry n).code = (e.entry n).code := by
  have orderly := he.orderly
  have step := Discipline.Upheld.step_runs Upkeep.nothing ⟨orderly.1, trivial⟩ orderly.2 h.runs
  exact step.2.1.2.code hn

/-- Runs come one after the other. -/
theorem Reachable.trans {e₀ e e' : Engine} (h : Reachable e₀ e) (h' : Reachable e e') : Reachable e₀ e' :=
  h'.runs.reachable h

/-- In the middle of a beat, entries still have their commands. -/
theorem Heartbeat.keeps_takenUpTo (e : Engine) (seconds : Option Float) (hs : List Handoff) :
    e.Keeps (takenUpTo e seconds hs) := by
  have opened : e.Keeps (opened e seconds) := Engine.keeps_of_tables rfl rfl
  exact opened.trans ((Action.still_each still_takeOverSafely).run _).toKeeps

/-- A request that settles queues its outcome. -/
theorem Background.settleAt_request {e : Engine} {i : Nat} {n : EntryRef} {r : WebRequest}
    (h : e.inFlight[i]? = some ⟨n, .request r⟩) :
    let rest : Engine := { e with inFlight := e.inFlight.eraseIdx i }
    settleAt i e = (.ok (), settleOne rest ⟨n, .request r⟩) ∧
      (settleOne rest ⟨n, .request r⟩).files = (fetch rest r).1.files ∧
      (settleOne rest ⟨n, .request r⟩).handoffs = e.handoffs ++ [.settle n (fetch rest r).2] := by
  intro rest
  refine ⟨?_, rfl, ?_⟩
  · simp only [settleAt, Action.change, h, rest]
  · obtain ⟨files, clock, webPlans, webCalls, performed⟩ := perform_eq rest (.request r)
    have handoffs : (fetch rest r).1.handoffs = e.handoffs := by
      have kept := congrArg Engine.handoffs performed
      exact kept
    show (fetch rest r).1.handoffs ++ [.settle n (fetch rest r).2] = _
    rw [handoffs]

/-- Whether an outcome is dropped depends on queues and the entry only. -/
theorem Background.drops_congr {e e' : Engine} {n : EntryRef} (hq : e'.queues = e.queues)
    (hn : e'.entry n = e.entry n) : Drops e' n ↔ Drops e n := by
  have residing : e'.residingQueue n = e.residingQueue n := by
    unfold Engine.residingQueue
    rw [hn, funext (Engine.follow_congr hq)]
  unfold Drops
  rw [residing]
  simp only [Engine.queue_congr hq]

/-- What the outcome of a request leaves on its entry in a beat. -/
theorem Heartbeat.taken_request {e e' : Engine} {n : EntryRef} {r : WebRequest} {before after : List Handoff}
    (ht : e'.Tidy) (hb : (e'.entry n).code.handler.behaviour = .webRequest) (seconds : Option Float)
    (h : e'.handoffs = before ++ .settle n (Background.fetch e r).2 :: after) :
    let x := takenUpTo e' seconds before
    let y := takenUpTo e' seconds (before ++ [.settle n (Background.fetch e r).2])
    ¬ Background.Drops x n →
      (y.entry n).isFinished = true ∧
        (Background.Unwritten e r → (y.entry n).objects = (x.entry n).objects) ∧
        (¬ Background.Unwritten e r → ∀ p ∈ Background.responseObjects (Background.timed e r),
          (y.entry n).objects.get? (Text.lower p.1) = some p.2) := by
  intro x y hd
  have kept := keeps_takenUpTo e' seconds before
  have there : n < e'.entries.size := (ht.handoffs (h ▸ List.mem_append_right _ List.mem_cons_self)).1
  obtain ⟨z, taken, handed⟩ := takeOverSafely_settle x n (Background.fetch e r).2
  have same : y = z := by
    have mem : ∀ g ∈ before ++ [Handoff.settle n (Background.fetch e r).2], g ∈ e'.handoffs := by
      intro g hg
      rw [h]
      simp only [List.mem_append, List.mem_cons, List.not_mem_nil, or_false] at hg ⊢
      exact hg.imp id .inl
    exact (takenUpTo_concat ht seconds mem).trans (congrArg Prod.snd taken)
  have web : (x.entry n).code.handler.behaviour = .webRequest := by
    rw [kept.code there]
    exact hb
  exact Background.handedOver_request (Nat.lt_of_lt_of_le there kept.size) web hd (same ▸ handed)

/-- What a web request leaves on its entry.  An entry that passes its checks has a request under way, which
keeps whether the body is to be written.  When the work settles, whatever the server and the files are then,
and its outcome is handed over in a later beat, while the queue of the entry is not stopped, the entry is
done.  If the body of a response that is ok could not be written, the entry has the objects it had; else
it has all results, it counts as failed unless there was a response that is ok, and what was read of the
body is in the file if it was to be written. -/
theorem request_results {config : Config} {e : Engine} (h : Reachable (Host.create config []) e) :
    (∀ calls x n y, (x.entry n).code.handler.behaviour = .webRequest →
      Commands.execute calls n x = (.ok (), y) →
      ∃ (z : Engine) (r : WebRequest), y = { z with inFlight := z.inFlight ++ [⟨n, .request r⟩] } ∧
        r.saveTo.isSome = ((x.entry n).code.argument? "savefile").isSome) ∧
    ∀ i n r, e.inFlight[i]? = some ⟨n, .request r⟩ → (e.entry n).code.handler.behaviour = .webRequest →
      ∃ settled outcome, Background.settleAt i e = (.ok (), settled) ∧
        settled.handoffs = e.handoffs ++ [.settle n outcome] ∧
        ∀ e' before after seconds, Reachable settled e' → e'.handoffs = before ++ .settle n outcome :: after →
          let x := Heartbeat.takenUpTo e' seconds before
          let y := Heartbeat.takenUpTo e' seconds (before ++ [.settle n outcome])
          ¬ Background.Drops x n →
            (y.entry n).isFinished = true ∧
            (Background.Unwritten e r → (y.entry n).objects = (x.entry n).objects) ∧
            (¬ Background.Unwritten e r →
              (∀ key ∈ Builtin.webRequest.info.saveKeys.getD [], (y.entry n).hasObject key = true) ∧
              (y.entry n).object? "failed" = some (.bool !Background.answersOk e) ∧
              ∀ plan path, Background.answer? e = some plan → plan.isOk = true → r.saveTo = some path →
                settled.files.read path = .ok plan.readBody) := by
  refine ⟨fun calls x n y hb hran => Commands.Web.execute_launches hb hran, ?_⟩
  intro i n r hwork hb
  let rest : Engine := { e with inFlight := e.inFlight.eraseIdx i }
  let settled := Background.settleOne rest ⟨n, .request r⟩
  obtain ⟨settles, files, queued⟩ := Background.settleAt_request hwork
  refine ⟨settled, (Background.fetch rest r).2, settles, queued, ?_⟩
  intro e' before after seconds later split x y hd
  have run : Reachable e e' := by
    have act : (Operation.settle i).act 0 e = (.ok (), settled) := settles
    have start : Reachable e e := .first
    have next := Reachable.next 0 (.settle i) start trivial (by rw [act]; nofun)
    rw [act] at next
    exact next.trans later
  have web : (e'.entry n).code.handler.behaviour = .webRequest := by
    rw [h.code_eq run (h.tidy.inFlight _ (List.mem_of_getElem? hwork)).1]
    exact hb
  obtain ⟨finished, lost, results⟩ := Heartbeat.taken_request (h.trans run).tidy web seconds split hd
  refine ⟨finished, lost, fun written => ?_⟩
  have stored := results written
  have names : (Background.responseObjects (Background.timed rest r)).map Prod.fst =
      Builtin.webRequest.info.saveKeys.getD [] := rfl
  refine ⟨?_, ?_, ?_⟩
  · intro key hkey
    obtain ⟨p, hp, rfl⟩ := List.mem_map.1 (names ▸ hkey)
    rw [Entry.hasObject, Keyed.has_eq_isSome, stored p hp]
    rfl
  · have found := stored ("failed", .bool (Background.timed rest r).failed) (by simp [Background.responseObjects])
    have failed : (Background.timed rest r).failed = !Background.answersOk e := (Background.send_eq rest r).2.1
    rw [failed] at found
    rw [Entry.object?, found]
  · obtain ⟨lost, -⟩ | ⟨-, -, saved⟩ := Background.fetch_cases rest r
    · exact absurd lost written
    · exact saved

/-- The outcome of work is not dropped by a beat right after it settled, if the queue of the entry was not
stopped before. -/
theorem Background.not_drops_settled {e settled : Engine} {i : Nat} {n : EntryRef} {q : QueueRef}
    (h : settleAt i e = (.ok (), settled)) (hq : e.residingQueue n = some q)
    (hs : (e.queue q).state ≠ .stopped) : ¬ Drops (Heartbeat.takenUpTo settled none []) n := by
  obtain ⟨files, clock, webPlans, webCalls, same⟩ := Operation.settleAt_eq e i
  obtain ⟨-, rfl⟩ := Prod.mk.inj (h.symm.trans same)
  intro drops
  obtain ⟨q', hq', stopped⟩ : Drops e n := by
    refine (drops_congr ?_ ?_).1 drops <;> rfl
  exact hs (Option.some.inj (hq'.symm.trans hq) ▸ stopped)

/-- The body of a response that is ok cannot be written below a regular file: the entry is done, and none
of the results is on it. -/
theorem request_results_lost :
    let files : FileSystem := ⟨[(["out"], .file [120])]⟩
    let e := ((Operation.world files [{ body := [104, 105] }] 0.0).act 0
      (Host.create { allowFileWrite := true } [])).2
    let source := "~webget https://example.com/x savefile:out/page.txt save:r"
    let run := Operation.runAll
      [(10, .runCommands source none {} true), (0, .settle 0), (10, .tick none)] e
    Background.answersOk e = true ∧ (run.2.entry 0).isFinished = true ∧
      ∀ key ∈ Builtin.webRequest.info.saveKeys.getD [], (run.2.entry 0).hasObject key = false := by
  decide +kernel

/-- A request that is waited for is answered, and the body is written to a folder made for it.  The
results are there with the next beat. -/
theorem request_results_saved :
    let e₀ := ((Operation.world ⟨[]⟩ [{ body := [104, 105] }] 0.0).act 0
      (Host.create { allowFileWrite := true } [])).2
    let source := "~webget https://example.com/x savefile:out/page.txt"
    let e₁ := ((Operation.runCommands source none {} false).act 10 e₀).2
    let x := (do
      let _ ← Entries.resolveArguments (Drive.calls 9) 0
      Commands.parse (Drive.calls 9) 0 : Action Unit) e₁
    let e := ((Operation.start 0).act 10 e₁).2
    (∃ y, Commands.execute (Drive.calls 9) 0 x.2 = (.ok (), y) ∧
      ∃ (z : Engine) (r : WebRequest), y = { z with inFlight := z.inFlight ++ [⟨0, .request r⟩] } ∧
        r.saveTo.isSome = true) ∧
    ∃ settled outcome, Background.settleAt 0 e = (.ok (), settled) ∧
      settled.handoffs = [.settle 0 outcome] ∧
      let y := Heartbeat.takenUpTo settled none [.settle 0 outcome]
      (y.entry 0).isFinished = true ∧
      (∀ key ∈ Builtin.webRequest.info.saveKeys.getD [], (y.entry 0).hasObject key = true) ∧
      (y.entry 0).object? "failed" = some (.bool false) ∧
      settled.files.read ["out", "page.txt"] = .ok [104, 105] := by
  intro e₀ source e₁ x e
  have web {b : Behaviour} (h : (match b with | .webRequest => true | _ => false) = true) : b = .webRequest := by
    cases b <;> first | rfl | cases h
  obtain ⟨⟨ok₁, here, ok⟩, ⟨executes, isWeb, named⟩, flight, isWeb', idle, ⟨answers, body⟩, free, resides, state⟩ :
      (((Operation.runCommands source none {} false).act 10 e₀).1.toBool = true ∧ 0 < e₁.queues.size ∧
        ((Operation.start 0).act 10 e₁).1.toBool = true) ∧
      ((Commands.execute (Drive.calls 9) 0 x.2).1.toBool = true ∧
        (match (x.2.entry 0).code.handler.behaviour with | .webRequest => true | _ => false) = true ∧
        ((x.2.entry 0).code.argument? "savefile").isSome = true) ∧
      (e.inFlight.map fun w => (w.entry, match w.job with | .request r => r.saveTo | _ => none)) =
        [(0, some ["out", "page.txt"])] ∧
      (match (e.entry 0).code.handler.behaviour with | .webRequest => true | _ => false) = true ∧
      e.handoffs.isEmpty = true ∧
      (Background.answersOk e = true ∧ (Background.answer? e).map WebPlan.readBody = some [104, 105]) ∧
      (e.files.write ["out", "page.txt"] [104, 105]).2.isNone = true ∧
      e.residingQueue 0 = some 0 ∧ (e.queue 0).state ≠ .stopped := by decide +kernel
  have run₀ : Reachable (Host.create { allowFileWrite := true } []) e₀ :=
    .ok .first 0 (.world ⟨[]⟩ [{ body := [104, 105] }] 0.0) trivial rfl
  have run₁ : Reachable (Host.create { allowFileWrite := true } []) e₁ :=
    run₀.ok 10 (.runCommands source none {} false) trivial ok₁
  have run : Reachable (Host.create { allowFileWrite := true } []) e := run₁.ok 10 (.start 0) here ok
  clear_value e x
  obtain ⟨launches, settles⟩ := request_results run
  constructor
  · have executed := Action.ok_of_toBool executes
    obtain ⟨z, r, launched, saved⟩ := launches (Drive.calls 9) x.2 0 _ (web isWeb) executed
    exact ⟨_, executed, z, r, launched, saved.trans named⟩
  · obtain ⟨⟨n, job⟩, alone, hw⟩ := List.map_eq_singleton_iff.1 flight
    obtain ⟨rfl, hjob⟩ := Prod.mk.inj hw
    obtain ⟨r, rfl, saveTo⟩ : ∃ r, job = .request r ∧ r.saveTo = some ["out", "page.txt"] := by
      cases job <;> first | exact ⟨_, rfl, hjob⟩ | cases hjob
    obtain ⟨settled, outcome, hsettle, queued, beats⟩ := settles 0 0 r (by rw [alone]; rfl) (web isWeb')
    rw [List.isEmpty_iff.1 idle, List.nil_append] at queued
    obtain ⟨plan, planned, body⟩ := Option.map_eq_some_iff.1 body
    have isOk : plan.isOk = true := by simpa [Background.answersOk, planned] using answers
    -- Nothing stands in the way of the file.
    have written : ¬ Background.Unwritten e r := by
      rintro ⟨plan', path, planned', -, hpath, fault⟩
      cases planned.symm.trans planned'
      cases saveTo.symm.trans hpath
      exact fault (Option.isNone_iff_eq_none.1 (body ▸ free))
    have runs := Background.not_drops_settled hsettle resides state
    obtain ⟨finished, -, results⟩ := beats settled [] [] none .first queued runs
    obtain ⟨keys, failed, saved⟩ := results written
    rw [answers] at failed
    exact ⟨settled, outcome, hsettle, queued, finished, keys, failed,
      body ▸ saved plan _ planned isOk saveTo⟩

end QueueScript
