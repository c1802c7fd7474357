import QueueScript.Proofs.Pacing.Programs
import QueueScript.Proofs.Pacing.Progress

/-!
# Pacing changes nothing but the moments

A program of local commands is run on an instant queue and on a timed queue, however long the pauses are
and whatever beats there are.  After as many entries, the queues have the same account
(`pacing_changes_nothing`): what they have run and whether it ran, output and errors, what the entries share
and what is pending.  So one of the runs is always ahead of the other one on the same way, and the instant
queue can be driven as far as the timed one got.
-/

namespace QueueScript

open Discipline Drive

/-! ## Histories -/

namespace Host

variable {b x e : Engine} {q : QueueRef}

/-- The entries that the queue has run when it was started and the heart has beaten, as they are shown, and
whether they ran. -/
def history (fuel : Nat) (q : QueueRef) (bs : List Heartbeat.Beat) (e : Engine) : List (String × Bool) :=
  ((moments fuel q bs e).getLast?.map (·.executed q)).getD (e.executed q)

/-- The history is what the moments unroll to. -/
theorem unrolls_history (hr : b.registry = []) (hh : b.handoffs = []) (h : Mirrors b q x e)
    (idle : (e.queue q).state = .idle) (fuel : Nat) (bs : List Heartbeat.Beat) :
    Unrolls q (e.executed q) (moments fuel q bs e) (history fuel q bs e) := by
  obtain ⟨l, unrolls⟩ := (tracks_drive hr hh h idle fuel bs).unrolls
  have same : (Queues.launch q x).2.executed q = e.executed q :=
    (launch_mirrors h).2.2.trans (congrArg Account.executed h.same.account).symm
  rw [same] at unrolls
  obtain rfl : l = history fuel q bs e := unrolls.last
  exact unrolls

/-- When a run is not cut off, its history is that of the engine in the end. -/
theorem executed_drive (hr : b.registry = []) (hh : b.handoffs = []) (h : Mirrors b q x e)
    (idle : (e.queue q).state = .idle) {fuel : Nat} {bs : List Heartbeat.Beat} {e₁ : Engine}
    (hd : drive fuel q bs e = (.ok (), e₁)) : e₁.executed q = history fuel q bs e := by
  have tracks := tracks_drive hr hh h idle fuel bs
  rw [hd] at tracks
  obtain ⟨y, mirrors, leads⟩ := tracks
  have same : (Queues.launch q x).2.executed q = e.executed q :=
    (launch_mirrors h).2.2.trans (congrArg Account.executed h.same.account).symm
  have unrolls := leads.unrolls
  rw [same] at unrolls
  exact (congrArg Account.executed mirrors.same.account).trans unrolls.last

end Host

/-- Of two ways along the same course, the shorter one is where the longer one has been. -/
theorem Drive.Unrolls.of_course {q : QueueRef} {x : Engine} {h l l' : List (String × Bool)}
    {ms ms' : List Engine} (hu : Unrolls q h ms l) (hu' : Unrolls q h ms' l') (hc : Drive.Course q x ms)
    (hc' : Drive.Course q x ms') (hle : ms.length ≤ ms'.length) : l <+: l' := by
  rw [hu.last]
  cases hl : ms.getLast? with
  | none => exact hu'.isPrefix
  | some m =>
    rw [List.getLast?_eq_getElem?] at hl
    obtain ⟨here, -⟩ := List.getElem?_eq_some_iff.1 hl
    obtain ⟨m', hm'⟩ : ∃ m', ms'[ms.length - 1]? = some m' := ⟨_, List.getElem?_eq_getElem (by omega)⟩
    have same : m'.executed q = m.executed q := congrArg Account.executed (hc.agree hc' hl hm').account
    rw [Option.map_some, Option.getD_some, ← same]
    exact (hu'.get hm').2

/-! ## Agreement -/

/-- A queue goes the same way in both engines, when it is started and the heart beats. -/
structure Host.Agree (q : QueueRef) (x y : Engine) : Prop where
  /-- The queues start alike. -/
  first : y.account q = x.account q
  /-- After as many entries, they have the same account. -/
  account (fuel fuel' : Nat) (bs bs' : List Heartbeat.Beat) {k : Nat} {m m' : Engine} :
    (moments fuel q bs x)[k]? = some m → (moments fuel' q bs' y)[k]? = some m' →
      (m.executed q).length = k + 1 ∧ m'.account q = m.account q
  /-- One of them is ahead of the other one. -/
  ahead (fuel fuel' : Nat) (bs bs' : List Heartbeat.Beat) :
    history fuel q bs x <+: history fuel' q bs' y ∨ history fuel' q bs' y <+: history fuel q bs x
  /-- The first one can be driven as far as the second one got. -/
  far (fuel' : Nat) (bs' : List Heartbeat.Beat) :
    ∃ fuel bs, history fuel' q bs' y <+: history fuel q bs x
  /-- The history of a run that is not cut off is that of its engine. -/
  executed {z : Engine} (fuel : Nat) (bs : List Heartbeat.Beat) :
    (drive fuel q bs x = (.ok (), z) → z.executed q = history fuel q bs x) ∧
      (drive fuel q bs y = (.ok (), z) → z.executed q = history fuel q bs y)

/-- Engines with an idle queue that has run nothing agree if one engine stands for both, and the queue of
the first one is instant. -/
theorem Host.agree {b r x y : Engine} {q : QueueRef} (hr : b.registry = []) (hh : b.handoffs = [])
    (fresh : r.executed q = []) (hx : Mirrors b q r x) (hy : Mirrors b q r y)
    (idle : (x.queue q).state = .idle) (idle' : (y.queue q).state = .idle)
    (task : b.OnTask q x) (instant : (x.queue q).pace = .instant) : Host.Agree q x y := by
  have track (fuel : Nat) (bs : List Heartbeat.Beat) := (tracks_drive hr hh hx idle fuel bs).course
  have track' (fuel : Nat) (bs : List Heartbeat.Beat) := (tracks_drive hr hh hy idle' fuel bs).course
  have none : x.executed q = [] := (congrArg Account.executed hx.same.account).trans fresh
  have none' : y.executed q = [] := (congrArg Account.executed hy.same.account).trans fresh
  have unrolls (fuel : Nat) (bs : List Heartbeat.Beat) : Unrolls q [] (moments fuel q bs x) (history fuel q bs x) :=
    none ▸ unrolls_history hr hh hx idle fuel bs
  have unrolls' (fuel : Nat) (bs : List Heartbeat.Beat) : Unrolls q [] (moments fuel q bs y) (history fuel q bs y) :=
    none' ▸ unrolls_history hr hh hy idle' fuel bs
  have behind {fuel fuel' : Nat} {bs bs' : List Heartbeat.Beat}
      (hle : (moments fuel' q bs' y).length ≤ (moments fuel q bs x).length) :
      history fuel' q bs' y <+: history fuel q bs x :=
    (unrolls' fuel' bs').of_course (unrolls fuel bs) (track' fuel' bs') (track fuel bs) hle
  refine ⟨(hx.same.symm.trans hy.same).account, fun fuel fuel' bs bs' k m m' hm hm' => ?_,
    fun fuel fuel' bs bs' => ?_, fun fuel' bs' => ?_, fun fuel bs => ?_⟩
  · refine ⟨?_, ((track fuel bs).agree (track' fuel' bs') hm hm').account⟩
    rw [((unrolls fuel bs).get hm).1, List.length_nil, Nat.zero_add]
  · rcases Nat.le_total (moments fuel q bs x).length (moments fuel' q bs' y).length with hle | hle
    · exact .inl ((unrolls fuel bs).of_course (unrolls' fuel' bs') (track fuel bs) (track' fuel' bs') hle)
    · exact .inr (behind hle)
  · have launched := launch_mirrors hx
    have course : Drive.Course q (Queues.launch q x).2 (moments fuel' q bs' y) :=
      (track' fuel' bs').paced launched.2.1.onTask launched.2.1.same
    obtain ⟨fuel, bs, far⟩ := instant_far hr hh task idle instant course
    exact ⟨fuel, bs, behind far⟩
  · exact ⟨executed_drive hr hh hx idle, executed_drive hr hh hy idle'⟩

/-- Pacing changes nothing.  A program of local commands is given to an instant queue and to a timed queue
with pauses of any length, on the same engine, on which no queue is live.  Whatever beats come and whatever
fuel there is, after as many entries the accounts of the queues are the same; one of the histories is a
part of the other one; and the instant queue can be driven on until its history covers that of the timed
one. -/
theorem pacing_changes_nothing {config : Config} {e : Engine} (he : Reachable (Host.create config []) e)
    (hr : e.registry = []) (hh : e.handoffs = []) {p : Program} (hp : p.IsLocal e)
    (options : Scripts.RunOptions) (speed speed' : Float) :
    ∃ q x y, p.prepare (options.paced .instant speed) e = (.ok q, x) ∧
      p.prepare (options.paced .timed speed') e = (.ok q, y) ∧ Host.Agree q x y := by
  obtain ⟨r, fresh, prepared⟩ := p.prepare_mirrors hp he.orderly_listed.1 hr options
  obtain ⟨x, made, hx, task, pace, idle⟩ := prepared .instant speed
  obtain ⟨y, made', hy, -, -, idle'⟩ := prepared .timed speed'
  exact ⟨_, x, y, made, made', Host.agree hr hh fresh hx hy idle idle' task pace⟩

/-- A source with a loop, in which a command is asked to be instant and another one is unknown, is run at both
paces.  The instant queue stops for the failure only; the timed queue is held back by its pauses. -/
theorem pacing_changes_nothing_loop :
    let p := Program.source "repeat 2 \x7b\n- ^debug <[value]>\n- sing\n\x7d" none
    let e := Host.create {} []
    let x := (p.prepare (Scripts.RunOptions.paced {} .instant 0.0) e).2
    let y := (p.prepare (Scripts.RunOptions.paced {} .timed 1500.0) e).2
    let bs := List.replicate 2 (⟨9, some 1.0⟩ : Heartbeat.Beat)
    (Host.moments 9 0 bs x).length = 7 ∧ (Host.moments 9 0 bs y).length = 3 ∧ Host.Agree 0 x y := by
  intro p e x y bs
  have isLocal : p.IsLocal e := by
    have shallow : (p.commands? e).any (·.all (·.isLocalWithin 2)) = true := by decide +kernel
    exact Program.isLocal_of_within shallow
  obtain ⟨q, x', y', made, made', agree⟩ :=
    @pacing_changes_nothing {} e .first rfl rfl p isLocal {} 0.0 1500.0
  obtain rfl : x = x' := congrArg Prod.snd made
  obtain rfl : y = y' := congrArg Prod.snd made'
  obtain rfl : 0 = q := by
    have first : (p.prepare (Scripts.RunOptions.paced {} .instant 0.0) e).1.toOption = some 0 := by
      decide +kernel
    rw [made] at first
    exact (Option.some.inj first).symm
  exact ⟨by decide +kernel, by decide +kernel, agree⟩

end QueueScript
