/-
The scheduler's operations, taken apart. The invariants of the scheduler are
about six members of `Impl`: the configuration, the clock, the id factory, the
requests, the ready structures and the worker pool. `Core` is their view, and
`Move` lists the elementary changes operations make to it, each with the guard
the source makes it under (`Enabled`). `Simulation` shows that every operation
is a sequence of enabled moves, so an invariant is proved over the moves.
-/
import InferenceScheduler.Control
import InferenceScheduler.Ledger

namespace InferenceScheduler

/-- The part of the state the invariants are about. -/
structure Core where
  cfg : SchedulerConfig
  now : ClockTime
  ids : IdFactory
  requests : Keyed RequestRecord.requestId
  ready : Ready
  pool : Pool

def Impl.core (s : Impl) : Core := ⟨s.cfg, s.now, s.idFactory, s.requests, s.ready, s.pool⟩

/-- The reports that end an attempt without a retry, cancellation apart. -/
inductive Ending
  | success (r : CompletionReport)
  | failed (r : CompletionReport)
  | expired
  | stale

namespace Ending

/-- What is written to the record before it leaves its batch. -/
def note (now : ClockTime) (rec : RequestRecord) : Ending → RequestRecord
  | .success r => rec.succeed r now
  | .failed r => rec.noteFailure r
  | .expired => rec.noteExpired
  | .stale => rec

/-- What is written to it afterwards. -/
def close (rec : RequestRecord) : Ending → RequestRecord
  | .success _ => rec
  | .failed r => rec.fail r
  | .expired => { rec with state := .expired, terminalReason := "deadline_expired" }
  | .stale => rec.noteStale

end Ending

/-- The record `release_batch_member` leaves. -/
def Pool.released (p : Pool) (w : WorkerId) (rec : RequestRecord) : RequestRecord :=
  if (p.workers.find w).isSome then { rec with inBatch := false, batchId := .invalid } else rec

namespace Pool

variable (p : Pool) (w : WorkerId) (rec : RequestRecord)

/-- A record that leaves its batch keeps everything else. -/
theorem released_cases :
    p.released w rec = rec ∨ p.released w rec = { rec with inBatch := false, batchId := .invalid } := by
  unfold released
  split
  · exact .inr rfl
  · exact .inl rfl

@[simp] theorem released_requestId : (p.released w rec).requestId = rec.requestId := by
  rcases p.released_cases w rec with h | h <;> rw [h]

@[simp] theorem released_state : (p.released w rec).state = rec.state := by
  rcases p.released_cases w rec with h | h <;> rw [h]

@[simp] theorem released_history : (p.released w rec).history = rec.history := by
  rcases p.released_cases w rec with h | h <;> rw [h]

@[simp] theorem released_currentAttempt : (p.released w rec).currentAttempt = rec.currentAttempt := by
  rcases p.released_cases w rec with h | h <;> rw [h]

@[simp] theorem released_generation : (p.released w rec).generation = rec.generation := by
  rcases p.released_cases w rec with h | h <;> rw [h]

@[simp] theorem released_spec : (p.released w rec).spec = rec.spec := by
  rcases p.released_cases w rec with h | h <;> rw [h]

@[simp] theorem released_cancellationRequested :
    (p.released w rec).cancellationRequested = rec.cancellationRequested := by
  rcases p.released_cases w rec with h | h <;> rw [h]

end Pool

inductive Move
  /-- The clock advances. -/
  | advance (nanoseconds : ℕ)
  /-- An id is drawn. -/
  | draw
  /-- A request is stored that was turned down. -/
  | refuse (rec : RequestRecord)
  /-- A request is stored and enqueued, under the next two ids. -/
  | accept (spec : RequestSpec) (rid : RequestId)
  /-- A queued request expires. -/
  | expire (rec : RequestRecord)
  /-- The first entries of a flow's heap are popped. -/
  | pop (k : FlowKey) (n : ℕ)
  /-- A flow leaves the active ones. -/
  | sleep (k : FlowKey)
  /-- Requests are reserved on a worker, in a batch under the next id. -/
  | reserve (wr : WorkerRecord) (members : List RequestId)
  /-- A reserved request starts on a worker. -/
  | start (rec : RequestRecord) (wr : WorkerRecord) (snap : ResourceSnapshot)
  /-- An attempt ends on the report of a worker. -/
  | finish (rec : RequestRecord) (w : WorkerId) (e : Ending)
  /-- A request is cancelled, in the name of a worker. -/
  | cancel (rec : RequestRecord) (asked : CancellationReason) (w : WorkerId) (reason : String)
  /-- A request on a worker is marked for cancellation. -/
  | flag (rec : RequestRecord) (asked : CancellationReason)
  /-- An attempt fails and the next one is enqueued, under the next two ids. -/
  | retry (rec : RequestRecord) (r : CompletionReport)
  /-- A lost worker's batches are given back. -/
  | sweep (w : WorkerId)
  /-- A worker record is written that holds what the one before held. -/
  | setWorker (wr : WorkerRecord)
  /-- A worker is forgotten. -/
  | dropWorker (w : WorkerId)

namespace Core

def put (c : Core) (rec : RequestRecord) : Core := { c with requests := c.requests.put rec }

/-- `enqueue_request`. -/
def enqueue (c : Core) (rec : RequestRecord) : Core :=
  { c with
    ready := c.ready.enqueue c.cfg c.now rec
    requests := c.requests.put { rec with state := .queued, queuedAt := c.now } }

/-- The loop body of `do_plan_dispatch` over the members. -/
def reserveMember (bid : BatchId) (c : Core) (id : RequestId) : Core :=
  match c.requests.find id with
  | none => c
  | some m =>
    { c with
      ready := (c.ready.dequeue c.cfg m).accountFlow m.spec (max 1 m.spec.demand.costUnits)
      requests := c.requests.put (m.reserve bid c.now) }

/-- The units a batch reserves. -/
def batchUnits (c : Core) (members : List RequestId) : ℤ :=
  (members.map fun id => ceilCost ((c.requests.find id).getD {}).spec.demand.costUnits).sum

/-- The record a cancelled request leaves its worker with. -/
def unworked (c : Core) (w : WorkerId) (rec : RequestRecord) : RequestRecord :=
  if rec.onWorker then c.pool.released w rec else rec

theorem unworked_cases (c : Core) (w : WorkerId) (rec : RequestRecord) :
    c.unworked w rec = rec ∨ c.unworked w rec = { rec with inBatch := false, batchId := .invalid } := by
  unfold unworked
  split
  · exact c.pool.released_cases w rec
  · exact .inl rfl

theorem unworked_requestId (c : Core) (w : WorkerId) (rec : RequestRecord) :
    (c.unworked w rec).requestId = rec.requestId := by
  rcases c.unworked_cases w rec with h | h <;> rw [h]

/-- What a move does. -/
def act (c : Core) : Move → Core
  | .advance n => { c with now := c.now + n }
  | .draw => { c with ids := c.ids.tick }
  | .refuse rec => c.put rec
  | .accept spec rid =>
    { c with ids := c.ids.tick.tick }.enqueue (Impl.admittedRecord spec rid c.ids.peek c.ids.tick.peek c.now)
  | .expire rec => { c with ready := c.ready.dequeue c.cfg rec }.put rec.expire
  | .pop k n =>
    let f := c.ready.flow k
    { c with ready := { c.ready with flows := c.ready.flows.insert k { f with pending := f.pending.popN n } } }
  | .sleep k => { c with ready := { c.ready with activeFlows := c.ready.activeFlows.erase k } }
  | .reserve wr members =>
    members.foldl (reserveMember c.ids.peek)
      { c with ids := c.ids.tick, pool := c.pool.reserve wr.id c.ids.peek (c.batchUnits members) members }
  | .start rec wr snap =>
    { c with pool := c.pool.start wr rec.batchId rec.requestId rec.currentAttempt snap }.put
      (rec.start wr.id c.now)
  | .finish rec w e =>
    { c with pool := c.pool.releaseMember w rec }.put
      (e.close (c.pool.released w (e.note c.now rec)))
  | .cancel rec asked w reason =>
    let fin := c.unworked w { rec with cancelReason := asked }
    { c with
      pool := if rec.onWorker then c.pool.releaseMember w rec else c.pool
      ready := c.ready.dequeue c.cfg fin }.put (fin.cancel reason)
  | .flag rec asked => c.put { rec with cancelReason := asked, cancellationRequested := true }
  | .retry rec r =>
    { c with
      pool := c.pool.releaseMember r.worker rec
      ids := c.ids.tick.tick }.enqueue
      ((c.pool.released r.worker (rec.noteFailure r)).retry c.ids.peek c.ids.tick.peek c.now)
  | .sweep w => { c with pool := c.pool.sweep w }
  | .setWorker wr => { c with pool := c.pool.putWorker wr }
  | .dropWorker w => { c with pool := { c.pool with workers := c.pool.workers.erase w } }

section reserveMember

variable (bid : BatchId)

theorem reserveMember_find (c : Core) (id id' : RequestId) :
    (c.reserveMember bid id).requests.find id' =
      if id = id' then (c.requests.find id').map (·.reserve bid c.now) else c.requests.find id' := by
  unfold reserveMember
  split
  · next h =>
    split
    · next he => rw [← he, h]; rfl
    · rfl
  · next m h =>
    have hid : m.requestId = id := Keyed.key_of_find h
    rw [Keyed.find_put, show (m.reserve bid c.now).requestId = id from hid]
    split
    · next he => rw [← he, h]; rfl
    · rfl

/-- What the loop over the members leaves alone. -/
theorem reserveMember_frame (c : Core) (id : RequestId) :
    (c.reserveMember bid id).cfg = c.cfg ∧ (c.reserveMember bid id).now = c.now ∧
      (c.reserveMember bid id).ids = c.ids ∧ (c.reserveMember bid id).pool = c.pool := by
  unfold reserveMember
  split <;> exact ⟨rfl, rfl, rfl, rfl⟩

theorem foldl_reserveMember_frame : ∀ (ids : List RequestId) (c : Core),
    (ids.foldl (reserveMember bid) c).cfg = c.cfg ∧ (ids.foldl (reserveMember bid) c).now = c.now ∧
      (ids.foldl (reserveMember bid) c).ids = c.ids ∧ (ids.foldl (reserveMember bid) c).pool = c.pool
  | [], _ => ⟨rfl, rfl, rfl, rfl⟩
  | id :: ids, c => by
    obtain ⟨h₁, h₂, h₃, h₄⟩ := foldl_reserveMember_frame ids (c.reserveMember bid id)
    obtain ⟨g₁, g₂, g₃, g₄⟩ := reserveMember_frame bid c id
    exact ⟨h₁.trans g₁, h₂.trans g₂, h₃.trans g₃, h₄.trans g₄⟩

end reserveMember

/-- A heap entry `pick_seed` skips: no queued request stands behind it. -/
def Dead (c : Core) (e : ReadyEntry) : Prop :=
  ∀ rec, c.requests.find e.id = some rec →
    e.id ∉ c.ready.queued ∨ rec.generation ≠ e.generation ∨ rec.state ≠ .queued

/-- The stored record of a request. -/
def Holds (c : Core) (rec : RequestRecord) : Prop := c.requests.find rec.requestId = some rec

end Core

/-- When the source makes a move. -/
def Enabled (c : Core) : Move → Prop
  | .refuse rec =>
    c.requests.find rec.requestId = none ∧ isTerminal rec.state ∧ rec.inBatch = false ∧ rec.batchId = .invalid ∧
      rec.history = []
  | .accept _ rid => c.requests.find rid = none
  | .expire rec => c.Holds rec ∧ rec.state = .queued
  | .pop k n => ∀ e ∈ (c.ready.flow k).pending.entries.take n, c.Dead e
  | .sleep k => (c.ready.flow k).pending.entries = []
  | .reserve wr members =>
    members.Nodup ∧ members ≠ [] ∧ c.pool.workers.find wr.id = some wr ∧ wr.id.valid ∧
      ∀ id ∈ members, ∃ rec, c.requests.find id = some rec ∧ (rec.state = .queued ∨ rec.state = .admitted)
  | .start rec wr _ =>
    c.Holds rec ∧ rec.state = .reserved ∧ c.pool.workers.find wr.id = some wr ∧ rec.batchId.valid
  | .finish rec w e =>
    c.Holds rec ∧ isTerminal rec.state = false ∧ (c.pool.workers.find w).isSome ∧
      ∀ r, e = .success r → rec.cancellationRequested = false
  | .cancel rec _ _ _ => c.Holds rec ∧ isTerminal rec.state = false
  | .flag rec _ => c.Holds rec ∧ (rec.state = .dispatched ∨ rec.state = .running)
  | .retry rec r =>
    c.Holds rec ∧ isTerminal rec.state = false ∧ (c.pool.workers.find r.worker).isSome ∧
      Impl.canRetry c.cfg rec c.now
  | .setWorker wr => ((c.pool.workers.find wr.id).getD {}).SameWork wr
  | .advance _ | .draw | .sweep _ | .dropWorker _ => True

/-- The moves as a machine of their own. -/
def moves : Machine Core Move Unit := ⟨fun c m => (c.act m, ())⟩

theorem leads_act {P : Core → Move → Prop} {c : Core} {m : Move} (h : P c m) : moves.Leads P c (c.act m) :=
  Machine.Leads.single h

end InferenceScheduler
