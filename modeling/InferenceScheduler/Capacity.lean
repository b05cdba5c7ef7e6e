/-
Capacity units of the workers (`src/scheduler.cpp`): what a reservation takes,
what a started batch moves from reserved to running, and how the units come
back, member by member, through the pending count of the batch.
-/
import InferenceScheduler.State

namespace InferenceScheduler

/-- `if (n < 0) n = 0`. -/
def clamp0 (n : ℤ) : ℤ := if n < 0 then 0 else n

namespace WorkerRecord

/-- The units of a batch, 0 when the worker does not hold it. -/
def unitsOf (wr : WorkerRecord) (bid : BatchId) : ℤ := (wr.batchUnits.lookup bid).getD 0

/-- Whether a batch counts as running on this worker. -/
def started (wr : WorkerRecord) (bid : BatchId) : Bool := decide (bid ∈ wr.startedBatches)

/-- Forget a batch: its units leave the counter they were in. -/
def dropBatch (wr : WorkerRecord) (bid : BatchId) : WorkerRecord :=
  let units := wr.unitsOf bid
  let running := clamp0 (if wr.started bid then wr.runningUnits - units else wr.runningUnits)
  let reserved := clamp0 (if wr.started bid then wr.reservedUnits else wr.reservedUnits - units)
  { wr with
    runningUnits := running
    reservedUnits := reserved
    batchUnits := wr.batchUnits.erase bid
    batchPending := wr.batchPending.erase bid
    batchMembers := wr.batchMembers.erase bid
    startedBatches := wr.startedBatches.erase bid
    state := if running = 0 ∧ reserved = 0 ∧ wr.state = .busy then .online else wr.state }

/-- Take a batch: `do_plan_dispatch`, "reserve batch". -/
def takeBatch (wr : WorkerRecord) (bid : BatchId) (units : ℤ) (members : List RequestId) : WorkerRecord :=
  { wr with
    reservedUnits := wr.reservedUnits + units
    batchUnits := wr.batchUnits.insert bid units
    batchPending := wr.batchPending.insert bid members.length
    batchMembers := wr.batchMembers.insert bid members }

/-- The units that move to running when a member of the batch starts: all of
them at the first member, none later. -/
def startingUnits (wr : WorkerRecord) (bid : BatchId) : ℤ := if wr.started bid then 0 else wr.unitsOf bid

/-- A member of a batch starts: `do_confirm_start` on the worker. -/
def startMember (wr : WorkerRecord) (bid : BatchId) (rid : RequestId) (att : AttemptId)
    (snap : ResourceSnapshot) : WorkerRecord :=
  let units := wr.startingUnits bid
  { wr with
    reservedUnits := wr.reservedUnits - units
    runningUnits := wr.runningUnits + units
    startedBatches := wr.startedBatches.insert bid
    inFlight := wr.inFlight.insert rid att
    state := if wr.state = .online then .busy else wr.state
    resource := if snap.availableCapacityUnits ≥ 0 then
        { wr.resource with availableCapacityUnits := snap.availableCapacityUnits, queueDepth := snap.queueDepth }
      else wr.resource }

/-- The end of `recover_in_flight`: every batch still held is given back as
if it were reserved. -/
def sweep (wr : WorkerRecord) : WorkerRecord :=
  { wr with
    inFlight := ∅
    reservedUnits := clamp0 (wr.reservedUnits - wr.batchUnits.sum fun _ u => u)
    runningUnits := clamp0 wr.runningUnits
    batchUnits := ∅
    batchPending := ∅
    batchMembers := ∅
    startedBatches := ∅ }

end WorkerRecord

namespace Pool

/-- Write a worker record through its reference. -/
def putWorker (p : Pool) (wr : WorkerRecord) : Pool := { p with workers := p.workers.put wr }

/-- `release_batch`. -/
def releaseBatch (p : Pool) (worker : WorkerId) (bid : BatchId) : Pool :=
  match p.workers.find worker with
  | none => p
  | some wr =>
    let units := wr.unitsOf bid
    { workers := p.workers.put (wr.dropBatch bid)
      globalRunningUnits := clamp0 (if wr.started bid then p.globalRunningUnits - units else p.globalRunningUnits)
      globalReservedUnits :=
        clamp0 (if wr.started bid then p.globalReservedUnits else p.globalReservedUnits - units) }

/-- A member leaves a batch: the pending count drops, and the batch is
released when it reaches zero. -/
def leaveBatch (p : Pool) (worker : WorkerId) (bid : BatchId) : Pool :=
  match p.workers.find worker with
  | none => p
  | some wr =>
    match wr.batchPending.lookup bid with
    | none => p
    | some n =>
      let p := p.putWorker { wr with batchPending := wr.batchPending.insert bid (n - 1) }
      if n - 1 ≤ 0 then p.releaseBatch worker bid else p

/-- `release_batch_member` on the worker. -/
def releaseMember (p : Pool) (worker : WorkerId) (rec : RequestRecord) : Pool :=
  match p.workers.find worker with
  | none => p
  | some wr =>
    let p := p.putWorker { wr with inFlight := wr.inFlight.erase rec.requestId }
    if rec.inBatch && rec.batchId.valid then p.leaveBatch worker rec.batchId else p

/-- Reserve a batch on a worker. -/
def reserve (p : Pool) (worker : WorkerId) (bid : BatchId) (units : ℤ) (members : List RequestId) : Pool :=
  match p.workers.find worker with
  | none => p
  | some wr =>
    { p with
      workers := p.workers.put (wr.takeBatch bid units members)
      globalReservedUnits := p.globalReservedUnits + units }

/-- Start a member of a batch on the worker `wr`. -/
def start (p : Pool) (wr : WorkerRecord) (bid : BatchId) (rid : RequestId) (att : AttemptId)
    (snap : ResourceSnapshot) : Pool :=
  let units := wr.startingUnits bid
  { workers := p.workers.put (wr.startMember bid rid att snap)
    globalReservedUnits := p.globalReservedUnits - units
    globalRunningUnits := p.globalRunningUnits + units }

/-- The end of `recover_in_flight` on a worker and the global counters. -/
def sweep (p : Pool) (worker : WorkerId) : Pool :=
  match p.workers.find worker with
  | none => p
  | some wr =>
    { workers := p.workers.put wr.sweep
      globalReservedUnits := clamp0 (p.globalReservedUnits - wr.batchUnits.sum fun _ u => u)
      globalRunningUnits := clamp0 p.globalRunningUnits }

end Pool

namespace Impl

/-- `release_batch_member`. The record forgets its batch only if the worker is
known. -/
def releaseBatchMember (s : Impl) (rec : RequestRecord) (worker : WorkerId) : Impl × RequestRecord :=
  ({ s with pool := s.pool.releaseMember worker rec },
    if (s.pool.workers.find worker).isSome then { rec with inBatch := false, batchId := .invalid } else rec)

end Impl

end InferenceScheduler
