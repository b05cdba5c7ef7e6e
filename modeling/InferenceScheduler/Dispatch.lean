/-
Dispatch planning (`src/scheduler.cpp`, "dispatch scoring" and "dispatch
planning"): scoring the workers for a batch, choosing one, and reserving the
batch on it.
-/
import InferenceScheduler.Admission
import InferenceScheduler.Capacity

namespace InferenceScheduler

def clamp01 (v : ℚ) : ℚ := if v < 0 then 0 else if v > 1 then 1 else v

/-- Capacity a worker advertises minus what is reserved on it. -/
def WorkerRecord.avail (wr : WorkerRecord) : ℤ := wr.resource.availableCapacityUnits - wr.reservedUnits

/-- Why `score_worker` turns a worker down, if it does. -/
def rejectReason (wr : WorkerRecord) (spec : RequestSpec) (batchCost : ℚ) (now : ClockTime) : Option String :=
  let cap := wr.registration.capability
  let cost := ceilCost batchCost
  if wr.state ≠ .online ∧ wr.state ≠ .busy then some "worker_not_online"
  else if !compatible spec cap then some "incompatible"
  else if cap.totalCapacityUnits > 0 ∧ wr.avail < cost then some "no_capacity"
  else if cap.totalCapacityUnits > 0 ∧ cost > cap.totalCapacityUnits then some "oversized"
  else if spec.deadline.valid && spec.deadline.expired now then some "deadline_expired"
  else none

/-- The weighted factors of an eligible worker's score. -/
def scoreComponents (cfg : SchedulerConfig) (wr : WorkerRecord) (spec : RequestSpec) (now : ClockTime) :
    List ScoreComponent :=
  let cap := wr.registration.capability
  let dw := cfg.scheduling.dispatch
  let total : ℚ := cap.totalCapacityUnits
  let capfrac : ℚ := if cap.totalCapacityUnits > 0 then (wr.avail : ℚ) / total else 1
  let load : ℚ := if cap.totalCapacityUnits > 0 then
      1 - clamp01 ((cap.totalCapacityUnits - wr.avail : ℤ) / total) else 1
  let dl : ℚ := if spec.deadline.valid then
      let slack := spec.deadline.remaining now
      if slack < 0 then 0 else clamp01 (slack / (max 1 cfg.scheduling.deadlineBoostThresholdMs : ℤ))
    else 1
  let loc : ℚ := if spec.locality.hasPreference then
      let byAccelerator : ℚ := if spec.locality.accelerator.valid ∧
        spec.locality.accelerator = wr.registration.accelerator then 1 else 0
      if spec.locality.node.valid ∧ spec.locality.node = wr.registration.node then max byAccelerator (4 / 5)
      else byAccelerator
    else 1
  let warm := clamp01 (spec.warmth.modelWarmth * cap.modelWarmth +
    1 / 2 * (spec.warmth.modelWarmth + cap.modelWarmth) * (1 / 2))
  let state := clamp01 (spec.warmth.stateWarmth * cap.stateWarmth + 1 / 2)
  [⟨"capability", 1, dw.capability⟩, ⟨"capacity", capfrac, dw.capacity⟩, ⟨"load", load, dw.load⟩,
    ⟨"deadline", dl, dw.deadline⟩, ⟨"latency_class", 1, dw.latencyClass⟩, ⟨"phase", 1, dw.phase⟩,
    ⟨"locality", loc, dw.locality⟩, ⟨"model_warmth", warm, dw.modelWarmth⟩,
    ⟨"state_warmth", state, dw.stateWarmth⟩, ⟨"batch", 1, dw.batch⟩, ⟨"fairness", 1, dw.fairness⟩]

/-- The weighted mean of the components with a positive weight. -/
def scoreTotal (cs : List ScoreComponent) : ℚ :=
  let used := cs.filter fun c => c.weight > 0
  let num := (used.map fun c => c.value * c.weight).sum
  let den := (used.map fun c => c.weight).sum
  if den > 0 then num / den else 0

/-- `score_worker`. -/
def scoreWorker (cfg : SchedulerConfig) (wr : WorkerRecord) (spec : RequestSpec) (batchCost : ℚ) (now : ClockTime) :
    WorkerScore :=
  match rejectReason wr spec batchCost now with
  | some reason => { worker := wr.id, rejectReasonCode := reason }
  | none =>
    let cs := scoreComponents cfg wr spec now
    { worker := wr.id, eligible := true, components := cs, total := scoreTotal cs }

/-- The running choice of `select_worker`: the best eligible score so far. -/
def betterScore (best : Option WorkerScore) (sc : WorkerScore) : Option WorkerScore :=
  if sc.eligible then
    match best with
    | none => some sc
    | some b => if sc.total > b.total ∨ sc.total = b.total ∧ sc.worker.lt b.worker then some sc else best
  else best

namespace Impl

/-- `select_worker`: the chosen worker, invalid if none is eligible, and all
scores. -/
def selectWorker (s : Impl) (members : List RequestId) (batchCost : ℚ) (now : ClockTime) :
    WorkerId × List WorkerScore :=
  match members with
  | [] => (.invalid, [])
  | seed :: _ =>
    let scores := s.pool.workers.records.map fun wr => scoreWorker s.cfg wr (s.specOf seed) batchCost now
    match scores.foldl betterScore none with
    | none => (.invalid, scores)
    | some sc => (sc.worker, scores)

/-- The cost a member of a batch is charged at, `max(1.0, cost_units)`. -/
def memberCost (s : Impl) (id : RequestId) : ℚ := max 1 (s.specOf id).demand.costUnits

/-- The cost a batch is scored at. -/
def batchCost (s : Impl) (members : List RequestId) : ℚ := (members.map s.memberCost).sum

/-- The units a batch reserves. -/
def batchUnits (s : Impl) (members : List RequestId) : ℤ :=
  (members.map fun id => ceilCost (s.specOf id).demand.costUnits).sum

end Impl

/-- The record of a request reserved in a batch. -/
def RequestRecord.reserve (rec : RequestRecord) (bid : BatchId) (now : ClockTime) : RequestRecord :=
  { rec with
    state := .reserved
    reservedAt := now
    inBatch := true
    batchId := bid
    history := onLast (fun a => { a with state := .reserved }) rec.history }

namespace Impl

/-- The loop body of `do_plan_dispatch` over the members. -/
def reserveMember (w : WorkerId) (bid : BatchId) (now : ClockTime) (s : Impl) (id : RequestId) : Impl :=
  match s.requests.find id with
  | none => s
  | some m =>
    let s := s.dequeueRequest m
    let s := { s with ready := s.ready.accountFlow m.spec (max 1 m.spec.demand.costUnits) }
    let s := s.put (m.reserve bid now)
    s.emitEvent "reserved" m.requestId m.currentAttempt w bid m.terminalReason

/-- The batch `do_plan_dispatch` forms around a request. -/
def planMembers (s : Impl) (request : RequestId) (now : ClockTime) : List RequestId :=
  let members := s.formBatch request now
  if members.isEmpty then [request] else members

/-- `do_plan_dispatch` from "reserve batch" on, for the worker `wr`. -/
def reserveBatch (s : Impl) (wr : WorkerRecord) (members : List RequestId) (now : ClockTime) : Impl × BatchId :=
  let bid : BatchId := s.idFactory.peek
  let s' := s.drawId
  let s' := { s' with pool := s'.pool.reserve wr.id bid (s.batchUnits members) members }
  let s' := members.foldl (reserveMember wr.id bid now) s'
  ({ s' with stats :=
      { s'.stats with
        dispatches := s'.stats.dispatches + 1
        batchesFormed := if members.length > 1 then s'.stats.batchesFormed + 1 else s'.stats.batchesFormed
        batchMembers := s'.stats.batchMembers + members.length } }, bid)

/-- `do_plan_dispatch` for a request found runnable. -/
def planRunnable (s : Impl) (rec : RequestRecord) (now : ClockTime) (explain : Bool) : Impl × DispatchOutcome :=
  let members := s.planMembers rec.requestId now
  let units := s.batchUnits members
  let sel := s.selectWorker members (s.batchCost members) now
  let out : DispatchOutcome :=
    { requestId := rec.requestId, attemptId := rec.currentAttempt, candidates := sel.2 }
  if !sel.1.valid then
    (s, { out with
      decision := .noEligibleWorker
      reasonCode := "no_eligible_worker"
      explanation := if explain then "no eligible worker with capacity/compatibility" else "" })
  else
    match s.pool.workers.find sel.1 with
    -- The worker chosen is one of the records scored.
    | none => (s, out)
    | some wr =>
      if wr.registration.capability.totalCapacityUnits > 0 ∧ units > wr.avail then
        (s, { out with decision := .hold, reasonCode := "reservation_capacity_exceeded" })
      else
        let res := s.reserveBatch wr members now
        (res.1, { out with
          workerId := sel.1
          batchId := res.2
          decision := .dispatch
          reasonCode := "dispatched"
          estimatedCostUnits := units
          batchMembers := members
          generation := rec.generation
          explanation := if explain then "selected worker by weighted score" else "" })

/-- `do_plan_dispatch`. -/
def doPlanDispatch (s : Impl) (request : RequestId) (explain : Bool) : Impl × Result DispatchOutcome :=
  let now := s.now
  let s := s.expireScan now
  match s.requests.find request with
  | none => (s, .error ⟨.notFound, "request not found"⟩)
  | some rec =>
    if rec.spec.deadline.valid && rec.spec.deadline.expired now then
      (s.expireRequest rec, .ok { requestId := request, attemptId := rec.currentAttempt, decision := .hold,
                                  reasonCode := "deadline_expired" })
    else if rec.state ≠ .queued ∧ rec.state ≠ .admitted then
      (s, .ok { requestId := request, attemptId := rec.currentAttempt, decision := .hold,
                reasonCode := "not_runnable" })
    else
      let out := s.planRunnable rec now explain
      (out.1, .ok out.2)

/-- The first critical section of `do_plan_next`: the choice of the seed. -/
def planNextSeed (s : Impl) : Impl × Option RequestId := (s.expireScan s.now).pickSeed s.now

/-- `do_plan_next` when nothing else runs between its two critical sections. -/
def doPlanNext (s : Impl) (explain : Bool) : Impl × Result DispatchOutcome :=
  let seed := s.planNextSeed
  match seed.2 with
  | none => (seed.1, .ok { decision := .hold, reasonCode := "no_runnable" })
  | some id => seed.1.doPlanDispatch id explain

end Impl

end InferenceScheduler
