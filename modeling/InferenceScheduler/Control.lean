/-
Cancellation, worker membership, drain and epoch rollover
(`src/scheduler.cpp`, "cancellation / workers / inspection / drain").
-/
import InferenceScheduler.Completion
import InferenceScheduler.Lib.Machine

namespace InferenceScheduler

namespace Impl

/-- `do_cancel`. -/
def doCancel (s : Impl) (req : RequestId) (reason : CancellationReason) (detail : String) : Impl × Result Unit :=
  match s.requests.find req with
  | none => (s, .error ⟨.notFound, "request not found"⟩)
  | some rec =>
    if isTerminal rec.state then (s, .error ⟨.invalidState, "already terminal"⟩)
    else
      let asked := { rec with cancelReason := reason }
      if rec.state = .reserved then
        -- The worker is read from the attempt, which learns it at the start.
        (s.finishCancelled asked rec.lastWorker "cancelled", .ok ())
      else if rec.state = .dispatched ∨ rec.state = .running then
        let s := s.put { asked with cancellationRequested := true }
        (s.emitEvent "cancel_requested" req rec.currentAttempt rec.lastWorker rec.batchId detail, .ok ())
      else (s.finishCancelled asked .invalid "cancelled", .ok ())

/-- The loop body of `do_cancel_all_queued`. -/
def cancelQueued (detail : String) (s : Impl) (id : RequestId) : Impl :=
  match s.requests.find id with
  | none => s
  | some rec =>
    if isTerminal rec.state then s
    else
      s.finishCancelled { rec with cancelReason := .schedulerDrain } .invalid
        (if detail = "" then "scheduler_drain" else detail)

/-- `do_cancel_all_queued`. -/
def doCancelAllQueued (s : Impl) (detail : String) : Impl := s.ready.queued.elems.foldl (cancelQueued detail) s

/-- The report `recover_in_flight` makes up for a request of a lost worker. -/
def restartReport (worker : WorkerId) (bootId : WorkerBootId) (rec : RequestRecord) : CompletionReport :=
  { worker := worker, bootId := bootId, requestId := rec.requestId, attemptId := rec.currentAttempt,
    generation := rec.generation, status := .failed, failureClass := .retryableWorker,
    errorMessage := "worker_restart" }

/-- The loop body of `recover_in_flight`. -/
def recoverRequest (worker : WorkerId) (bootId : WorkerBootId) (s : Impl) (rid : RequestId) : Impl :=
  match s.requests.find rid with
  | none => s
  | some rec =>
    if isTerminal rec.state then s
    else
      let rep := restartReport worker bootId rec
      let s := s.onTenantIfAny rec.spec.tenant fun t => { t with running := decPos t.running }
      if canRetry s.cfg rec s.now then s.makeRetry rec rep else s.finishFailed rec rep

/-- The requests in flight on a worker, in the order of `std::map`. -/
def inFlightIds (wr : WorkerRecord) : List RequestId := wr.inFlight.keys.insertionSort Id.le

/-- `recover_in_flight`. -/
def recoverInFlight (s : Impl) (worker : WorkerId) : Impl :=
  match s.pool.workers.find worker with
  | none => s
  | some wr =>
    let s := (inFlightIds wr).foldl (recoverRequest worker wr.registration.bootId) s
    { s with pool := s.pool.sweep worker }

/-- Whether a registration replaces a worker known under another boot. -/
def bootChanged (s : Impl) (reg : WorkerRegistration) : Bool :=
  (s.pool.workers.find reg.worker).any fun wr =>
    wr.registration.worker.valid && wr.registration.bootId != reg.bootId

/-- The record a registration leaves, over the one already there. -/
def registered (wr : WorkerRecord) (reg : WorkerRegistration) : WorkerRecord :=
  { wr with
    registration := reg
    state := if reg.state = .unknown ∨ reg.state = .booted then .online else reg.state
    resource :=
      { wr.resource with
        totalCapacityUnits := reg.capability.totalCapacityUnits
        availableCapacityUnits := reg.capability.availableCapacityUnits
        memoryBytesTotal := reg.capability.memoryBytesTotal
        memoryBytesAvailable := reg.capability.memoryBytesAvailable }
    reservedUnits := clamp0 wr.reservedUnits }

/-- `do_register_worker`. -/
def doRegisterWorker (s : Impl) (reg : WorkerRegistration) : Impl :=
  let s := if s.bootChanged reg then s.recoverInFlight reg.worker else s
  let wr := (s.pool.workers.find reg.worker).getD {}
  let s := { s with pool := s.pool.putWorker (registered wr reg) }
  s.emitEvent "worker_registered" .invalid .invalid reg.worker .invalid reg.capability.backend

/-- `do_update_capability` on the worker. -/
def withCapability (wr : WorkerRecord) (cap : WorkerCapability) : WorkerRecord :=
  { wr with
    registration := { wr.registration with capability := cap }
    resource :=
      { wr.resource with
        totalCapacityUnits := cap.totalCapacityUnits
        availableCapacityUnits := cap.availableCapacityUnits
        memoryBytesTotal := cap.memoryBytesTotal
        memoryBytesAvailable := cap.memoryBytesAvailable } }

/-- `do_update_capability`. -/
def doUpdateCapability (s : Impl) (w : WorkerId) (cap : WorkerCapability) : Impl × Result Unit :=
  match s.pool.workers.find w with
  | none => (s, .error ⟨.notFound, "worker not found"⟩)
  | some wr =>
    let s := { s with pool := s.pool.putWorker (withCapability wr cap) }
    (s.emitEvent "worker_updated" .invalid .invalid w .invalid "capability", .ok ())

/-- `do_set_worker_state`. -/
def doSetWorkerState (s : Impl) (w : WorkerId) (state : WorkerState) (snap : Option ResourceSnapshot) :
    Impl × Result Unit :=
  match s.pool.workers.find w with
  | none => (s, .error ⟨.notFound, "worker not found"⟩)
  | some wr =>
    let s := { s with pool := s.pool.putWorker { wr with state := state, resource := snap.getD wr.resource } }
    (s.emitEvent "worker_state" .invalid .invalid w .invalid state.nameOf, .ok ())

/-- `do_unregister_worker`. -/
def doUnregisterWorker (s : Impl) (w : WorkerId) : Impl × Result Unit :=
  match s.pool.workers.find w with
  | none => (s, .error ⟨.notFound, "worker not found"⟩)
  | some _ =>
    let s := s.recoverInFlight w
    let s := { s with pool := { s.pool with workers := s.pool.workers.erase w } }
    (s.emitEvent "worker_unregistered" .invalid .invalid w .invalid "unregistered", .ok ())

/-- `do_request_snapshot`. -/
def doRequestSnapshot (s : Impl) (id : RequestId) : Result RequestSnapshot :=
  match s.requests.find id with
  | none => .error ⟨.notFound, "request not found"⟩
  | some rec => .ok
      { requestId := rec.requestId, tenant := rec.spec.tenant, state := rec.state, phase := rec.spec.phase,
        latencyClass := rec.spec.latencyClass, priority := rec.spec.priority, model := rec.spec.model,
        revision := rec.spec.revision, attemptId := rec.currentAttempt, generation := rec.generation,
        workerId := rec.lastWorker, deadline := rec.spec.deadline, queueDelayMs := rec.queueDelayMs }

/-- `do_request_spec`. -/
def doRequestSpec (s : Impl) (id : RequestId) : Result RequestSpec :=
  match s.requests.find id with
  | none => .error ⟨.notFound, "request not found"⟩
  | some rec => .ok rec.spec

/-- `do_begin_drain`. -/
def doBeginDrain (s : Impl) (reason : String) : Impl :=
  { s with draining := true, drainReason := reason }.emitEvent "drain_started"
    .invalid .invalid .invalid .invalid reason

/-- `do_roll_epoch`. -/
def doRollEpoch (s : Impl) : Impl :=
  let s := { s with epochValue := s.epochValue + 1 }
  s.emitEvent "epoch_rollover" .invalid .invalid .invalid .invalid ("epoch=" ++ toString s.epochValue)

end Impl

/-! ## Operations -/

/-- One critical section of the scheduler, or an advance of the clock.
`plan_next_dispatch` takes the lock twice: it is `planNextSeed`, then
`planDispatch` of the seed it answered, with any other operation in between. -/
inductive Op
  | submit (spec : RequestSpec) (pre : Option RequestId)
  | planDispatch (request : RequestId) (explain : Bool)
  | planNextSeed
  | confirmStart (report : CompletionReport)
  | complete (report : CompletionReport)
  | cancel (request : RequestId) (reason : CancellationReason) (detail : String)
  | cancelAllQueued (detail : String)
  | registerWorker (registration : WorkerRegistration)
  | updateCapability (worker : WorkerId) (capability : WorkerCapability)
  | setWorkerState (worker : WorkerId) (state : WorkerState) (snapshot : Option ResourceSnapshot)
  | unregisterWorker (worker : WorkerId)
  | beginDrain (reason : String)
  | rollEpoch
  | advance (nanoseconds : ℕ)

/-- What an operation answers. -/
inductive Answer
  | admission (r : Result AdmissionOutput)
  | dispatch (r : Result DispatchOutcome)
  | seed (r : Option RequestId)
  | completion (r : CompletionOutcome)
  | done (r : Result Unit)

/-- One operation. -/
def Impl.step (s : Impl) : Op → Impl × Answer
  | .submit spec pre => let r := s.doSubmit spec pre; (r.1, .admission r.2)
  | .planDispatch request explain => let r := s.doPlanDispatch request explain; (r.1, .dispatch r.2)
  | .planNextSeed => let r := s.planNextSeed; (r.1, .seed r.2)
  | .confirmStart report => let r := s.doConfirmStart report; (r.1, .done r.2)
  | .complete report => let r := s.doComplete report; (r.1, .completion r.2)
  | .cancel request reason detail => let r := s.doCancel request reason detail; (r.1, .done r.2)
  | .cancelAllQueued detail => (s.doCancelAllQueued detail, .done (.ok ()))
  | .registerWorker reg => (s.doRegisterWorker reg, .done (.ok ()))
  | .updateCapability w cap => let r := s.doUpdateCapability w cap; (r.1, .done r.2)
  | .setWorkerState w state snap => let r := s.doSetWorkerState w state snap; (r.1, .done r.2)
  | .unregisterWorker w => let r := s.doUnregisterWorker w; (r.1, .done r.2)
  | .beginDrain reason => (s.doBeginDrain reason, .done (.ok ()))
  | .rollEpoch => (s.doRollEpoch, .done (.ok ()))
  | .advance n => ({ s with now := s.now + n }, .done (.ok ()))

/-- The scheduler as a machine over its operations. -/
def scheduler : Machine Impl Op Answer := ⟨Impl.step⟩

/-- `do_plan_next` undisturbed is its two critical sections in a row. -/
theorem doPlanNext_run (s : Impl) (explain : Bool) :
    (s.doPlanNext explain).1 =
      scheduler.run s (.planNextSeed :: (s.planNextSeed.2.map fun id => .planDispatch id explain).toList) := by
  cases h : s.planNextSeed.2 with
  | none =>
    simp only [Impl.doPlanNext, h]
    rfl
  | some id =>
    simp only [Impl.doPlanNext, h]
    rfl

end InferenceScheduler
