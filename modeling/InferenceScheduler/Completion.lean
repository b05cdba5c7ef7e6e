/-
Reports on attempts (`src/scheduler.cpp`): the start of a reserved request,
the ways an attempt ends, and retries.
-/
import InferenceScheduler.Queue
import InferenceScheduler.Capacity
import InferenceScheduler.Dispatch

namespace InferenceScheduler

namespace RequestRecord

/-- The record of a request running on a worker. -/
def start (rec : RequestRecord) (worker : WorkerId) (now : ClockTime) : RequestRecord :=
  { rec with
    state := .running
    startedAt := now
    scheduleDelayMs := msBetween rec.queuedAt now
    history := onLast (fun a => { a with state := .running, worker := worker, batch := rec.batchId }) rec.history }

/-- `finish_success` on the record, before its batch is released. -/
def succeed (rec : RequestRecord) (r : CompletionReport) (now : ClockTime) : RequestRecord :=
  { rec with
    state := .completed
    completedAt := now
    terminalReason := ""
    history := onLast (fun a =>
      { a with
        state := .succeeded
        finalStatus := .succeeded
        outputTokens := r.outputTokensProduced
        workUnits := r.workUnits
        durationUs := r.durationUs }) rec.history }

/-- The last attempt failed, as both `finish_failed` and `make_retry` note it. -/
def noteFailure (rec : RequestRecord) (r : CompletionReport) : RequestRecord :=
  { rec with
    history := onLast (fun a =>
      { a with
        state := .failed
        finalStatus := .failed
        failureClass := r.failureClass
        errorMessage := r.errorMessage }) rec.history }

/-- `finish_failed` on the record. -/
def fail (rec : RequestRecord) (r : CompletionReport) : RequestRecord :=
  { rec with state := .failed, terminalReason := r.failureClass.nameOf }

/-- `finish_cancelled` on the record. -/
def cancel (rec : RequestRecord) (reason : String) : RequestRecord :=
  { rec with
    cancellationCommitted := true
    state := .cancelled
    terminalReason := reason
    history := onLast (fun a => { a with state := .cancelled, finalStatus := .cancelled }) rec.history }

/-- A request a worker reports as expired: the attempt is noted first. -/
def noteExpired (rec : RequestRecord) : RequestRecord :=
  { rec with history := onLast (fun a => { a with state := .expired }) rec.history }

/-- A request a worker reports as stale. -/
def noteStale (rec : RequestRecord) : RequestRecord :=
  { rec with history := onLast (fun a => { a with state := .stale }) rec.history }

/-- `make_retry` on the record: a new attempt under a new generation. -/
def retry (rec : RequestRecord) (gen : Generation) (att : AttemptId) (now : ClockTime) : RequestRecord :=
  { rec with
    generation := gen
    currentAttempt := att
    history := rec.history ++ [{ attemptId := att, generation := gen, state := .created, createdAt := now }]
    state := .queued
    queuedAt := now
    inBatch := false
    batchId := .invalid }

/-- Whether a request sits on a worker. -/
def onWorker (rec : RequestRecord) : Bool :=
  rec.state == .reserved || rec.state == .dispatched || rec.state == .running

end RequestRecord

namespace Impl

/-- A request leaves the admitted ones, as the end of every finish does it. -/
def leaveAdmitted (s : Impl) : Impl := { s with globalAdmitted := decPos s.globalAdmitted }

/-- `finish_success`. -/
def finishSuccess (s : Impl) (rec : RequestRecord) (r : CompletionReport) : Impl :=
  let res := s.releaseBatchMember (rec.succeed r s.now) r.worker
  let fin := res.2
  let s := res.1.put fin
  let s := s.leaveAdmitted
  let s := s.onTenant fin.spec.tenant fun t => { t with admitted := decPos t.admitted, running := decPos t.running }
  let s := { s with stats :=
    { s.stats with
      requestsCompleted := s.stats.requestsCompleted + 1
      completions := s.stats.completions + 1
      byLatency := onLatency s.stats.byLatency (latencyInt fin.spec.latencyClass)
        fun c => { c with completed := c.completed + 1 } } }
  s.emitEvent "completed" fin.requestId fin.currentAttempt r.worker fin.batchId fin.terminalReason

/-- `finish_failed`. -/
def finishFailed (s : Impl) (rec : RequestRecord) (r : CompletionReport) : Impl :=
  let res := s.releaseBatchMember (rec.noteFailure r) r.worker
  let fin := res.2.fail r
  let s := res.1.put fin
  let s := s.leaveAdmitted
  let s := s.onTenant fin.spec.tenant fun t => { t with admitted := decPos t.admitted, running := decPos t.running }
  let s := { s with stats :=
    { s.stats with
      requestsFailed := s.stats.requestsFailed + 1
      completions := s.stats.completions + 1 } }
  s.emitEvent "failed" fin.requestId fin.currentAttempt r.worker fin.batchId fin.terminalReason

/-- The first half of `finish_cancelled`: a request that sits on a worker
leaves its batch. -/
def leaveWorker (s : Impl) (rec : RequestRecord) (w : WorkerId) : Impl × RequestRecord :=
  if rec.onWorker then
    let res := s.releaseBatchMember rec w
    (res.1.onTenant rec.spec.tenant fun t => { t with running := decPos t.running }, res.2)
  else (s, rec)

/-- `finish_cancelled`. -/
def finishCancelled (s : Impl) (rec : RequestRecord) (w : WorkerId) (reason : String) : Impl :=
  if isTerminal rec.state then s
  else
    let res := s.leaveWorker rec w
    let s := res.1.dequeueRequest res.2
    let fin := res.2.cancel reason
    let s := s.put fin
    let s := s.leaveAdmitted
    let s := s.onTenant fin.spec.tenant fun t => { t with admitted := decPos t.admitted }
    let s := { s with stats := { s.stats with requestsCancelled := s.stats.requestsCancelled + 1 } }
    s.emitEvent "cancelled" fin.requestId fin.currentAttempt w fin.batchId fin.terminalReason

/-- The branch of `do_complete` for a worker's `Expired`. -/
def finishExpired (s : Impl) (rec : RequestRecord) (r : CompletionReport) : Impl :=
  let res := s.releaseBatchMember rec.noteExpired r.worker
  let fin := { res.2 with state := .expired, terminalReason := "deadline_expired" }
  let s := res.1.put fin
  let s := s.leaveAdmitted
  let s := s.onTenant fin.spec.tenant fun t => { t with admitted := decPos t.admitted, running := decPos t.running }
  let s := { s with stats := { s.stats with requestsExpired := s.stats.requestsExpired + 1 } }
  s.emitEvent "expired" fin.requestId fin.currentAttempt r.worker fin.batchId fin.terminalReason

/-- A report rejected as stale is counted. -/
def countStale (s : Impl) : Impl :=
  { s with stats := { s.stats with staleRejected := s.stats.staleRejected + 1 } }

/-- The branch of `do_complete` for a worker's `Stale`. -/
def finishStale (s : Impl) (rec : RequestRecord) (r : CompletionReport) : Impl :=
  let res := s.releaseBatchMember rec r.worker
  (res.1.put res.2.noteStale).countStale

/-- `can_retry`. -/
def canRetry (cfg : SchedulerConfig) (rec : RequestRecord) (now : ClockTime) : Bool :=
  if rec.cancellationRequested || rec.cancellationCommitted then false
  else if (rec.history.length : ℤ) ≥ cfg.retry.maxAttempts then false
  else if rec.spec.deadline.valid && rec.spec.deadline.expired now then false
  else true

/-- `make_retry`. -/
def makeRetry (s : Impl) (rec : RequestRecord) (r : CompletionReport) : Impl :=
  let res := s.releaseBatchMember (rec.noteFailure r) r.worker
  let s := res.1.onTenant rec.spec.tenant fun t => { t with running := decPos t.running }
  let gen : Generation := s.idFactory.peek
  let s := s.drawId
  let att : AttemptId := s.idFactory.peek
  let s := s.drawId
  let fresh := res.2.retry gen att s.now
  let s := { s with stats :=
    { s.stats with
      attemptsCreated := s.stats.attemptsCreated + 1
      retries := s.stats.retries + 1 } }
  let s := s.enqueueRequest fresh
  s.emitEvent "retry" fresh.requestId fresh.currentAttempt r.worker .invalid fresh.terminalReason

/-- `do_confirm_start`. -/
def doConfirmStart (s : Impl) (r : CompletionReport) : Impl × Result Unit :=
  if r.epoch.value ≠ s.epochValue then (s, .error ⟨.staleEpoch, "stale epoch"⟩)
  else
    match s.requests.find r.requestId with
    | none => (s, .error ⟨.notFound, "request not found"⟩)
    | some rec =>
      if rec.currentAttempt ≠ r.attemptId ∨ rec.generation ≠ r.generation then
        (s, .error ⟨.staleAttempt, "stale attempt"⟩)
      else if rec.state ≠ .reserved then (s, .error ⟨.invalidState, "not reserved"⟩)
      else
        match s.pool.workers.find r.worker with
        | none => (s, .error ⟨.staleWorker, "stale worker"⟩)
        | some wr =>
          if wr.registration.bootId ≠ r.bootId then (s, .error ⟨.staleWorker, "stale worker"⟩)
          else if wr.state = .offline ∨ wr.state = .unhealthy ∨ wr.state = .drained then
            (s, .error ⟨.invalidState, "worker not ready"⟩)
          else if !rec.batchId.valid then (s, .error ⟨.invalidState, "no batch"⟩)
          else
            let pool := s.pool.start wr rec.batchId rec.requestId rec.currentAttempt r.workerSnapshot
            let s := { s with pool := pool }
            let s := s.put (rec.start r.worker s.now)
            let s := s.onTenant rec.spec.tenant fun t => { t with running := t.running + 1 }
            let s := { s with stats := { s.stats with dispatches := s.stats.dispatches + 1 } }
            (s.emitEvent "running" rec.requestId rec.currentAttempt r.worker rec.batchId "running", .ok ())

/-- Whether a failure is of a class `do_complete` retries. -/
def retryable (cfg : SchedulerConfig) (r : CompletionReport) : Bool :=
  r.failureClass == .retryableTransport || r.failureClass == .retryableWorker ||
    (r.failureClass == .ambiguousDispatch && cfg.retry.retryOnAmbiguous)

/-- `do_complete` for a report that passed the authority checks, on a request
that is not terminal. -/
def conclude (s : Impl) (rec : RequestRecord) (r : CompletionReport) : Impl × CompletionOutcome :=
  match r.status with
  | .succeeded =>
    if rec.cancellationRequested then
      (s.finishCancelled rec r.worker "cancelled", { acceptance := .cancelledOutcome, reasonCode := "cancelled" })
    else (s.finishSuccess rec r, { acceptance := .accepted, reasonCode := "success" })
  | .cancelled =>
    (s.finishCancelled rec r.worker "cancelled", { acceptance := .accepted, reasonCode := "cancelled" })
  | .expired => (s.finishExpired rec r, { acceptance := .accepted, reasonCode := "expired" })
  | .stale => (s.finishStale rec r, { acceptance := .staleAttempt, reasonCode := "stale" })
  | .failed | .ambiguous =>
    if retryable s.cfg r && canRetry s.cfg rec s.now then
      let s := s.makeRetry rec r
      (s, { acceptance := .accepted, reasonCode := "retry", retried := true,
            retryAttempt := ((s.requests.find rec.requestId).getD rec).currentAttempt })
    else (s.finishFailed rec r, { acceptance := .accepted, reasonCode := "failed" })
  | .unnamed .. => (s, { acceptance := .invalid, reasonCode := "unrecognized_status" })

/-- `do_complete`; its result is never an error. -/
def doComplete (s : Impl) (r : CompletionReport) : Impl × CompletionOutcome :=
  if r.epoch.value ≠ s.epochValue then
    (s.countStale, { acceptance := .staleEpoch, reasonCode := "stale_epoch" })
  else if !(s.pool.workers.find r.worker).any (fun wr => wr.registration.bootId == r.bootId) then
    (s.countStale, { acceptance := .staleWorker, reasonCode := "stale_worker" })
  else
    match s.requests.find r.requestId with
    | none => (s, { acceptance := .invalid, reasonCode := "unknown_request" })
    | some rec =>
      if rec.currentAttempt ≠ r.attemptId ∨ rec.generation ≠ r.generation then
        (s.countStale, { acceptance := .staleAttempt, reasonCode := "stale_attempt" })
      else if isTerminal rec.state then
        (s, { acceptance := .duplicate, reasonCode := "duplicate_completion" })
      else if rec.cancellationCommitted then
        (s, { acceptance := .cancelledOutcome, reasonCode := "cancelled" })
      else s.conclude rec r

end Impl

end InferenceScheduler
