/-
What the scheduler writes down of its state (`src/scheduler.cpp`,
`serialize_locked` and `deserialize_locked`): the image of a state, field by
field as the file has it, how a state gives its image and how records come
back from one.

An image keeps what the bytes say: an enumeration is its code, of which the
reader checks nothing, a string its bytes, a floating-point number its bit
pattern, a flag its byte. A code without an enumerator comes back as the first
one; for a request that is `Created`, which like the code stands for a live
request that is neither queued nor on a worker. A pattern without a rational
value (an infinity, a not-a-number) comes back as zero.
-/
import InferenceScheduler.Lib.Binary
import InferenceScheduler.Lib.Binary64
import InferenceScheduler.State

namespace InferenceScheduler

open Binary

/-! ## Codes -/

def RequestState.all : List RequestState :=
  [.created, .pendingAdmission, .admitted, .queued, .reserved, .dispatched, .running, .completing, .completed,
    .rejected, .cancelled, .expired, .failed]

def AttemptState.all : List AttemptState :=
  [.created, .reserved, .dispatched, .running, .completing, .succeeded, .failed, .cancelled, .stale, .expired]

def WorkerState.all : List WorkerState := [.unknown, .booted, .online, .busy, .offline, .drained, .unhealthy]

def CancellationReason.all : List CancellationReason :=
  [.clientRequested, .deadlineExpired, .schedulerDrain, .transientFailure, .policy, .overload, .manual]

def FailureClass.all : List FailureClass :=
  [.retryableTransport, .retryableWorker, .nonRetryableRequest, .schedulerRejection, .deadlineExpiration,
    .cancellation, .staleAuthority, .ambiguousDispatch, .internal]

theorem RequestState.mem_all (x : RequestState) : x ∈ all := by cases x <;> decide

theorem AttemptState.mem_all (x : AttemptState) : x ∈ all := by cases x <;> decide

theorem WorkerState.mem_all (x : WorkerState) : x ∈ all := by cases x <;> decide

theorem CancellationReason.mem_all (x : CancellationReason) : x ∈ all := by cases x <;> decide

theorem FailureClass.mem_all (x : FailureClass) : x ∈ all := by cases x <;> decide

def RequestPhase.ofInt (n : ℤ) : RequestPhase :=
  if h : n < 0 ∨ 2 < n then .unnamed n h else if n = 0 then .unknown else if n = 1 then .prefill else .decode

def LatencyClass.ofInt (n : ℤ) : LatencyClass :=
  if h : n < 0 ∨ 3 < n then .unnamed n h
  else if n = 0 then .background else if n = 1 then .throughput else if n = 2 then .standard else .interactive

def PriorityClass.ofInt (n : ℤ) : PriorityClass :=
  if h : n < 0 ∨ 4 < n then .unnamed n h
  else if n = 0 then .background else if n = 1 then .low else if n = 2 then .medium
  else if n = 3 then .high else .critical

def CompletionStatus.ofInt (n : ℤ) : CompletionStatus :=
  if h : n < 0 ∨ 5 < n then .unnamed n h
  else if n = 0 then .succeeded else if n = 1 then .failed else if n = 2 then .cancelled
  else if n = 3 then .expired else if n = 4 then .stale else .ambiguous

theorem RequestPhase.ofInt_phaseInt (p : RequestPhase) : ofInt (phaseInt p) = p := by
  cases p with
  | unnamed v h => exact dif_pos h
  | _ => rfl

theorem LatencyClass.ofInt_latencyInt (c : LatencyClass) : ofInt (latencyInt c) = c := by
  cases c with
  | unnamed v h => exact dif_pos h
  | _ => rfl

theorem PriorityClass.ofInt_priorityInt (c : PriorityClass) : ofInt (priorityInt c) = c := by
  cases c with
  | unnamed v h => exact dif_pos h
  | _ => rfl

theorem CompletionStatus.ofInt_statusInt (x : CompletionStatus) : ofInt (statusInt x) = x := by
  cases x with
  | unnamed v h => exact dif_pos h
  | _ => rfl

/-- The byte of a flag. -/
def flag (b : Bool) : UInt8 := if b then 1 else 0

theorem flag_ne_zero (b : Bool) : (flag b != 0) = b := by cases b <;> rfl

/-- The value of a floating-point pattern. -/
def ofDouble (v : UInt64) : ℚ := (Binary64.value v).getD 0

theorem ofDouble_bits {q : ℚ} (h : Binary64.IsDouble q) : ofDouble (Binary64.bits q) = q := by
  rw [ofDouble, Binary64.value_bits h, Option.getD_some]

/-! ## Images -/

/-- An optional id: nothing behind a zero byte, an id behind any other. -/
inductive SavedId (t : IdTag)
  | absent
  | present (mark : UInt8) (h : mark ≠ 0) (id : Id t)
  deriving DecidableEq

@[ext] structure SavedAttempt where
  attemptId : AttemptId
  generation : Generation
  state : ℤ
  worker : WorkerId
  batch : BatchId
  finalStatus : ℤ
  failureClass : ℤ
  errorMessage : Bytes
  outputTokens : ℤ
  workUnits : ℤ
  durationUs : ℤ
  deriving DecidableEq

@[ext] structure SavedRequest where
  requestId : RequestId
  state : ℤ
  currentAttempt : AttemptId
  generation : Generation
  attemptsUsed : ℤ
  cancellationRequested : UInt8
  cancellationCommitted : UInt8
  cancelReason : ℤ
  terminalReason : Bytes
  tenant : TenantId
  session : SessionId
  sequence : SequenceId
  model : ModelIdentity
  revision : ModelRevision
  adapter : SavedId .adapter
  phase : ℤ
  priority : ℤ
  latencyClass : ℤ
  tokensInput : ℤ
  tokensOutput : ℤ
  tokensDecoded : ℤ
  estimatedMemoryBytes : ℤ
  maxBatchSize : ℤ
  modelName : Bytes
  demandMemoryBytes : ℤ
  costUnits : UInt64
  remaining : ℤ
  history : List SavedAttempt
  deriving DecidableEq

@[ext] structure SavedTenant where
  tenant : TenantId
  weight : UInt64
  admitted : ℤ
  queued : ℤ
  running : ℤ
  servicesConsumed : ℤ
  serviceDebt : ℤ
  deriving DecidableEq

@[ext] structure SavedWorker where
  worker : WorkerId
  node : NodeId
  accelerator : AcceleratorId
  bootId : WorkerBootId
  state : ℤ
  backend : Bytes
  deviceName : Bytes
  totalCapacityUnits : ℤ
  availableCapacityUnits : ℤ
  memoryBytesTotal : ℤ
  memoryBytesAvailable : ℤ
  models : List ModelIdentity
  revisions : List ModelRevision
  adapters : List AdapterIdentity
  phases : List ℤ
  deriving DecidableEq

/-- The epoch, the global counters and the statistics that are written. -/
@[ext] structure SavedHeader where
  epoch : UInt64
  globalAdmitted : ℤ
  globalQueued : ℤ
  globalReservedUnits : ℤ
  globalRunningUnits : ℤ
  globalTokens : ℤ
  requestsSubmitted : UInt64
  requestsAdmitted : UInt64
  requestsCompleted : UInt64
  requestsCancelled : UInt64
  requestsFailed : UInt64
  requestsExpired : UInt64
  attemptsCreated : UInt64
  dispatches : UInt64
  retries : UInt64
  deriving DecidableEq

structure SavedState where
  header : SavedHeader
  requests : List SavedRequest := []
  tenants : List SavedTenant := []
  workers : List SavedWorker := []
  deriving DecidableEq

/-! ## The image of a state -/

def AttemptRecord.save (a : AttemptRecord) : SavedAttempt where
  attemptId := a.attemptId
  generation := a.generation
  state := codeOf AttemptState.all a.state
  worker := a.worker
  batch := a.batch
  finalStatus := statusInt a.finalStatus
  failureClass := codeOf FailureClass.all a.failureClass
  errorMessage := ofText a.errorMessage
  outputTokens := a.outputTokens
  workUnits := a.workUnits
  durationUs := a.durationUs

/-- `BinWriter::opt_id`. -/
def Id.save {t : IdTag} (i : Id t) : SavedId t := if i.valid then .present 1 (by decide) i else .absent

/-- The milliseconds of a deadline still to go, `-1` if there is none. -/
def Deadline.save (d : Deadline) (now : ClockTime) : ℤ := if d.valid then d.remaining now else -1

def RequestRecord.save (now : ClockTime) (r : RequestRecord) : SavedRequest where
  requestId := r.requestId
  state := codeOf RequestState.all r.state
  currentAttempt := r.currentAttempt
  generation := r.generation
  attemptsUsed := r.attemptsUsed
  cancellationRequested := flag r.cancellationRequested
  cancellationCommitted := flag r.cancellationCommitted
  cancelReason := codeOf CancellationReason.all r.cancelReason
  terminalReason := ofText r.terminalReason
  tenant := r.spec.tenant
  session := r.spec.session
  sequence := r.spec.sequence
  model := r.spec.model
  revision := r.spec.revision
  adapter := r.spec.adapter.save
  phase := phaseInt r.spec.phase
  priority := priorityInt r.spec.priority
  latencyClass := latencyInt r.spec.latencyClass
  tokensInput := r.spec.tokens.input
  tokensOutput := r.spec.tokens.output
  tokensDecoded := r.spec.tokens.decoded
  estimatedMemoryBytes := r.spec.estimatedMemoryBytes
  maxBatchSize := r.spec.maxBatchSize
  modelName := ofText r.spec.modelName
  demandMemoryBytes := r.spec.demand.memoryBytes
  costUnits := Binary64.bits r.spec.demand.costUnits
  remaining := r.spec.deadline.save now
  history := r.history.map (·.save)

def TenantRecord.save (t : TenantRecord) : SavedTenant where
  tenant := t.tenant
  weight := Binary64.bits t.weight
  admitted := t.admitted
  queued := t.queued
  running := t.running
  servicesConsumed := t.servicesConsumed
  serviceDebt := t.serviceDebt

def WorkerRecord.save (wr : WorkerRecord) : SavedWorker where
  worker := wr.registration.worker
  node := wr.registration.node
  accelerator := wr.registration.accelerator
  bootId := wr.registration.bootId
  state := codeOf WorkerState.all wr.state
  backend := ofText wr.registration.capability.backend
  deviceName := ofText wr.registration.capability.deviceName
  totalCapacityUnits := wr.registration.capability.totalCapacityUnits
  availableCapacityUnits := wr.registration.capability.availableCapacityUnits
  memoryBytesTotal := wr.registration.capability.memoryBytesTotal
  memoryBytesAvailable := wr.registration.capability.memoryBytesAvailable
  models := wr.registration.capability.models
  revisions := wr.registration.capability.revisions
  adapters := wr.registration.capability.adapters
  phases := wr.registration.capability.phases.map phaseInt

def Impl.saveHeader (s : Impl) : SavedHeader where
  epoch := s.epochValue
  globalAdmitted := s.globalAdmitted
  globalQueued := s.ready.globalQueued
  globalReservedUnits := s.pool.globalReservedUnits
  globalRunningUnits := s.pool.globalRunningUnits
  globalTokens := s.globalTokens
  requestsSubmitted := UInt64.ofNat s.stats.requestsSubmitted
  requestsAdmitted := UInt64.ofNat s.stats.requestsAdmitted
  requestsCompleted := UInt64.ofNat s.stats.requestsCompleted
  requestsCancelled := UInt64.ofNat s.stats.requestsCancelled
  requestsFailed := UInt64.ofNat s.stats.requestsFailed
  requestsExpired := UInt64.ofNat s.stats.requestsExpired
  attemptsCreated := UInt64.ofNat s.stats.attemptsCreated
  dispatches := UInt64.ofNat s.stats.dispatches
  retries := UInt64.ofNat s.stats.retries

/-- The image of a state. -/
def Impl.save (s : Impl) : SavedState where
  header := s.saveHeader
  requests := s.requests.records.map (·.save s.now)
  tenants := s.tenants.records.map (·.save)
  workers := s.pool.workers.records.map (·.save)

/-! ## The records of an image -/

def SavedAttempt.restore (a : SavedAttempt) : AttemptRecord where
  attemptId := a.attemptId
  generation := a.generation
  state := ofCode AttemptState.all .created a.state
  worker := a.worker
  batch := a.batch
  finalStatus := .ofInt a.finalStatus
  failureClass := ofCode FailureClass.all .retryableTransport a.failureClass
  errorMessage := toText a.errorMessage
  outputTokens := a.outputTokens
  workUnits := a.workUnits
  durationUs := a.durationUs

/-- `BinReader::opt_id`. -/
def SavedId.restore {t : IdTag} : SavedId t → Id t
  | .absent => .invalid
  | .present _ _ id => id

def SavedRequest.restore (now : ClockTime) (r : SavedRequest) : RequestRecord where
  requestId := r.requestId
  state := ofCode RequestState.all .created r.state
  currentAttempt := r.currentAttempt
  generation := r.generation
  attemptsUsed := r.attemptsUsed
  cancellationRequested := r.cancellationRequested != 0
  cancellationCommitted := r.cancellationCommitted != 0
  cancelReason := ofCode CancellationReason.all .clientRequested r.cancelReason
  terminalReason := toText r.terminalReason
  spec :=
    { tenant := r.tenant
      session := r.session
      sequence := r.sequence
      model := r.model
      revision := r.revision
      adapter := r.adapter.restore
      phase := .ofInt r.phase
      priority := .ofInt r.priority
      latencyClass := .ofInt r.latencyClass
      tokens := { input := r.tokensInput, output := r.tokensOutput, decoded := r.tokensDecoded }
      estimatedMemoryBytes := r.estimatedMemoryBytes
      maxBatchSize := r.maxBatchSize
      modelName := toText r.modelName
      demand := { memoryBytes := r.demandMemoryBytes, costUnits := ofDouble r.costUnits }
      deadline := if r.remaining ≥ 0 then .after r.remaining now else {} }
  history := r.history.map (·.restore)
  createdAt := now
  completedAt := now

def SavedTenant.restore (t : SavedTenant) : TenantRecord where
  tenant := t.tenant
  weight := ofDouble t.weight
  admitted := t.admitted
  queued := t.queued
  running := t.running
  servicesConsumed := t.servicesConsumed
  serviceDebt := t.serviceDebt

def SavedWorker.restore (w : SavedWorker) : WorkerRecord where
  registration :=
    { worker := w.worker
      node := w.node
      accelerator := w.accelerator
      bootId := w.bootId
      capability :=
        { backend := toText w.backend
          deviceName := toText w.deviceName
          totalCapacityUnits := w.totalCapacityUnits
          availableCapacityUnits := w.availableCapacityUnits
          memoryBytesTotal := w.memoryBytesTotal
          memoryBytesAvailable := w.memoryBytesAvailable
          models := w.models
          revisions := w.revisions
          adapters := w.adapters
          phases := w.phases.map .ofInt } }
  state := ofCode WorkerState.all .unknown w.state
  resource :=
    { totalCapacityUnits := w.totalCapacityUnits
      availableCapacityUnits := w.availableCapacityUnits
      memoryBytesTotal := w.memoryBytesTotal
      memoryBytesAvailable := w.memoryBytesAvailable }

end InferenceScheduler
