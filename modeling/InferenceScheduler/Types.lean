/-
The public data types (`include/inference_scheduler/enums.hpp`, `types.hpp`,
`clock.hpp`, `error.hpp`, `scheduler.hpp`): enumerations, request
specifications, policies, worker capabilities, reports and outcomes.

Integers are mathematical integers, and the source's `double` and `float`
values (costs, weights, warmth) are exact rationals. A duration in
milliseconds is an integer, an instant of the clock is an integer number of
nanoseconds.

The enumerations a caller puts into a specification, and the status of a
report, are `enum class : int` in the source, so a value without an enumerator
is a value too: each has a constructor for it, which carries that the value is
out of range.
-/
import InferenceScheduler.Ids
import InferenceScheduler.Lib.Table
import InferenceScheduler.Lib.Bag
import Mathlib.Algebra.Order.Field.Rat
import Mathlib.Data.Rat.Floor

namespace InferenceScheduler

/-! ## Enumerations -/

inductive PriorityClass
  | background | low | medium | high | critical
  | unnamed (value : ℤ) (h : value < 0 ∨ 4 < value)
  deriving DecidableEq

inductive LatencyClass
  | background | throughput | standard | interactive
  | unnamed (value : ℤ) (h : value < 0 ∨ 3 < value)
  deriving DecidableEq

inductive RequestPhase
  | unknown | prefill | decode
  | unnamed (value : ℤ) (h : value < 0 ∨ 2 < value)
  deriving DecidableEq

def phaseInt : RequestPhase → ℤ
  | .unknown => 0
  | .prefill => 1
  | .decode => 2
  | .unnamed v _ => v

def latencyInt : LatencyClass → ℤ
  | .background => 0
  | .throughput => 1
  | .standard => 2
  | .interactive => 3
  | .unnamed v _ => v

def priorityInt : PriorityClass → ℤ
  | .background => 0
  | .low => 1
  | .medium => 2
  | .high => 3
  | .critical => 4
  | .unnamed v _ => v

inductive RequestState
  | created | pendingAdmission | admitted | queued | reserved | dispatched | running | completing
  | completed | rejected | cancelled | expired | failed
  deriving DecidableEq

inductive AttemptState
  | created | reserved | dispatched | running | completing
  | succeeded | failed | cancelled | stale | expired
  deriving DecidableEq

inductive WorkerState
  | unknown | booted | online | busy | offline | drained | unhealthy
  deriving DecidableEq

inductive AdmissionDecision
  | admitted | defer | reject
  deriving DecidableEq

inductive DispatchDecision
  | dispatch | hold | noEligibleWorker | cancelled
  deriving DecidableEq

inductive CancellationReason
  | clientRequested | deadlineExpired | schedulerDrain | transientFailure | policy | overload | manual
  deriving DecidableEq

inductive CompletionStatus
  | succeeded | failed | cancelled | expired | stale | ambiguous
  | unnamed (value : ℤ) (h : value < 0 ∨ 5 < value)
  deriving DecidableEq

def statusInt : CompletionStatus → ℤ
  | .succeeded => 0
  | .failed => 1
  | .cancelled => 2
  | .expired => 3
  | .stale => 4
  | .ambiguous => 5
  | .unnamed v _ => v

/-- Whether a status has an enumerator. -/
def CompletionStatus.hasName : CompletionStatus → Bool
  | .unnamed .. => false
  | _ => true

inductive FailureClass
  | retryableTransport | retryableWorker | nonRetryableRequest | schedulerRejection
  | deadlineExpiration | cancellation | staleAuthority | ambiguousDispatch | internal
  deriving DecidableEq

inductive CompletionAcceptance
  | accepted | cancelledOutcome | staleEpoch | staleWorker | staleAttempt | duplicate | invalid
  deriving DecidableEq

/-- `name_of(FailureClass)`. -/
def FailureClass.nameOf : FailureClass → String
  | .retryableTransport => "retryable_transport"
  | .retryableWorker => "retryable_worker"
  | .nonRetryableRequest => "non_retryable_request"
  | .schedulerRejection => "scheduler_rejection"
  | .deadlineExpiration => "deadline_expiration"
  | .cancellation => "cancellation"
  | .staleAuthority => "stale_authority"
  | .ambiguousDispatch => "ambiguous_dispatch"
  | .internal => "internal"

/-- `name_of(WorkerState)`. -/
def WorkerState.nameOf : WorkerState → String
  | .unknown => "unknown"
  | .booted => "booted"
  | .online => "online"
  | .busy => "busy"
  | .offline => "offline"
  | .drained => "drained"
  | .unhealthy => "unhealthy"

/-- `name_of(PriorityClass)`. -/
def PriorityClass.nameOf : PriorityClass → String
  | .background => "background"
  | .low => "low"
  | .medium => "medium"
  | .high => "high"
  | .critical => "critical"
  | .unnamed .. => "unknown"

/-- `name_of(LatencyClass)`. -/
def LatencyClass.nameOf : LatencyClass → String
  | .background => "background"
  | .throughput => "throughput"
  | .standard => "standard"
  | .interactive => "interactive"
  | .unnamed .. => "unknown"

/-- `name_of(RequestPhase)`. -/
def RequestPhase.nameOf : RequestPhase → String
  | .unknown => "unknown"
  | .prefill => "prefill"
  | .decode => "decode"
  | .unnamed .. => "unknown"

/-- `name_of(RequestState)`. -/
def RequestState.nameOf : RequestState → String
  | .created => "created"
  | .pendingAdmission => "pending_admission"
  | .admitted => "admitted"
  | .queued => "queued"
  | .reserved => "reserved"
  | .dispatched => "dispatched"
  | .running => "running"
  | .completing => "completing"
  | .completed => "completed"
  | .rejected => "rejected"
  | .cancelled => "cancelled"
  | .expired => "expired"
  | .failed => "failed"

/-- `is_terminal(RequestState)`. -/
def isTerminal (s : RequestState) : Bool :=
  s == .completed || s == .rejected || s == .cancelled || s == .expired || s == .failed

/-- `is_terminal(AttemptState)`. -/
def AttemptState.isTerminal (s : AttemptState) : Bool :=
  s == .succeeded || s == .failed || s == .cancelled || s == .stale || s == .expired

/-! ## Errors -/

/-- The error categories the scheduler's own operations answer. -/
inductive ErrorCode
  | invalidArgument | invalidState | notFound | staleEpoch | staleWorker | staleAttempt | corruption
  deriving DecidableEq

structure Error where
  code : ErrorCode
  message : String
  deriving DecidableEq

/-- `Result<T>`. -/
abbrev Result (α : Type) := Except Error α

def corruption (message : String) : Error := ⟨.corruption, message⟩

/-! ## Time and deadlines -/

/-- An instant of the clock, in nanoseconds. -/
abbrev ClockTime := ℤ

/-- `duration_cast<milliseconds>`, which truncates towards zero. -/
def toMs (d : ℤ) : ℤ := d.tdiv 1000000

def msBetween (a b : ClockTime) : ℤ := toMs (b - a)

/-- The largest signed 64-bit value. -/
def i64Max : ℤ := 2 ^ 63 - 1

/-- An absolute instant, or no deadline. -/
structure Deadline where
  point : Option ClockTime := none
  deriving DecidableEq

namespace Deadline

def valid (d : Deadline) : Bool := d.point.isSome

/-- `Deadline::after`, in milliseconds from `now`. -/
def after (ms : ℤ) (now : ClockTime) : Deadline := ⟨some (now + ms * 1000000)⟩

/-- The remaining milliseconds, zero once the instant has passed. -/
def remaining (d : Deadline) (now : ClockTime) : ℤ :=
  match d.point with
  | none => i64Max
  | some p => if p - now < 0 then 0 else toMs (p - now)

def expired (d : Deadline) (now : ClockTime) : Bool :=
  match d.point with
  | none => false
  | some p => p ≤ now

/-- What the source orders urgency by: the remaining milliseconds, the largest
value when there is no deadline. -/
def slack (d : Deadline) (now : ClockTime) : ℤ := if d.valid then d.remaining now else i64Max

end Deadline

/-! ## Request specifications -/

structure TokenEstimate where
  input : ℤ := 0
  output : ℤ := 0
  decoded : ℤ := 0
  deriving DecidableEq

def TokenEstimate.total (t : TokenEstimate) : ℤ := t.input + t.output

structure LocalityHint where
  node : NodeId := .invalid
  accelerator : AcceleratorId := .invalid
  affinity : ℤ := 0
  deriving DecidableEq

def LocalityHint.hasPreference (l : LocalityHint) : Bool := l.node.valid || l.accelerator.valid

structure WarmthHint where
  modelWarmth : ℚ := 0
  stateWarmth : ℚ := 0
  cacheHit : ℚ := 0
  deriving DecidableEq

@[ext] structure ResourceDemand where
  tokens : TokenEstimate := {}
  memoryBytes : ℤ := 0
  costUnits : ℚ := 1
  deriving DecidableEq

@[ext] structure RequestSpec where
  tenant : TenantId := .invalid
  session : SessionId := .invalid
  sequence : SequenceId := .invalid
  model : ModelIdentity := .invalid
  revision : ModelRevision := .invalid
  adapter : AdapterIdentity := .invalid
  phase : RequestPhase := .prefill
  priority : PriorityClass := .medium
  latencyClass : LatencyClass := .standard
  tokens : TokenEstimate := {}
  demand : ResourceDemand := {}
  locality : LocalityHint := {}
  warmth : WarmthHint := {}
  deadline : Deadline := {}
  /-- `Budget::units`. -/
  budget : ℤ := 0
  estimatedMemoryBytes : ℤ := 0
  modelName : String := ""
  payload : String := ""
  maxBatchSize : ℤ := 0
  interactive : Bool := false
  deriving DecidableEq

/-- `ceil_cost`, for a cost that its cast to a 64-bit integer can hold. -/
def ceilCost (c : ℚ) : ℤ := if c ≤ 0 then 1 else ⌈c⌉

theorem ceilCost_pos (c : ℚ) : 1 ≤ ceilCost c := by
  rw [ceilCost]
  split
  · exact le_refl _
  · next h => exact Int.one_le_ceil_iff.2 (not_le.1 h)

/-- A cost below one is rounded like one. -/
theorem ceilCost_max_one (c : ℚ) : ceilCost (max 1 c) = ceilCost c := by
  rcases le_total c 1 with hle | hle
  · rw [max_eq_left hle, ceilCost, ceilCost, if_neg (by norm_num), Int.ceil_one]
    split
    · rfl
    · next hpos =>
      refine le_antisymm (Int.one_le_ceil_iff.2 (not_le.1 hpos)) ?_
      exact Int.ceil_le.2 (by simpa using hle)
  · rw [max_eq_right hle]

theorem ceilCost_mono {c c' : ℚ} (h : c' ≤ c) : ceilCost c' ≤ ceilCost c := by
  by_cases hpos : c' ≤ 0
  · rw [ceilCost, if_pos hpos]
    exact ceilCost_pos c
  · have hpos' : ¬c ≤ 0 := fun hc => hpos (h.trans hc)
    rw [ceilCost, ceilCost, if_neg hpos, if_neg hpos']
    exact Int.ceil_le_ceil h

/-! ## Policies -/

structure AdmissionLimits where
  maxGlobalAdmitted : ℤ := 1024
  maxGlobalQueued : ℤ := 4096
  defaultTenantConcurrency : ℤ := 64
  defaultTenantQueueDepth : ℤ := 512
  maxGlobalTokenBudget : ℤ := 0
  enforceDeadlineFeasibility : Bool := true

structure BatchConstraints where
  maxBatchSize : ℤ := 16
  maxTokens : ℤ := 4096
  maxWait : ℤ := 8
  allowPhaseMix : Bool := false

structure DispatchWeights where
  capability : ℚ := 1
  capacity : ℚ := 2
  load : ℚ := 1
  deadline : ℚ := 3 / 2
  latencyClass : ℚ := 1
  phase : ℚ := 1
  locality : ℚ := 1 / 2
  modelWarmth : ℚ := 3 / 5
  stateWarmth : ℚ := 3 / 5
  batch : ℚ := 6 / 5
  fairness : ℚ := 1

structure SchedulingPolicy where
  latencyWeight : List ℚ := [1, 1, 1, 1]
  priorityWeight : List ℚ := [1, 1, 1, 1, 1]
  phaseWeight : List ℚ := [1, 1, 1]
  deadlineBoostEnabled : Bool := true
  deadlineBoostMax : ℚ := 4
  deadlineBoostThresholdMs : ℤ := 2000
  dispatch : DispatchWeights := {}

structure TenantWeight where
  tenant : TenantId
  weight : ℚ := 1

structure FairnessPolicy where
  tenantWeights : List TenantWeight := []
  defaultWeight : ℚ := 1

structure RetryPolicy where
  maxAttempts : ℤ := 3
  retryOnTransport : Bool := true
  retryOnWorkerFailure : Bool := true
  retryOnAmbiguous : Bool := false

structure SchedulerConfig where
  admission : AdmissionLimits := {}
  scheduling : SchedulingPolicy := {}
  fairness : FairnessPolicy := {}
  batch : BatchConstraints := {}
  retry : RetryPolicy := {}
  strictDeadlineRejection : Bool := true
  persistRecovery : Bool := false

/-! ## Workers -/

structure ResourceSnapshot where
  totalCapacityUnits : ℤ := 0
  availableCapacityUnits : ℤ := 0
  memoryBytesTotal : ℤ := -1
  memoryBytesAvailable : ℤ := -1
  queueDepth : ℤ := 0
  running : ℤ := 0
  healthy : Bool := true

structure WorkerCapability where
  backend : String := ""
  deviceName : String := ""
  totalCapacityUnits : ℤ := 1
  availableCapacityUnits : ℤ := 1
  memoryBytesTotal : ℤ := -1
  memoryBytesAvailable : ℤ := -1
  models : List ModelIdentity := []
  revisions : List ModelRevision := []
  adapters : List AdapterIdentity := []
  phases : List RequestPhase := []
  modelWarmth : ℚ := 0
  stateWarmth : ℚ := 0

structure WorkerRegistration where
  worker : WorkerId := .invalid
  node : NodeId := .invalid
  accelerator : AcceleratorId := .invalid
  bootId : WorkerBootId := .invalid
  capability : WorkerCapability := {}
  state : WorkerState := .booted

/-! ## Reports and outcomes -/

/-- A worker's report on one attempt; `confirm_dispatch_start` takes one too. -/
structure CompletionReport where
  epoch : SchedulerEpoch := .invalid
  worker : WorkerId := .invalid
  bootId : WorkerBootId := .invalid
  requestId : RequestId := .invalid
  attemptId : AttemptId := .invalid
  generation : Generation := .invalid
  status : CompletionStatus := .succeeded
  failureClass : FailureClass := .internal
  errorMessage : String := ""
  outputTokensProduced : ℤ := 0
  workUnits : ℤ := 0
  durationUs : ℤ := 0
  workerSnapshot : ResourceSnapshot := {}

structure AdmissionOutput where
  decision : AdmissionDecision := .defer
  reasonCode : String := ""
  explanation : String := ""
  requestId : RequestId := .invalid
  attemptId : AttemptId := .invalid
  generation : Generation := .invalid
  deferAfter : ℤ := 0

structure ScoreComponent where
  name : String
  value : ℚ
  weight : ℚ

structure WorkerScore where
  worker : WorkerId := .invalid
  eligible : Bool := false
  components : List ScoreComponent := []
  total : ℚ := 0
  rejectReasonCode : String := ""

structure ExplainResult where
  requestId : RequestId := .invalid
  attemptId : AttemptId := .invalid
  admission : AdmissionDecision := .defer
  admitted : Bool := false
  admissionReasonCode : String := ""
  admissionExplanation : String := ""
  orderingFactors : List String := []
  candidates : List WorkerScore := []
  selectedWorker : WorkerId := .invalid
  batchId : BatchId := .invalid
  batchFormed : Bool := false
  batchExplanation : String := ""
  epoch : SchedulerEpoch := .invalid
  notes : List String := []

structure DispatchOutcome where
  requestId : RequestId := .invalid
  attemptId : AttemptId := .invalid
  generation : Generation := .invalid
  workerId : WorkerId := .invalid
  batchId : BatchId := .invalid
  batchMembers : List RequestId := []
  decision : DispatchDecision := .hold
  reasonCode : String := ""
  explanation : String := ""
  candidates : List WorkerScore := []
  estimatedCostUnits : ℤ := 0

structure RequestSnapshot where
  requestId : RequestId
  tenant : TenantId
  state : RequestState
  phase : RequestPhase
  latencyClass : LatencyClass
  priority : PriorityClass
  model : ModelIdentity
  revision : ModelRevision
  attemptId : AttemptId
  generation : Generation
  workerId : WorkerId
  deadline : Deadline
  queueDelayMs : ℤ

structure CompletionOutcome where
  acceptance : CompletionAcceptance := .invalid
  reasonCode : String := ""
  retried : Bool := false
  retryAttempt : AttemptId := .invalid

structure SchedulerEvent where
  sequence : ℕ
  epoch : UInt64
  type : String
  requestId : RequestId
  attemptId : AttemptId
  workerId : WorkerId
  batchId : BatchId
  timestampNs : ℤ
  detail : String

/-! ## Statistics -/

structure LatencyClassStats where
  admitted : ℕ := 0
  completed : ℕ := 0

structure SchedulerStats where
  requestsSubmitted : ℕ := 0
  requestsAdmitted : ℕ := 0
  requestsDeferred : ℕ := 0
  requestsRejected : ℕ := 0
  requestsCompleted : ℕ := 0
  requestsCancelled : ℕ := 0
  requestsExpired : ℕ := 0
  requestsFailed : ℕ := 0
  attemptsCreated : ℕ := 0
  dispatches : ℕ := 0
  completions : ℕ := 0
  retries : ℕ := 0
  staleRejected : ℕ := 0
  batchesFormed : ℕ := 0
  batchMembers : ℕ := 0
  byLatency : List LatencyClassStats := List.replicate 4 {}

end InferenceScheduler
