/-
The scheduler's private records and its whole state (`src/scheduler.cpp`,
`namespace detail` and `class Scheduler::Impl`).

The members of `Impl` that move together are grouped: `Ready` holds the queue
indexes, `Pool` the workers with the two global unit counters. An unordered
container is a list-backed one, its list order standing for the hash order; a
C++ reference into `requests_` is the record's value, and writing through it
is `put`, which stores a record under its own id.
-/
import InferenceScheduler.Types

namespace InferenceScheduler

/-! ## Keys and heap entries -/

structure FlowKey where
  tenant : TenantId
  latency : ℤ
  phase : ℤ
  priority : ℤ
  deriving DecidableEq

namespace FlowKey

/-- `operator<`. -/
def lt (a b : FlowKey) : Bool :=
  if a.tenant ≠ b.tenant then a.tenant.lt b.tenant
  else if a.latency ≠ b.latency then a.latency < b.latency
  else if a.phase ≠ b.phase then a.phase < b.phase
  else a.priority < b.priority

/-- The order in which `std::set<FlowKey>` enumerates. -/
def le (a b : FlowKey) : Prop := b.lt a = false

instance : DecidableRel le := fun a b => inferInstanceAs (Decidable (b.lt a = false))

end FlowKey

structure CompatKey where
  model : UInt64
  revision : UInt64
  adapter : UInt64
  phase : ℤ
  latency : ℤ
  deriving DecidableEq

structure ReadyEntry where
  id : RequestId
  generation : Generation
  slack : ℤ
  prio : ℤ
  idv : UInt64
  deriving DecidableEq

/-- `ReadyLess`: whether `a` is less urgent than `b`. -/
def readyLess (a b : ReadyEntry) : Bool :=
  if a.slack ≠ b.slack then a.slack > b.slack
  else if a.prio ≠ b.prio then a.prio < b.prio
  else a.idv > b.idv

/-- `a` may be served before `b`. -/
def ReadyBefore (a b : ReadyEntry) : Prop := readyLess a b = false

instance : DecidableRel ReadyBefore := fun a b => inferInstanceAs (Decidable (readyLess a b = false))

theorem readyBefore_iff {a b : ReadyEntry} : ReadyBefore a b ↔
    a.slack < b.slack ∨ a.slack = b.slack ∧
      (b.prio < a.prio ∨ a.prio = b.prio ∧ a.idv.toNat ≤ b.idv.toNat) := by
  simp only [ReadyBefore, readyLess, ne_eq, ite_not, gt_iff_lt, UInt64.lt_iff_toNat_lt]
  split
  · split
    · simp only [decide_eq_false_iff_not]; omega
    · simp only [decide_eq_false_iff_not]; omega
  · simp only [decide_eq_false_iff_not]; omega

instance : Std.Total ReadyBefore where
  total a b := by
    simp only [readyBefore_iff]
    omega

instance : IsTrans ReadyEntry ReadyBefore where
  trans a b c hab hbc := by
    simp only [readyBefore_iff] at *
    omega

structure Flow where
  weight : ℚ := 1
  virtualFinish : ℚ := 0
  pending : Heap ReadyBefore := ∅

/-! ## Records -/

structure AttemptRecord where
  attemptId : AttemptId := .invalid
  generation : Generation := .invalid
  state : AttemptState := .created
  worker : WorkerId := .invalid
  batch : BatchId := .invalid
  finalStatus : CompletionStatus := .succeeded
  failureClass : FailureClass := .internal
  errorMessage : String := ""
  createdAt : ClockTime := 0
  outputTokens : ℤ := 0
  workUnits : ℤ := 0
  durationUs : ℤ := 0
  deriving DecidableEq

structure RequestRecord where
  spec : RequestSpec := {}
  requestId : RequestId := .invalid
  state : RequestState := .created
  currentAttempt : AttemptId := .invalid
  generation : Generation := .invalid
  history : List AttemptRecord := []
  createdAt : ClockTime := 0
  admittedAt : ClockTime := 0
  queuedAt : ClockTime := 0
  reservedAt : ClockTime := 0
  startedAt : ClockTime := 0
  completedAt : ClockTime := 0
  queueDelayMs : ℤ := 0
  scheduleDelayMs : ℤ := 0
  cancellationRequested : Bool := false
  cancellationCommitted : Bool := false
  cancelReason : CancellationReason := .clientRequested
  terminalReason : String := ""
  inBatch : Bool := false
  batchId : BatchId := .invalid
  attemptsUsed : ℤ := 0
  deriving DecidableEq

/-- A write through `history.back()`. No request of the scheduler's own has an
empty history; one recovered from a file that says so can meet `back()`, and the
source then writes out of bounds where nothing is written here. -/
def onLast (f : AttemptRecord → AttemptRecord) : List AttemptRecord → List AttemptRecord
  | [] => []
  | [a] => [f a]
  | a :: b :: as => a :: onLast f (b :: as)

/-- `history.back().worker`, the invalid worker when there is no attempt. -/
def RequestRecord.lastWorker (rec : RequestRecord) : WorkerId :=
  match rec.history.getLast? with
  | none => .invalid
  | some a => a.worker

structure TenantRecord where
  tenant : TenantId
  weight : ℚ := 1
  admitted : ℤ := 0
  queued : ℤ := 0
  running : ℤ := 0
  servicesConsumed : ℤ := 0
  serviceDebt : ℤ := 0

structure WorkerRecord where
  registration : WorkerRegistration := {}
  state : WorkerState := .unknown
  resource : ResourceSnapshot := {}
  reservedUnits : ℤ := 0
  runningUnits : ℤ := 0
  batchUnits : Table BatchId ℤ := ∅
  batchPending : Table BatchId ℤ := ∅
  batchMembers : Table BatchId (List RequestId) := ∅
  startedBatches : USet BatchId := ∅
  inFlight : Table RequestId AttemptId := ∅

/-- The id a worker record is stored under. -/
def WorkerRecord.id (wr : WorkerRecord) : WorkerId := wr.registration.worker

/-! ## The state -/

/-- The indexes of the queued requests: the flow heaps with the set of flows
that may hold a live entry, the compatibility buckets and the queued set. -/
structure Ready where
  virtualTime : ℚ := 0
  flows : Table FlowKey Flow := ∅
  compat : Table CompatKey (USet RequestId) := ∅
  activeFlows : USet FlowKey := ∅
  queued : USet RequestId := ∅
  globalQueued : ℤ := 0

/-- The workers and the capacity units in use over all of them. -/
structure Pool where
  workers : Keyed WorkerRecord.id := ∅
  globalReservedUnits : ℤ := 0
  globalRunningUnits : ℤ := 0

/-- `Scheduler::Impl`, with the clock's reading. -/
structure Impl where
  cfg : SchedulerConfig
  now : ClockTime
  epochValue : UInt64
  idFactory : IdFactory
  requests : Keyed RequestRecord.requestId := ∅
  pool : Pool := {}
  tenants : Keyed TenantRecord.tenant := ∅
  ready : Ready := {}
  globalAdmitted : ℤ := 0
  globalTokens : ℤ := 0
  draining : Bool := false
  drainReason : String := ""
  recoveryMode : ℤ := 0
  eventLog : List SchedulerEvent := []
  eventSeq : ℕ := 0
  stats : SchedulerStats := {}

/-- A constructed scheduler: the clock reads `now`, the factory has the salt
it was seeded with, and the epoch is 1 unless a valid one is given. -/
def Impl.init (cfg : SchedulerConfig) (now : ClockTime) (salt : UInt64) (epoch : Option SchedulerEpoch) :
    Impl where
  cfg := cfg
  now := now
  epochValue := match epoch with
    | none => 1
    | some e => if e.valid then e.value else 1
  idFactory := { salt := salt }

namespace Impl

/-- `emit_event`: the log keeps the last 65536 events. -/
def emitEvent (s : Impl) (type : String) (rid : RequestId) (aid : AttemptId) (wid : WorkerId) (bid : BatchId)
    (detail : String) : Impl :=
  let e : SchedulerEvent :=
    { sequence := s.eventSeq + 1, epoch := s.epochValue, type := type, requestId := rid, attemptId := aid,
      workerId := wid, batchId := bid, timestampNs := s.now, detail := detail }
  let log := s.eventLog ++ [e]
  { s with eventSeq := s.eventSeq + 1, eventLog := if log.length > 65536 then log.tail else log }

/-- Write a request record through its reference. -/
def put (s : Impl) (rec : RequestRecord) : Impl := { s with requests := s.requests.put rec }

/-- `tenant_weight`. -/
def tenantWeight (cfg : SchedulerConfig) (t : TenantId) : ℚ :=
  match cfg.fairness.tenantWeights.find? (·.tenant == t) with
  | some c => c.weight
  | none => cfg.fairness.defaultWeight

/-- `tenant_of`, the record it answers. -/
def tenantOf (s : Impl) (t : TenantId) : TenantRecord :=
  (s.tenants.find t).getD { tenant := t, weight := tenantWeight s.cfg t }

/-- Write through the reference `tenant_of` answers, which creates the record
if there is none. -/
def onTenant (s : Impl) (t : TenantId) (f : TenantRecord → TenantRecord) : Impl :=
  { s with tenants := s.tenants.put (f (s.tenantOf t)) }

/-- Write through an iterator into `tenants_`, if there is a record. -/
def onTenantIfAny (s : Impl) (t : TenantId) (f : TenantRecord → TenantRecord) : Impl :=
  { s with tenants := match s.tenants.find t with
    | none => s.tenants
    | some tr => s.tenants.put (f tr) }

theorem tenantOf_tenant (s : Impl) (t : TenantId) : (s.tenantOf t).tenant = t := by
  unfold tenantOf
  cases h : s.tenants.find t with
  | none => rfl
  | some tr => exact Keyed.key_of_find h

theorem find_onTenant (s : Impl) (t : TenantId) {f : TenantRecord → TenantRecord}
    (hf : ∀ tr, (f tr).tenant = tr.tenant) (t' : TenantId) :
    (s.onTenant t f).tenants.find t' = if t = t' then some (f (s.tenantOf t)) else s.tenants.find t' := by
  have hput := Keyed.find_put s.tenants (f (s.tenantOf t)) t'
  rw [hf, s.tenantOf_tenant t] at hput
  exact hput

theorem find_onTenantIfAny (s : Impl) (t : TenantId) {f : TenantRecord → TenantRecord}
    (hf : ∀ tr, (f tr).tenant = tr.tenant) (t' : TenantId) :
    (s.onTenantIfAny t f).tenants.find t' = if t = t' then (s.tenants.find t').map f else s.tenants.find t' := by
  unfold onTenantIfAny
  split
  · next h =>
    split
    · next heq => rw [← heq, h]; rfl
    · rfl
  · next tr h =>
    have hput := Keyed.find_put s.tenants (f tr) t'
    rw [hf, Keyed.key_of_find h] at hput
    rw [hput]
    split
    · next heq => rw [← heq, h]; rfl
    · rfl

end Impl

/-- `if (n > 0) n -= 1`. -/
def decPos (n : ℤ) : ℤ := if n > 0 then n - 1 else n

end InferenceScheduler
