/-
Admission (`src/scheduler.cpp`, "admission"): the checks on a specification,
the admission decision, and `submit`.
-/
import InferenceScheduler.Queue

namespace InferenceScheduler

/-- `validate_spec`. -/
def validateSpec (s : RequestSpec) : Result Unit :=
  if !s.tenant.valid then .error ⟨.invalidArgument, "tenant id required"⟩
  else if !s.model.valid then .error ⟨.invalidArgument, "model identity required"⟩
  else if s.tokens.input < 0 ∨ s.tokens.output < 0 ∨ s.tokens.decoded < 0 then
    .error ⟨.invalidArgument, "negative token estimate"⟩
  else if s.demand.costUnits < 0 then .error ⟨.invalidArgument, "negative cost units"⟩
  else if s.estimatedMemoryBytes < 0 then .error ⟨.invalidArgument, "negative memory estimate"⟩
  else if s.maxBatchSize < 0 then .error ⟨.invalidArgument, "negative max batch size"⟩
  else .ok ()

theorem check_ok_iff {p : Prop} [Decidable p] {e : Error} {rest : Result Unit} :
    (if p then .error e else rest) = .ok () ↔ ¬p ∧ rest = .ok () := by
  split
  · next hp => exact iff_of_false nofun fun h => h.1 hp
  · next hp => exact ⟨fun h => ⟨hp, h⟩, fun h => h.2⟩

/-- The specifications `validate_spec` accepts. -/
theorem validateSpec_ok_iff {s : RequestSpec} :
    validateSpec s = .ok () ↔
      s.tenant.valid = true ∧ s.model.valid = true ∧
      (0 ≤ s.tokens.input ∧ 0 ≤ s.tokens.output ∧ 0 ≤ s.tokens.decoded) ∧
      0 ≤ s.demand.costUnits ∧ 0 ≤ s.estimatedMemoryBytes ∧ 0 ≤ s.maxBatchSize := by
  unfold validateSpec
  rw [check_ok_iff, check_ok_iff, check_ok_iff, check_ok_iff, check_ok_iff, check_ok_iff]
  simp

/-- One list of `compatible`: an empty list supports everything. -/
def supports {α : Type} [DecidableEq α] (l : List α) (a : α) : Bool := l.isEmpty || l.contains a

/-- `compatible`. -/
def compatible (spec : RequestSpec) (cap : WorkerCapability) : Bool :=
  decide (cap.totalCapacityUnits > 0) && supports cap.models spec.model && supports cap.revisions spec.revision &&
    (!spec.adapter.valid || supports cap.adapters spec.adapter) && supports cap.phases spec.phase

/-- Add to the statistics of a latency class, `stats_.by_latency[i]`. -/
def onLatency (l : List LatencyClassStats) (i : ℤ) (f : LatencyClassStats → LatencyClassStats) :
    List LatencyClassStats :=
  if i < 0 then l else l.modify i.toNat f

namespace Impl

/-- `make_admission`. -/
def makeAdmission (s : Impl) (spec : RequestSpec) (now : ClockTime) : AdmissionDecision × String :=
  let a := s.cfg.admission
  let cost := ceilCost spec.demand.costUnits
  let rem := spec.deadline.remaining now
  if s.draining then (.reject, "scheduler_draining")
  else if s.recoveryMode = 1 then (.reject, "recovering")
  else if spec.deadline.valid && spec.deadline.expired now then (.reject, "deadline_expired_at_submit")
  else if a.enforceDeadlineFeasibility ∧ spec.deadline.valid ∧ rem < 0 then (.reject, "deadline_impossible")
  else if a.enforceDeadlineFeasibility ∧ spec.deadline.valid ∧ rem > 0 ∧ cost > rem then
    (if s.cfg.strictDeadlineRejection then .reject else .defer, "deadline_infeasible")
  else if s.globalAdmitted ≥ a.maxGlobalAdmitted then (.defer, "global_admission_saturated")
  else if s.ready.globalQueued ≥ a.maxGlobalQueued then (.defer, "global_queue_saturated")
  else if a.maxGlobalTokenBudget > 0 ∧ s.globalTokens + spec.tokens.total > a.maxGlobalTokenBudget then
    (.defer, "token_budget_exhausted")
  else if (s.tenants.find spec.tenant).any (fun t => t.admitted ≥ a.defaultTenantConcurrency) then
    (.defer, "tenant_concurrency_saturated")
  else if (s.tenants.find spec.tenant).any (fun t => t.queued ≥ a.defaultTenantQueueDepth) then
    (.defer, "tenant_queue_depth_saturated")
  -- Compatibility counts only once a worker is registered.
  else if s.pool.workers.records.isEmpty then (.admitted, "admitted")
  else if s.pool.workers.records.any (fun wr => compatible spec wr.registration.capability) then
    (.admitted, "admitted")
  else (.defer, "no_compatible_worker")

/-- `requests_.insert`, which keeps a record already there. -/
def insertRequest (s : Impl) (rec : RequestRecord) : Impl :=
  match s.requests.find rec.requestId with
  | some _ => s
  | none => s.put rec

/-- Draw an id. -/
def drawId (s : Impl) : Impl := { s with idFactory := s.idFactory.tick }

/-- The record a `Reject` leaves behind. -/
def rejectedRecord (spec : RequestSpec) (rid : RequestId) (gen : Generation) (reason : String) (now : ClockTime) :
    RequestRecord :=
  { spec := spec, requestId := rid, state := .rejected, terminalReason := reason, createdAt := now,
    generation := gen }

/-- The record of a request admitted after its deadline. -/
def lateRecord (spec : RequestSpec) (rid : RequestId) (gen : Generation) (now : ClockTime) : RequestRecord :=
  { spec := spec, requestId := rid, state := .expired, generation := gen, createdAt := now, admittedAt := now,
    terminalReason := "deadline_expired_at_admit" }

/-- The record of a newly admitted request, with its first attempt. -/
def admittedRecord (spec : RequestSpec) (rid : RequestId) (gen : Generation) (att : AttemptId) (now : ClockTime) :
    RequestRecord :=
  { spec := spec, requestId := rid, state := .queued, generation := gen, createdAt := now, admittedAt := now,
    currentAttempt := att, queuedAt := now,
    history := [{ attemptId := att, generation := gen, state := .created, createdAt := now }] }

/-- The end of the `Admit` branch: the new record is inserted, and what is
enqueued is the record the map holds then, new or old. -/
def enqueueNew (s : Impl) (fresh : RequestRecord) (reason : String) : Impl × AdmissionOutput :=
  let rid := fresh.requestId
  let s := s.insertRequest fresh
  let stored := (s.requests.find rid).getD fresh
  let s := s.enqueueRequest stored
  let s := { s with globalAdmitted := s.globalAdmitted + 1 }
  let s := s.onTenant fresh.spec.tenant fun t => { t with admitted := t.admitted + 1 }
  let s := s.emitEvent "admitted" rid stored.currentAttempt .invalid .invalid "admitted"
  let s := s.emitEvent "queued" rid stored.currentAttempt .invalid .invalid "queued"
  (s, { decision := .admitted, reasonCode := reason, explanation := "admitted; queued for scheduling",
        requestId := rid, attemptId := stored.currentAttempt, generation := stored.generation })

/-- The `Admit` branch of `do_submit`. -/
def admitAs (s : Impl) (spec : RequestSpec) (rid : RequestId) (reason : String) : Impl × AdmissionOutput :=
  let now := s.now
  let gen : Generation := s.idFactory.peek
  let s := s.drawId
  let s := { s with stats :=
    { s.stats with
      requestsSubmitted := s.stats.requestsSubmitted + 1
      requestsAdmitted := s.stats.requestsAdmitted + 1
      byLatency := onLatency s.stats.byLatency (latencyInt spec.latencyClass)
        fun c => { c with admitted := c.admitted + 1 } } }
  if spec.deadline.valid && spec.deadline.expired now then
    let s := s.insertRequest (lateRecord spec rid gen now)
    let s := { s with stats := { s.stats with requestsExpired := s.stats.requestsExpired + 1 } }
    -- The detail is the terminal reason of a record already moved from.
    let s := s.emitEvent "expired" rid .invalid .invalid .invalid ""
    (s, { decision := .reject, reasonCode := "deadline_expired_at_submit",
          explanation := "request deadline already expired at admission" })
  else
    let att : AttemptId := s.idFactory.peek
    let s := s.drawId
    let s := { s with stats := { s.stats with attemptsCreated := s.stats.attemptsCreated + 1 } }
    s.enqueueNew (admittedRecord spec rid gen att now) reason

/-- The `Defer` branch of `do_submit`. -/
def defer (s : Impl) (reason : String) : Impl × AdmissionOutput :=
  ({ s with stats :=
      { s.stats with
        requestsSubmitted := s.stats.requestsSubmitted + 1
        requestsDeferred := s.stats.requestsDeferred + 1 } },
    { decision := .defer, reasonCode := reason, explanation := reason, deferAfter := 25 })

/-- The `Reject` branch of `do_submit`. -/
def reject (s : Impl) (spec : RequestSpec) (rid : RequestId) (reason : String) : Impl × AdmissionOutput :=
  let s := { s with stats :=
    { s.stats with
      requestsSubmitted := s.stats.requestsSubmitted + 1
      requestsRejected := s.stats.requestsRejected + 1 } }
  let gen : Generation := s.idFactory.peek
  let s := s.drawId
  let s := s.insertRequest (rejectedRecord spec rid gen reason s.now)
  (s.emitEvent "rejected" rid .invalid .invalid .invalid reason,
    { decision := .reject, reasonCode := reason, explanation := reason })

/-- What `do_submit` does for a valid spec once the request has its id. -/
def submitAs (s : Impl) (spec : RequestSpec) (rid : RequestId) : Impl × AdmissionOutput :=
  match s.makeAdmission spec s.now with
  | (.admitted, reason) => s.admitAs spec rid reason
  | (.defer, reason) => s.defer reason
  | (.reject, reason) => s.reject spec rid reason

/-- `do_submit`. -/
def doSubmit (s : Impl) (spec : RequestSpec) (pre : Option RequestId) : Impl × Result AdmissionOutput :=
  match validateSpec spec with
  | .error e => (s, .error e)
  | .ok () =>
    let out := match pre with
      | some rid => s.submitAs spec rid
      | none => s.drawId.submitAs spec s.idFactory.peek
    (out.1, .ok out.2)

end Impl

end InferenceScheduler
