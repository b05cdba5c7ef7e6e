/-
The local driver (`src/local_driver.cpp`, `include/inference_scheduler/executor.hpp`):
it plans a batch, runs it on an executor in its own process, reports the start
of every member and then every result.
-/
import InferenceScheduler.DispatchPost

namespace InferenceScheduler

open Machine

/-! ## The executor -/

structure WorkRequest where
  requestId : RequestId := .invalid
  attemptId : AttemptId := .invalid
  generation : Generation := .invalid
  phase : RequestPhase := .prefill
  model : ModelIdentity := .invalid
  revision : ModelRevision := .invalid
  adapter : AdapterIdentity := .invalid
  tokens : TokenEstimate := {}
  costUnits : ℤ := 1
  payload : String := ""
  batchIndex : ℤ := 0
  cancelRequested : Bool := false

structure WorkResult where
  requestId : RequestId := .invalid
  attemptId : AttemptId := .invalid
  generation : Generation := .invalid
  status : CompletionStatus := .succeeded
  failureClass : FailureClass := .internal
  outputTokensProduced : ℤ := 0
  workUnits : ℤ := 0
  durationUs : ℤ := 0
  errorMessage : String := ""

/-- An executor with a state of its own. What it stands for includes the clock,
which advances by `elapse` before the driver's next call of the scheduler. -/
structure Executor (ε : Type) where
  run : ε → List WorkRequest → List WorkResult × ε
  elapse : ε → ℕ × ε

/-! ## The driver -/

/-- `LocalDriver`, the scheduler and the executor it refers to apart. -/
structure LocalDriver where
  workers : List WorkerRegistration
  availUnits : List ℤ
  batchesRun : ℕ := 0
  requestsCompleted : ℕ := 0
  sized : availUnits.length = workers.length

namespace LocalDriver

/-- The constructor. -/
def make (workers : List WorkerRegistration) : LocalDriver where
  workers := workers
  availUnits := workers.map (·.capability.availableCapacityUnits)
  sized := List.length_map _

/-- `find_worker`. -/
def findWorker (d : LocalDriver) (id : WorkerId) : Option WorkerRegistration := d.workers.find? (·.worker == id)

/-- `set_available_units`: the entry at the first position of the worker. -/
def setAvailableUnits (d : LocalDriver) (worker : WorkerId) (units : ℤ) : LocalDriver :=
  match d.workers.findIdx? (·.worker == worker) with
  | none => d
  | some i => { d with availUnits := d.availUnits.set i units, sized := by rw [List.length_set, d.sized] }

/-- `avail_units_[0]`, which is read only when some worker was found. -/
def frontUnits (d : LocalDriver) : ℤ := d.availUnits.headD 0

end LocalDriver

/-- `queued_count`. -/
def Impl.queuedCount (s : Impl) : ℕ := s.ready.globalQueued.toNat

/-- What `dispatch_one` hands the executor for one member. -/
def Impl.workRequest (s : Impl) (member : RequestId × ℕ) : Option WorkRequest :=
  match s.doRequestSnapshot member.1, s.doRequestSpec member.1 with
  | .ok snap, .ok spec => some
      { requestId := member.1
        attemptId := snap.attemptId
        generation := snap.generation
        phase := snap.phase
        model := snap.model
        revision := snap.revision
        adapter := spec.adapter
        tokens := spec.tokens
        costUnits := if spec.demand.costUnits > 0 then ⌈spec.demand.costUnits⌉ else 1
        batchIndex := member.2
        payload := spec.payload }
  | _, _ => none

/-- What it hands over for a batch; a member the scheduler does not know is
left out. -/
def Impl.workRequests (s : Impl) (members : List RequestId) : List WorkRequest :=
  members.zipIdx.filterMap s.workRequest

/-- The start `dispatch_one` reports for a member. -/
def startReport (s : Impl) (units : ℤ) (worker : WorkerId) (bootId : WorkerBootId) (w : WorkRequest) :
    CompletionReport :=
  { epoch := ⟨s.epochValue⟩, worker := worker, bootId := bootId, requestId := w.requestId,
    attemptId := w.attemptId, generation := w.generation,
    workerSnapshot := { availableCapacityUnits := units, totalCapacityUnits := units } }

/-- The completion it reports for a result. -/
def resultReport (s : Impl) (worker : WorkerId) (bootId : WorkerBootId) (res : WorkResult) : CompletionReport :=
  { epoch := ⟨s.epochValue⟩, worker := worker, bootId := bootId, requestId := res.requestId,
    attemptId := res.attemptId, generation := res.generation, status := res.status,
    failureClass := res.failureClass, outputTokensProduced := res.outputTokensProduced,
    workUnits := res.workUnits, durationUs := res.durationUs, errorMessage := res.errorMessage }

/-- A driver at work: the scheduler it drives and the state of its executor. -/
structure Session (ε : Type) where
  sched : Impl
  driver : LocalDriver
  env : ε

namespace Session

variable {ε : Type} (x : Executor ε)

/-- Time passes before the next call of the scheduler. -/
def elapse (σ : Session ε) : Session ε :=
  let t := x.elapse σ.env
  { σ with sched := { σ.sched with now := σ.sched.now + t.1 }, env := t.2 }

/-- `plan_next_dispatch(false)`, which reads the clock in each of its critical
sections. -/
def planNext (σ : Session ε) : Session ε × Result DispatchOutcome :=
  let σ := σ.elapse x
  let seed := σ.sched.planNextSeed
  let σ := { σ with sched := seed.1 }
  match seed.2 with
  | none => (σ, .ok { decision := .hold, reasonCode := "no_runnable" })
  | some id =>
    let σ := σ.elapse x
    let res := σ.sched.doPlanDispatch id false
    ({ σ with sched := res.1 }, res.2)

/-- The first loop of `dispatch_one` over the members: Reserved to Running. -/
def confirm (worker : WorkerId) (bootId : WorkerBootId) (σ : Session ε) (w : WorkRequest) : Session ε :=
  let σ := σ.elapse x
  { σ with sched := (σ.sched.doConfirmStart (startReport σ.sched σ.driver.frontUnits worker bootId w)).1 }

/-- The second one, over the results. -/
def conclude (worker : WorkerId) (bootId : WorkerBootId) (σ : Session ε) (res : WorkResult) : Session ε :=
  let σ := σ.elapse x
  let co := σ.sched.doComplete (resultReport σ.sched worker bootId res)
  { σ with
    sched := co.1
    driver := if co.2.acceptance = .accepted then
        { σ.driver with requestsCompleted := σ.driver.requestsCompleted + 1 }
      else σ.driver }

/-- `dispatch_one` from the executor on. -/
def carryOut (σ : Session ε) (worker : WorkerId) (bootId : WorkerBootId) (reqs : List WorkRequest) : Session ε :=
  let ran := x.run σ.env reqs
  let σ := reqs.foldl (confirm x worker bootId) { σ with env := ran.2 }
  let σ := ran.1.foldl (conclude x worker bootId) σ
  { σ with driver := { σ.driver with batchesRun := σ.driver.batchesRun + 1 } }

/-- `dispatch_one`. It counts `bcount` up exactly when it answers true. -/
def dispatchOne (σ : Session ε) : Session ε × Bool :=
  let d := σ.planNext x
  match d.2 with
  | .error _ => (d.1, false)
  | .ok out =>
    if out.decision ≠ .dispatch then (d.1, false)
    else
      match d.1.driver.findWorker out.workerId with
      | none => (d.1, false)
      | some wr =>
        if out.batchMembers.isEmpty then (d.1, false)
        else
          let reqs := d.1.sched.workRequests out.batchMembers
          if reqs.isEmpty then (d.1, false)
          else (d.1.carryOut x out.workerId wr.bootId reqs, true)

/-- `run_until_idle` with `max_batches - b` batches to go. -/
def runUntilIdle : ℕ → Session ε → Session ε
  | 0, σ => σ
  | n + 1, σ =>
    if σ.sched.queuedCount = 0 then σ
    else
      let res := σ.dispatchOne x
      if res.2 then runUntilIdle n res.1 else res.1

end Session

/-! ## Planning -/

/-- Time has passed and requests have expired. -/
structure Elapsed (c c' : Core) : Prop where
  ids : c'.ids = c.ids
  pool : c'.pool = c.pool
  record : ∀ r, c'.requests.find r = c.requests.find r ∨
    ∃ rec, c.Waits r rec ∧ c'.requests.find r = some rec.expire

namespace Elapsed

variable {c c' c'' : Core}

theorem refl (c : Core) : Elapsed c c := ⟨rfl, rfl, fun _ => .inl rfl⟩

theorem trans (h : Elapsed c c') (h' : Elapsed c' c'') : Elapsed c c'' := by
  refine ⟨h'.ids.trans h.ids, h'.pool.trans h.pool, fun r => ?_⟩
  rcases h'.record r with hsame | ⟨rec, hw, hexp⟩
  · rw [hsame]
    exact h.record r
  · -- What waits now was not expired before.
    rcases h.record r with hsame | ⟨old, _, hold⟩
    · exact .inr ⟨rec, ⟨hsame ▸ hw.1, hw.2⟩, hexp⟩
    · obtain rfl := Option.some.inj (hold.symm.trans hw.1)
      exact absurd hw.2 (by simp [RequestRecord.expire])

theorem expire {rec : RequestRecord} (h : Enabled c (.expire rec)) : Elapsed c (c.act (.expire rec)) := by
  refine ⟨rfl, rfl, fun r => ?_⟩
  by_cases hr : rec.requestId = r
  · subst hr
    exact .inr ⟨rec, ⟨h.1, h.2⟩, Keyed.find_put_self _ _⟩
  · exact .inl (Keyed.find_put_ne _ hr)

end Elapsed

theorem Lapsed.elapsed {now : ClockTime} {c c' : Core} (h : Lapsed now c c') : Elapsed c c' := by
  refine ⟨h.ids, h.pool, fun r => ?_⟩
  rcases h.record r with hsame | ⟨rec, hw, _, hf⟩
  · exact .inl hsame
  · exact .inr ⟨rec, hw, hf⟩

namespace Session

variable {ε : Type} (x : Executor ε) (σ : Session ε)

theorem elapsed_elapse : Elapsed σ.sched.core (σ.elapse x).sched.core := ⟨rfl, rfl, fun _ => .inl rfl⟩

/-- A plan only expires requests, or it then reserves a batch. -/
theorem planNext_cases :
    Elapsed σ.sched.core (σ.planNext x).1.sched.core ∧
        (∀ out, (σ.planNext x).2 = .ok out → out.decision ≠ .dispatch) ∨
      ∃ out wr t, (σ.planNext x).2 = .ok out ∧ Elapsed σ.sched.core t.core ∧
        Dispatched t (σ.planNext x).1.sched out.requestId wr out := by
  have hseed : Elapsed σ.sched.core (σ.elapse x).sched.planNextSeed.1.core :=
    (σ.elapsed_elapse x).trans (σ.elapse x).sched.lapsed_planNextSeed.elapsed
  unfold planNext
  simp only
  split
  · refine .inl ⟨hseed, ?_⟩
    rintro _ ⟨⟩
    simp
  · next id hid =>
    have hlater := hseed.trans (elapsed_elapse x { σ.elapse x with sched := (σ.elapse x).sched.planNextSeed.1 })
    generalize elapse x { σ.elapse x with sched := (σ.elapse x).sched.planNextSeed.1 } = τ at hlater
    rcases τ.sched.doPlanDispatch_cases (P := fun c m => ∃ rec, m = .expire rec ∧ Enabled c (.expire rec)) id false
      (fun c rec h => ⟨rec, rfl, h⟩) with ⟨hleads, hno⟩ | ⟨wr, out, hout, hd⟩
    · refine .inl ⟨hlater.trans ?_, hno⟩
      refine hleads.invariant (I := Elapsed τ.sched.core) ?_ (.refl _)
      rintro c _ ⟨rec, rfl, hen⟩ hc
      exact hc.trans (.expire hen)
    · obtain rfl := Impl.doPlanDispatch_requestId hout
      exact .inr ⟨out, wr, τ.sched.expireScan τ.sched.now, hout,
        hlater.trans (τ.sched.lapsed_expireScan τ.sched.now).elapsed, hd⟩

@[simp] theorem elapse_driver : (σ.elapse x).driver = σ.driver := rfl

@[simp] theorem planNext_driver : (σ.planNext x).1.driver = σ.driver := by
  unfold planNext
  simp only
  split <;> rfl

/-- `dispatch_one` ends with the plan, or it carries the batch out. -/
theorem dispatchOne_cases :
    σ.dispatchOne x = ((σ.planNext x).1, false) ∧
        (∀ out, (σ.planNext x).2 = .ok out → out.decision = .dispatch →
          σ.driver.findWorker out.workerId = none ∨ (σ.planNext x).1.sched.workRequests out.batchMembers = []) ∨
      ∃ out reg, (σ.planNext x).2 = .ok out ∧ out.decision = .dispatch ∧
        σ.driver.findWorker out.workerId = some reg ∧
        σ.dispatchOne x = ((σ.planNext x).1.carryOut x out.workerId reg.bootId
          ((σ.planNext x).1.sched.workRequests out.batchMembers), true) := by
  unfold dispatchOne
  simp only [planNext_driver]
  split
  · next he => exact .inl ⟨rfl, by simp [he]⟩
  next out hout =>
  split
  · next hd =>
    refine .inl ⟨rfl, fun out' hout' hd' => ?_⟩
    obtain rfl := Except.ok.inj (hout.symm.trans hout')
    exact absurd hd' hd
  next hd =>
  split
  · next hnone =>
    refine .inl ⟨rfl, fun out' hout' _ => ?_⟩
    obtain rfl := Except.ok.inj (hout.symm.trans hout')
    exact .inl hnone
  next reg hreg =>
  have hempty : (σ.planNext x).1.sched.workRequests out.batchMembers = [] → ∀ out', (σ.planNext x).2 = .ok out' →
      out'.decision = .dispatch → σ.driver.findWorker out'.workerId = none ∨
        (σ.planNext x).1.sched.workRequests out'.batchMembers = [] := by
    intro hnil out' hout' _
    obtain rfl := Except.ok.inj (hout.symm.trans hout')
    exact .inr hnil
  split
  · next hmembers => exact .inl ⟨rfl, hempty (by rw [List.isEmpty_iff.1 hmembers]; rfl)⟩
  split
  · next hreqs => exact .inl ⟨rfl, hempty (List.isEmpty_iff.1 hreqs)⟩
  · exact .inr ⟨out, reg, hout, by simpa using hd, hreg, rfl⟩

end Session

/-! ## The requests of a batch -/

/-- What a report names: a request, its attempt and its generation. -/
structure Ticket where
  request : RequestId
  attempt : AttemptId
  generation : Generation

def WorkRequest.ticket (w : WorkRequest) : Ticket := ⟨w.requestId, w.attemptId, w.generation⟩

def WorkResult.ticket (res : WorkResult) : Ticket := ⟨res.requestId, res.attemptId, res.generation⟩

def RequestRecord.ticket (rec : RequestRecord) : Ticket := ⟨rec.requestId, rec.currentAttempt, rec.generation⟩

theorem Impl.ticket_workRequest (s : Impl) (member : RequestId × ℕ) :
    (s.workRequest member).map (·.ticket) = (s.requests.find member.1).map (·.ticket) := by
  unfold workRequest doRequestSnapshot doRequestSpec
  cases hf : s.requests.find member.1 with
  | none => rfl
  | some rec =>
    have hid : rec.requestId = member.1 := Keyed.key_of_find hf
    simp [WorkRequest.ticket, RequestRecord.ticket, hid]

/-- The executor gets the members under their current attempts. -/
theorem Impl.tickets_workRequests (s : Impl) (members : List RequestId) :
    (s.workRequests members).map (·.ticket) = members.filterMap fun id => (s.requests.find id).map (·.ticket) := by
  rw [workRequests, List.map_filterMap]
  simp only [ticket_workRequest]
  conv_rhs => rw [← List.zipIdx_map_fst 0 members, List.filterMap_map]
  rfl

section dispatched

variable {t s' : Impl} {r : RequestId} {wr : WorkerRecord} {out : DispatchOutcome}

/-- The members are reserved, and the other requests stay as they are. -/
theorem Dispatched.find_request (hd : Dispatched t s' r wr out) (id : RequestId) : s'.requests.find id =
    if id ∈ out.batchMembers then (t.requests.find id).map (·.reserve t.idFactory.peek t.now)
    else t.requests.find id := by
  rw [show s'.requests = s'.core.requests from rfl, hd.core, Core.act_reserve_find hd.enabled.1]
  rfl

/-- The record of a member is the one from before, reserved. -/
theorem Dispatched.find_member (hd : Dispatched t s' r wr out) {id : RequestId} (hid : id ∈ out.batchMembers) :
    ∃ rec, t.requests.find id = some rec ∧ (rec.state = .queued ∨ rec.state = .admitted) ∧
      s'.requests.find id = some (rec.reserve t.idFactory.peek t.now) := by
  obtain ⟨rec, hf, hstate⟩ := hd.enabled.2.2.2.2 id hid
  refine ⟨rec, hf, hstate, ?_⟩
  rw [hd.find_request, if_pos hid, show t.requests.find id = some rec from hf]
  rfl

theorem Dispatched.pool_reserve (hd : Dispatched t s' r wr out) :
    s'.pool = t.pool.reserve wr.id t.idFactory.peek (t.core.batchUnits out.batchMembers) out.batchMembers := by
  have hframe := (t.core.act_reserve_frame wr out.batchMembers).2.2.2
  rw [← hd.core] at hframe
  exact hframe

theorem Dispatched.find_worker (hd : Dispatched t s' r wr out) : s'.pool.workers.find wr.id =
    some (wr.takeBatch t.idFactory.peek (t.core.batchUnits out.batchMembers) out.batchMembers) := by
  have hknown : t.pool.workers.find wr.id = some wr := hd.enabled.2.2.1
  rw [hd.pool_reserve, Pool.find_reserve hknown, if_pos rfl]

/-- Every request handed out is a member. -/
theorem Dispatched.of_mem_workRequests (hd : Dispatched t s' r wr out) {q : WorkRequest}
    (hq : q ∈ s'.workRequests out.batchMembers) : ∃ rec, s'.requests.find q.requestId = some rec ∧
      rec.ticket = q.ticket ∧ rec.state = .reserved ∧ rec.batchId = t.idFactory.peek := by
  have hticket : q.ticket ∈ (s'.workRequests out.batchMembers).map (·.ticket) := List.mem_map_of_mem hq
  rw [s'.tickets_workRequests, List.mem_filterMap] at hticket
  obtain ⟨id, hid, hmap⟩ := hticket
  obtain ⟨rec, hf, heq⟩ := Option.map_eq_some_iff.1 hmap
  obtain ⟨old, _, _, hnew⟩ := hd.find_member hid
  obtain rfl := Option.some.inj (hnew.symm.trans hf)
  have hrequest : id = q.requestId := (Keyed.key_of_find hf).symm.trans (congrArg Ticket.request heq)
  exact ⟨_, hrequest ▸ hf, heq, rfl, rfl⟩

theorem Dispatched.workRequests_ne_nil (hd : Dispatched t s' r wr out) : s'.workRequests out.batchMembers ≠ [] := by
  intro hnil
  obtain ⟨old, _, _, hf⟩ := hd.find_member hd.seed
  have hticket : (old.reserve t.idFactory.peek t.now).ticket ∈ (s'.workRequests out.batchMembers).map (·.ticket) := by
    rw [s'.tickets_workRequests, List.mem_filterMap]
    exact ⟨r, hd.seed, by rw [hf]; rfl⟩
  rw [hnil] at hticket
  cases hticket

end dispatched

/-! ## What the driver keeps -/

namespace Session

variable {ε : Type} (x : Executor ε)

theorem confirmAll_driver (w : WorkerId) (bootId : WorkerBootId) : ∀ (qs : List WorkRequest) (σ : Session ε),
    (qs.foldl (confirm x w bootId) σ).driver = σ.driver
  | [], _ => rfl
  | q :: qs, σ => confirmAll_driver w bootId qs (σ.confirm x w bootId q)

theorem concludeAll_driver (w : WorkerId) (bootId : WorkerBootId) : ∀ (rs : List WorkResult) (σ : Session ε),
    (rs.foldl (conclude x w bootId) σ).driver.workers = σ.driver.workers ∧
      (rs.foldl (conclude x w bootId) σ).driver.availUnits = σ.driver.availUnits
  | [], _ => ⟨rfl, rfl⟩
  | res :: rs, σ => by
    obtain ⟨hworkers, hunits⟩ := concludeAll_driver w bootId rs (σ.conclude x w bootId res)
    have hone : (σ.conclude x w bootId res).driver.workers = σ.driver.workers ∧
        (σ.conclude x w bootId res).driver.availUnits = σ.driver.availUnits := by
      simp only [conclude]
      split <;> exact ⟨rfl, rfl⟩
    exact ⟨hworkers.trans hone.1, hunits.trans hone.2⟩

/-- The driver's list of workers and their capacity stay as they are. -/
theorem dispatchOne_driver (σ : Session ε) : (σ.dispatchOne x).1.driver.workers = σ.driver.workers ∧
    (σ.dispatchOne x).1.driver.availUnits = σ.driver.availUnits := by
  rcases σ.dispatchOne_cases x with ⟨h, _⟩ | ⟨out, reg, _, _, _, h⟩ <;> rw [h]
  · rw [planNext_driver]
    exact ⟨rfl, rfl⟩
  · rw [← σ.planNext_driver x, ← confirmAll_driver x out.workerId reg.bootId
      ((σ.planNext x).1.sched.workRequests out.batchMembers) { (σ.planNext x).1 with env := (x.run _ _).2 }]
    exact concludeAll_driver x out.workerId reg.bootId _ _

end Session

end InferenceScheduler
