/-
The coordinator process (`src/coordinator_app.cpp`): the acceptor, one thread
per registered worker and one per client, around one scheduler. Every section
under a mutex is one step, so a run is an interleaving of the threads: a
handler of a dispatch goes on in `handlers`, a worker's thread in its slot, and
each keeps where it is in its code.

A worker is the other end of its slot's connection. What it sends arrives as
`arrive`, with the run message it answers if it answers one; what a worker may
send is up to the statements about runs.
-/
import InferenceScheduler.Frozen

namespace InferenceScheduler

/-! ## Messages -/

/-- A member of a `run` message. -/
structure RunMember where
  req : RequestId
  attempt : AttemptId
  gen : Generation
  phase : RequestPhase
  model : ModelIdentity
  rev : ModelRevision
  adapter : AdapterIdentity := ⟨0⟩
  tin : ℤ := 0
  tout : ℤ := 0
  cost : ℚ := 1
  payload : String := ""
  deriving DecidableEq

/-- The `run` message of a batch. -/
structure RunMessage where
  batchId : BatchId
  members : List RunMember
  deriving DecidableEq

/-- An entry of the results of a `completed` message. -/
structure RunResult where
  req : RequestId
  attempt : AttemptId
  gen : Generation
  status : CompletionStatus
  failure : FailureClass
  out : ℤ
  work : ℤ
  dur : ℤ
  msg : String
  deriving DecidableEq

/-- A `completed` message. -/
structure Completed where
  batchId : BatchId
  units : ℤ
  results : List RunResult
  deriving DecidableEq

/-- What a worker's thread reads off its connection. -/
inductive WorkerMessage
  | completed (msg : Completed)
  | shutdown
  /-- The connection is closed, or what arrived is not a message. -/
  | null
  | other
  deriving DecidableEq

/-- A `register` message. -/
structure Register where
  worker : WorkerId
  boot : WorkerBootId
  node : NodeId := ⟨0⟩
  accel : AcceleratorId := ⟨0⟩
  units : ℤ := 1
  backend : String := "cpu"
  device : String := "cpu"
  models : List ModelIdentity := []

/-- A client's `complete` message. -/
structure CompleteRequest where
  epoch : SchedulerEpoch
  worker : WorkerId
  boot : WorkerBootId
  request : RequestId
  attempt : AttemptId
  generation : Generation
  status : CompletionStatus
  units : ℤ := 0

/-- The `dispatch_done` object a worker's thread leaves in its slot. -/
structure DispatchDone where
  batchId : BatchId
  results : List (RequestId × CompletionAcceptance × String)
  deriving DecidableEq

/-! ## Threads -/

/-- Where a worker's thread is. The epoch of a report is read before the
report is made. -/
inductive WorkerThread
  | receive
  | confirm (msg : Completed) (rest : List RunResult) (epoch : Option SchedulerEpoch)
  | complete (msg : Completed) (rest : List RunResult) (epoch : Option SchedulerEpoch) (done : DispatchDone)
  | stopped

/-- Where the handler of a dispatch is. -/
inductive Handler
  /-- The plan is made; the slot is looked up next. -/
  | planned (out : DispatchOutcome)
  /-- The slot is found; its result is reset next. -/
  | found (out : DispatchOutcome) (slot : ℕ)
  /-- The members are read, the snapshot of one before its spec. -/
  | reading (out : DispatchOutcome) (slot : ℕ) (members : List RunMember) (half : Option RunMember)
      (rest : List RequestId)
  /-- The run message is sent; the handler waits for the slot's result. -/
  | waiting (out : DispatchOutcome) (slot : ℕ)
  | finished

/-- `WorkerSlot`, with its connection and its thread. -/
structure WorkerSlot where
  worker : WorkerId
  boot : WorkerBootId
  units : ℤ
  hasResult : Bool := false
  result : Option DispatchDone := none
  /-- The run messages sent that the worker has not answered. -/
  unanswered : List RunMessage := []
  /-- What has arrived and was not read yet. -/
  inbox : List WorkerMessage := []
  thread : WorkerThread := .receive

structure Coordinator where
  sched : Impl
  workers : List WorkerSlot := []
  byWorker : Table WorkerId ℕ := ∅
  handlers : List Handler := []
  /-- A slot whose worker the acceptor has registered, before it is entered. -/
  joining : Option WorkerSlot := none

/-! ## Reports -/

namespace Register

def registration (m : Register) : WorkerRegistration :=
  { worker := m.worker, node := m.node, accelerator := m.accel, bootId := m.boot, state := .online,
    capability :=
      { backend := m.backend, deviceName := m.device, totalCapacityUnits := m.units,
        availableCapacityUnits := m.units, models := m.models } }

def slot (m : Register) : WorkerSlot := { worker := m.worker, boot := m.boot, units := m.units }

end Register

/-- The report a client asks for. It names no failure class. -/
def CompleteRequest.report (m : CompleteRequest) : CompletionReport :=
  { epoch := m.epoch, worker := m.worker, bootId := m.boot, requestId := m.request, attemptId := m.attempt,
    generation := m.generation, status := m.status,
    workerSnapshot := { availableCapacityUnits := m.units, totalCapacityUnits := m.units } }

namespace WorkerSlot

/-- The report a start is confirmed with. -/
def startReport (slot : WorkerSlot) (msg : Completed) (r : RunResult) (epoch : SchedulerEpoch) : CompletionReport :=
  { epoch := epoch, worker := slot.worker, bootId := slot.boot, requestId := r.req, attemptId := r.attempt,
    generation := r.gen,
    workerSnapshot := { availableCapacityUnits := msg.units, totalCapacityUnits := msg.units } }

/-- The report a result is completed with. -/
def completionReport (slot : WorkerSlot) (msg : Completed) (r : RunResult) (epoch : SchedulerEpoch) :
    CompletionReport :=
  { slot.startReport msg r epoch with
    status := r.status
    failureClass := r.failure
    outputTokensProduced := r.out
    workUnits := r.work
    durationUs := r.dur
    errorMessage := r.msg }

/-- A message of the worker, in answer to one of the run messages or to none. -/
def arrive (slot : WorkerSlot) (answers : Option ℕ) (msg : WorkerMessage) : WorkerSlot :=
  { slot with
    inbox := slot.inbox ++ [msg]
    unanswered := match answers with
      | some k => slot.unanswered.eraseIdx k
      | none => slot.unanswered }

end WorkerSlot

/-- The part of a member the snapshot has. -/
def Impl.readSnapshot (s : Impl) (mid : RequestId) : RunMember :=
  match s.doRequestSnapshot mid with
  | .ok snap =>
    { req := mid, attempt := snap.attemptId, gen := snap.generation, phase := snap.phase, model := snap.model,
      rev := snap.revision }
  | .error _ => { req := mid, attempt := ⟨0⟩, gen := ⟨0⟩, phase := .prefill, model := ⟨0⟩, rev := ⟨0⟩ }

/-- The part the spec has. -/
def Impl.readSpec (s : Impl) (m : RunMember) : RunMember :=
  match s.doRequestSpec m.req with
  | .ok spec =>
    { m with tin := spec.tokens.input, tout := spec.tokens.output, cost := spec.demand.costUnits,
             payload := spec.payload }
  | .error _ => m

/-! ## Steps -/

/-- What other threads or processes see of a step. -/
inductive Effect
  | quiet
  /-- `plan_dispatch` has answered a batch. -/
  | planned (out : DispatchOutcome)
  /-- A run message is sent to the worker of a slot. -/
  | run (slot : ℕ) (msg : RunMessage)
  /-- `complete_attempt` has answered. -/
  | completion (report : CompletionReport) (out : CompletionOutcome)
  /-- A handler answers its dispatch with the object it found in its slot. -/
  | answer (out : DispatchOutcome) (done : Option DispatchDone)

/-- What happens next. -/
inductive CoordOp
  /-- The acceptor reads a `register` message. -/
  | register (msg : Register)
  /-- The acceptor enters the slot and starts its thread. -/
  | enter
  | submit (spec : RequestSpec)
  | cancel (rid : RequestId)
  | complete (msg : CompleteRequest)
  | rollEpoch
  | dispatch (rid : RequestId) (explain : Bool)
  /-- The handler of a dispatch goes on. -/
  | handler (i : ℕ)
  /-- The thread of a slot goes on. -/
  | thread (j : ℕ)
  /-- A message arrives from the worker of a slot, in answer to the run message
  at a place among the unanswered ones. -/
  | arrive (j : ℕ) (answers : Option ℕ) (msg : WorkerMessage)
  /-- Time passes. -/
  | advance (nanoseconds : ℕ)

namespace Coordinator

/-- A critical section of the scheduler. -/
def call (c : Coordinator) (op : Op) : Coordinator := { c with sched := scheduler.next c.sched op }

def setHandler (c : Coordinator) (i : ℕ) (h : Handler) : Coordinator := { c with handlers := c.handlers.set i h }

def onSlot (c : Coordinator) (j : ℕ) (f : WorkerSlot → WorkerSlot) : Coordinator :=
  { c with workers := c.workers.modify j f }

/-- One step of `handle_one` in a dispatch, after the plan. -/
def handlerStep (c : Coordinator) (i : ℕ) : Handler → Coordinator × Effect
  | .planned out =>
    match c.byWorker.lookup out.workerId with
    | none => (c.setHandler i .finished, .quiet)
    | some j => (c.setHandler i (.found out j), .quiet)
  | .found out j =>
    ((c.onSlot j fun slot => { slot with hasResult := false }).setHandler i
      (.reading out j [] none out.batchMembers), .quiet)
  | .reading out j members none (mid :: rest) =>
    (c.setHandler i (.reading out j members (some (c.sched.readSnapshot mid)) (mid :: rest)), .quiet)
  | .reading out j members (some half) (_ :: rest) =>
    (c.setHandler i (.reading out j (members ++ [c.sched.readSpec half]) none rest), .quiet)
  | .reading out j members _ [] =>
    let msg : RunMessage := ⟨out.batchId, members⟩
    ((c.onSlot j fun slot => { slot with unanswered := slot.unanswered ++ [msg] }).setHandler i (.waiting out j),
      .run j msg)
  | .waiting out j =>
    match c.workers[j]? with
    | some slot => if slot.hasResult then (c.setHandler i .finished, .answer out slot.result) else (c, .quiet)
    | none => (c, .quiet)
  | .finished => (c, .quiet)

/-- The thread of a slot goes to another place. -/
def goto (c : Coordinator) (j : ℕ) (t : WorkerThread) : Coordinator :=
  c.onSlot j fun slot => { slot with thread := t }

/-- The thread of a slot has read a message. -/
def read (c : Coordinator) (j : ℕ) (inbox : List WorkerMessage) (t : WorkerThread) : Coordinator :=
  c.onSlot j fun slot => { slot with inbox := inbox, thread := t }

/-- One step of `worker_thread`. -/
def threadStep (c : Coordinator) (j : ℕ) (slot : WorkerSlot) : Coordinator × Effect :=
  match slot.thread with
  | .receive =>
    match slot.inbox with
    | [] => (c, .quiet)
    | .completed m :: inbox => (c.read j inbox (.confirm m m.results none), .quiet)
    | .shutdown :: inbox | .null :: inbox => (c.read j inbox .stopped, .quiet)
    | .other :: inbox => (c.read j inbox .receive, .quiet)
  | .confirm m [] _ => (c.goto j (.complete m m.results none ⟨m.batchId, []⟩), .quiet)
  | .confirm m (r :: rest) none => (c.goto j (.confirm m (r :: rest) (some ⟨c.sched.epochValue⟩)), .quiet)
  | .confirm m (r :: rest) (some e) =>
    ((c.call (.confirmStart (slot.startReport m r e))).goto j (.confirm m rest none), .quiet)
  | .complete m (r :: rest) none done =>
    (c.goto j (.complete m (r :: rest) (some ⟨c.sched.epochValue⟩) done), .quiet)
  | .complete m (r :: rest) (some e) done =>
    let report := slot.completionReport m r e
    let out := (c.sched.doComplete report).2
    ((c.call (.complete report)).goto j
      (.complete m rest none ⟨done.batchId, done.results ++ [(r.req, out.acceptance, out.reasonCode)]⟩),
      .completion report out)
  | .complete _ [] _ done =>
    (c.onSlot j fun slot => { slot with result := some done, hasResult := true, thread := .receive }, .quiet)
  | .stopped => (c, .quiet)

def step (c : Coordinator) : CoordOp → Coordinator × Effect
  | .register m =>
    match c.joining with
    | some _ => (c, .quiet)
    | none => ({ c.call (.registerWorker m.registration) with joining := some m.slot }, .quiet)
  | .enter =>
    match c.joining with
    | none => (c, .quiet)
    | some slot =>
      ({ c with
          workers := c.workers ++ [slot]
          byWorker := c.byWorker.insert slot.worker c.workers.length
          joining := none }, .quiet)
  | .submit spec => (c.call (.submit spec none), .quiet)
  | .cancel rid => (c.call (.cancel rid .clientRequested "client"), .quiet)
  | .complete m => (c.call (.complete m.report), .completion m.report (c.sched.doComplete m.report).2)
  | .rollEpoch => (c.call .rollEpoch, .quiet)
  | .dispatch rid explain =>
    let c' := c.call (.planDispatch rid explain)
    match (c.sched.doPlanDispatch rid explain).2 with
    | .error _ => (c', .quiet)
    | .ok out =>
      if out.decision = .dispatch then ({ c' with handlers := c'.handlers ++ [.planned out] }, .planned out)
      else (c', .quiet)
  | .handler i =>
    match c.handlers[i]? with
    | some h => c.handlerStep i h
    | none => (c, .quiet)
  | .thread j =>
    match c.workers[j]? with
    | some slot => c.threadStep j slot
    | none => (c, .quiet)
  | .arrive j answers msg => (c.onSlot j (·.arrive answers msg), .quiet)
  | .advance n => (c.call (.advance n), .quiet)

/-- The coordinator as it starts. -/
def start (now : ClockTime) (salt : UInt64) : Coordinator := { sched := Impl.init {} now salt none }

end Coordinator

def coordinator : Machine Coordinator CoordOp Effect := ⟨Coordinator.step⟩

abbrev CoordEvent := Event Coordinator CoordOp Effect

/-! ## What a step can do -/

open Coordinator in
/-- The steps of the coordinator, each with the place its thread is at. -/
inductive Happens (c : Coordinator) : CoordOp → Coordinator → Effect → Prop
  /-- The thread waits, or there is none. -/
  | idle {op} : Happens c op c .quiet
  | register {m} : c.joining = none →
      Happens c (.register m) { c.call (.registerWorker m.registration) with joining := some m.slot } .quiet
  | enter {slot} : c.joining = some slot →
      Happens c .enter
        { c with
          workers := c.workers ++ [slot]
          byWorker := c.byWorker.insert slot.worker c.workers.length
          joining := none } .quiet
  | submit {spec} : Happens c (.submit spec) (c.call (.submit spec none)) .quiet
  | cancel {rid} : Happens c (.cancel rid) (c.call (.cancel rid .clientRequested "client")) .quiet
  | complete {m} : Happens c (.complete m) (c.call (.complete m.report))
      (.completion m.report (c.sched.doComplete m.report).2)
  | rollEpoch : Happens c .rollEpoch (c.call .rollEpoch) .quiet
  | advance {n} : Happens c (.advance n) (c.call (.advance n)) .quiet
  | turnDown {rid ex} : (∀ out, (c.sched.doPlanDispatch rid ex).2 = .ok out → out.decision ≠ .dispatch) →
      Happens c (.dispatch rid ex) (c.call (.planDispatch rid ex)) .quiet
  | plan {rid ex out} : (c.sched.doPlanDispatch rid ex).2 = .ok out → out.decision = .dispatch →
      Happens c (.dispatch rid ex)
        { c.call (.planDispatch rid ex) with handlers := c.handlers ++ [.planned out] } (.planned out)
  | workerGone {i out} : c.handlers[i]? = some (.planned out) → c.byWorker.lookup out.workerId = none →
      Happens c (.handler i) (c.setHandler i .finished) .quiet
  | find {i out j} : c.handlers[i]? = some (.planned out) → c.byWorker.lookup out.workerId = some j →
      Happens c (.handler i) (c.setHandler i (.found out j)) .quiet
  | reset {i out j} : c.handlers[i]? = some (.found out j) →
      Happens c (.handler i) ((c.onSlot j fun slot => { slot with hasResult := false }).setHandler i
        (.reading out j [] none out.batchMembers)) .quiet
  | snapshot {i out j members mid rest} : c.handlers[i]? = some (.reading out j members none (mid :: rest)) →
      Happens c (.handler i) (c.setHandler i
        (.reading out j members (some (c.sched.readSnapshot mid)) (mid :: rest))) .quiet
  | spec {i out j members half mid rest} :
      c.handlers[i]? = some (.reading out j members (some half) (mid :: rest)) →
      Happens c (.handler i) (c.setHandler i
        (.reading out j (members ++ [c.sched.readSpec half]) none rest)) .quiet
  | send {i out j members half} : c.handlers[i]? = some (.reading out j members half []) →
      Happens c (.handler i) ((c.onSlot j fun slot =>
        { slot with unanswered := slot.unanswered ++ [⟨out.batchId, members⟩] }).setHandler i (.waiting out j))
        (.run j ⟨out.batchId, members⟩)
  | answer {i out j slot} : c.handlers[i]? = some (.waiting out j) → c.workers[j]? = some slot →
      slot.hasResult = true → Happens c (.handler i) (c.setHandler i .finished) (.answer out slot.result)
  | receive {j slot m inbox} : c.workers[j]? = some slot → slot.thread = .receive →
      slot.inbox = .completed m :: inbox → Happens c (.thread j) (c.read j inbox (.confirm m m.results none)) .quiet
  /-- Another message is skipped, or the thread ends on it. -/
  | skip {j slot msg inbox t} : c.workers[j]? = some slot → slot.thread = .receive → slot.inbox = msg :: inbox →
      (∀ m, msg ≠ .completed m) → (t = .receive ∨ t = .stopped) → Happens c (.thread j) (c.read j inbox t) .quiet
  | turn {j slot m e} : c.workers[j]? = some slot → slot.thread = .confirm m [] e →
      Happens c (.thread j) (c.goto j (.complete m m.results none ⟨m.batchId, []⟩)) .quiet
  | stampStart {j slot m r rest} : c.workers[j]? = some slot → slot.thread = .confirm m (r :: rest) none →
      Happens c (.thread j) (c.goto j (.confirm m (r :: rest) (some ⟨c.sched.epochValue⟩))) .quiet
  | confirm {j slot m r rest e} : c.workers[j]? = some slot → slot.thread = .confirm m (r :: rest) (some e) →
      Happens c (.thread j)
        ((c.call (.confirmStart (slot.startReport m r e))).goto j (.confirm m rest none)) .quiet
  | stampResult {j slot m r rest done} : c.workers[j]? = some slot →
      slot.thread = .complete m (r :: rest) none done →
      Happens c (.thread j) (c.goto j (.complete m (r :: rest) (some ⟨c.sched.epochValue⟩) done)) .quiet
  | report {j slot m r rest e done acks} : c.workers[j]? = some slot →
      slot.thread = .complete m (r :: rest) (some e) done →
      Happens c (.thread j)
        ((c.call (.complete (slot.completionReport m r e))).goto j (.complete m rest none ⟨done.batchId, acks⟩))
        (.completion (slot.completionReport m r e) (c.sched.doComplete (slot.completionReport m r e)).2)
  | publish {j slot m e done} : c.workers[j]? = some slot → slot.thread = .complete m [] e done →
      Happens c (.thread j) (c.onSlot j fun slot =>
        { slot with result := some done, hasResult := true, thread := .receive }) .quiet
  | arrive {j answers msg} : Happens c (.arrive j answers msg) (c.onSlot j (·.arrive answers msg)) .quiet

namespace Coordinator

theorem handlerStep_happens {c : Coordinator} {i : ℕ} {h : Handler} (hi : c.handlers[i]? = some h) :
    Happens c (.handler i) (c.handlerStep i h).1 (c.handlerStep i h).2 := by
  unfold handlerStep
  split
  · split
    · next hw => exact .workerGone hi hw
    · next hw => exact .find hi hw
  · exact .reset hi
  · exact .snapshot hi
  · exact .spec hi
  · exact .send hi
  · split
    · next slot hj =>
      split
      · next hr => exact .answer hi hj hr
      · exact .idle
    · exact .idle
  · exact .idle

theorem threadStep_happens {c : Coordinator} {j : ℕ} {slot : WorkerSlot} (hj : c.workers[j]? = some slot) :
    Happens c (.thread j) (c.threadStep j slot).1 (c.threadStep j slot).2 := by
  unfold threadStep
  split
  · next ht =>
    split
    · exact .idle
    · next hin => exact .receive hj ht hin
    · next hin => exact .skip hj ht hin (by simp) (.inr rfl)
    · next hin => exact .skip hj ht hin (by simp) (.inr rfl)
    · next hin => exact .skip hj ht hin (by simp) (.inl rfl)
  · next ht => exact .turn hj ht
  · next ht => exact .stampStart hj ht
  · next ht => exact .confirm hj ht
  · next ht => exact .stampResult hj ht
  · next ht => exact .report hj ht
  · next ht => exact .publish hj ht
  · exact .idle

/-- **A step is one of the listed ones.** -/
theorem step_happens (c : Coordinator) (op : CoordOp) : Happens c op (c.step op).1 (c.step op).2 := by
  cases op with
  | register m =>
    simp only [step]
    split
    · exact .idle
    · next hj => exact .register hj
  | enter =>
    simp only [step]
    split
    · exact .idle
    · next hj => exact .enter hj
  | submit spec => exact .submit
  | cancel rid => exact .cancel
  | complete m => exact .complete
  | rollEpoch => exact .rollEpoch
  | advance n => exact .advance
  | dispatch rid ex =>
    simp only [step]
    split
    · next he => exact .turnDown (by simp [he])
    · next out hout =>
      split
      · next hd => exact .plan hout hd
      · next hd => exact .turnDown (by simpa [hout] using hd)
  | handler i =>
    simp only [step]
    split
    · next h hi => exact handlerStep_happens hi
    · exact .idle
  | thread j =>
    simp only [step]
    split
    · next slot hj => exact threadStep_happens hj
    · exact .idle
  | arrive j answers msg => exact .arrive

theorem getElem?_onSlot (c : Coordinator) (j k : ℕ) (f : WorkerSlot → WorkerSlot) :
    (c.onSlot j f).workers[k]? = if j = k then c.workers[k]?.map f else c.workers[k]? := by
  rw [onSlot, List.getElem?_modify]
  split <;> simp

theorem mem_onSlot {c : Coordinator} {j : ℕ} {f : WorkerSlot → WorkerSlot} {slot : WorkerSlot}
    (h : slot ∈ (c.onSlot j f).workers) : slot ∈ c.workers ∨ ∃ old, c.workers[j]? = some old ∧ slot = f old := by
  obtain ⟨k, hk⟩ := List.mem_iff_getElem?.1 h
  rw [getElem?_onSlot] at hk
  split at hk
  · next hjk =>
    subst hjk
    obtain ⟨old, hold, rfl⟩ := Option.map_eq_some_iff.1 hk
    exact .inr ⟨old, hold, rfl⟩
  · exact .inl (List.mem_of_getElem? hk)

theorem length_onSlot (c : Coordinator) (j : ℕ) (f : WorkerSlot → WorkerSlot) :
    (c.onSlot j f).workers.length = c.workers.length := List.length_modify ..

/-- The handlers after one of them went on. -/
theorem getElem?_setHandler {c : Coordinator} {i : ℕ} {old : Handler} (hi : c.handlers[i]? = some old) (h : Handler)
    (k : ℕ) : (c.setHandler i h).handlers[k]? = if i = k then some h else c.handlers[k]? := by
  have hlt : i < c.handlers.length := (List.getElem?_eq_some_iff.1 hi).1
  simp only [setHandler, List.getElem?_set, hlt, ↓reduceIte]

end Coordinator

/-! ## Values for concrete runs -/

/-- A worker under its first boot, with eight units. -/
def plainRegister (w : UInt64) : Register := { worker := ⟨w⟩, boot := ⟨1⟩, units := 8 }

/-- A successful result. -/
def successOf (req attempt gen : UInt64) : RunResult :=
  { req := ⟨req⟩, attempt := ⟨attempt⟩, gen := ⟨gen⟩, status := .succeeded, failure := .internal, out := 0, work := 1,
    dur := 3, msg := "" }

end InferenceScheduler
