/-
The capacity the local driver reports. It keeps the figures of its workers by
position and reports that of the first one, whichever worker a batch went to.
So a dispatch leaves the scheduler with the right figure only where the two
agree.
-/
import InferenceScheduler.LocalDriver

namespace InferenceScheduler

open Machine

/-! ## The capacity the scheduler knows of -/

/-- The scheduler's `available_capacity_units` for a worker. -/
def Pool.availableUnits (p : Pool) (w : WorkerId) : Option ℤ :=
  (p.workers.find w).map (·.resource.availableCapacityUnits)

theorem WorkerRecord.leave_resource (wr : WorkerRecord) (rec : RequestRecord) :
    (wr.leave rec).resource = wr.resource := by
  obtain ⟨_, _, h | h⟩ := wr.leave_cases rec
  · rw [h]
  · rw [h]
    rfl

namespace Pool

variable (p : Pool) (w : WorkerId)

theorem availableUnits_releaseMember (w' : WorkerId) (rec : RequestRecord) :
    (p.releaseMember w' rec).availableUnits w = p.availableUnits w := by
  rw [availableUnits, find_releaseMember]
  split
  · simp only [Option.map_map, Function.comp_def, WorkerRecord.leave_resource]
    rfl
  · rfl

theorem availableUnits_reserve {wr : WorkerRecord} (h : p.workers.find wr.id = some wr) (b : BatchId) (units : ℤ)
    (members : List RequestId) : (p.reserve wr.id b units members).availableUnits w = p.availableUnits w := by
  rw [availableUnits, find_reserve h]
  split
  · next hw =>
    rw [availableUnits, ← hw, h]
    rfl
  · rfl

/-- A start leaves the figure reported, unless it is negative. -/
theorem availableUnits_start {wr : WorkerRecord} (h : p.workers.find wr.id = some wr) (b : BatchId) (rid : RequestId)
    (att : AttemptId) (snap : ResourceSnapshot) : (p.start wr b rid att snap).availableUnits w =
      if wr.id = w ∧ 0 ≤ snap.availableCapacityUnits then some snap.availableCapacityUnits else p.availableUnits w := by
  rw [availableUnits, find_start]
  by_cases hw : wr.id = w
  · rw [if_pos hw, availableUnits, ← hw, h]
    by_cases hs : 0 ≤ snap.availableCapacityUnits
    · rw [if_pos ⟨rfl, hs⟩]
      simp [WorkerRecord.startMember, hs]
    · rw [if_neg fun h => hs h.2]
      simp [WorkerRecord.startMember, hs]
  · rw [if_neg hw, if_neg fun h => hw h.1]
    rfl

end Pool

namespace Impl

variable (s : Impl) (r : CompletionReport) (w : WorkerId)

/-- A completion leaves every figure. -/
theorem availableUnits_doComplete : (s.doComplete r).1.pool.availableUnits w = s.pool.availableUnits w := by
  rcases s.doComplete_cases r with ⟨hkept | hkept, _⟩ | ⟨rec, hrec, hm, ht, hn, _, he⟩
  · rw [hkept]
  · rw [hkept]
    rfl
  · obtain ⟨m, ⟨_, hdoes⟩, hcore, _⟩ := conclude_move hrec hm ht hn
    rw [he, show (s.conclude rec r).1.pool = (s.core.act m).pool from congrArg Core.pool hcore]
    cases hdoes with
    | finish | retry => exact s.pool.availableUnits_releaseMember w _ _
    | @finishCancelled _ old =>
      by_cases hon : old.onWorker
      · simp only [Core.act, Core.put, hon, if_true]
        exact s.pool.availableUnits_releaseMember w _ _
      · simp only [Core.act, Core.put, hon]
        rfl
    | recoverRetry hl | recoverFail hl | sweep hl => cases hl

/-- A start that is taken leaves the figure reported, unless it is negative. -/
theorem availableUnits_doConfirmStart :
    (s.doConfirmStart r).1 = s ∧ (s.doConfirmStart r).2 ≠ .ok () ∨
      (s.doConfirmStart r).1.pool.availableUnits w =
        if r.worker = w ∧ 0 ≤ r.workerSnapshot.availableCapacityUnits then some r.workerSnapshot.availableCapacityUnits
        else s.pool.availableUnits w := by
  rcases s.doConfirmStart_cases r with hkept | ⟨rec, wr, _, hid, hen, henters, _⟩
  · exact .inl hkept
  · right
    rw [show (s.doConfirmStart r).1.pool = (s.core.act (.start rec wr r.workerSnapshot)).pool from
      congrArg Core.pool henters.core, ← hid]
    exact s.pool.availableUnits_start w hen.2.2.1 ..

end Impl

/-! ## A batch that is carried out -/

/-- A start is taken for a reserved request in a batch, on a worker that is up. -/
theorem Impl.doConfirmStart_taken {s : Impl} {r : CompletionReport} {rec : RequestRecord} {wr : WorkerRecord}
    (hepoch : r.epoch.value = s.epochValue) (hf : s.requests.find r.requestId = some rec)
    (hattempt : rec.currentAttempt = r.attemptId) (hgen : rec.generation = r.generation)
    (hstate : rec.state = .reserved) (hbatch : rec.batchId.valid = true) (hw : s.pool.workers.find r.worker = some wr)
    (hboot : wr.registration.bootId = r.bootId) (hup : wr.state = .online ∨ wr.state = .busy) :
    (s.doConfirmStart r).2 = .ok () := by
  have hready : ¬(wr.state = .offline ∨ wr.state = .unhealthy ∨ wr.state = .drained) := by
    rcases hup with h | h <;> simp [h]
  unfold doConfirmStart
  simp [hepoch, hf, hattempt, hgen, hstate, hw, hboot, hready, hbatch]

/-- Whether the starts of the next batch will be taken when it goes to a worker
under this boot: the boot is the worker's and the batch gets a valid id. -/
def Impl.takesStarts (s : Impl) (w : WorkerId) (bootId : WorkerBootId) : Bool :=
  (s.idFactory.peek : BatchId).valid && (s.pool.workers.find w).any (·.registration.bootId == bootId)

namespace Session

variable {ε : Type} (x : Executor ε) (w : WorkerId) (bootId : WorkerBootId)

/-- The figure of a worker, once the driver has reported it for `w`. -/
def adopted (σ : Session ε) (w w' : WorkerId) : Option ℤ :=
  if w = w' ∧ 0 ≤ σ.driver.frontUnits then some σ.driver.frontUnits else σ.sched.pool.availableUnits w'

theorem availableUnits_confirm (σ : Session ε) (q : WorkRequest) (w' : WorkerId) :
    (σ.confirm x w bootId q).sched.pool.availableUnits w' = σ.sched.pool.availableUnits w' ∨
      (σ.confirm x w bootId q).sched.pool.availableUnits w' = σ.adopted w w' := by
  rcases (σ.elapse x).sched.availableUnits_doConfirmStart
    (startReport (σ.elapse x).sched σ.driver.frontUnits w bootId q) w' with ⟨hkept, _⟩ | htaken
  · have hsame := congrArg (fun s : Impl => s.pool.availableUnits w') hkept
    exact .inl hsame
  · exact .inr htaken

/-- Once a figure is adopted it stays. -/
theorem availableUnits_confirmAll (w' : WorkerId) (fig : Option ℤ) : ∀ (qs : List WorkRequest) (σ : Session ε),
    σ.sched.pool.availableUnits w' = fig → σ.adopted w w' = fig →
      (qs.foldl (confirm x w bootId) σ).sched.pool.availableUnits w' = fig
  | [], _, hfig, _ => hfig
  | q :: qs, σ, hfig, hadopt => by
    have hstep : (σ.confirm x w bootId q).sched.pool.availableUnits w' = fig := by
      rcases availableUnits_confirm x w bootId σ q w' with h | h
      · rw [h, hfig]
      · rw [h, hadopt]
    refine availableUnits_confirmAll w' fig qs _ hstep ?_
    unfold adopted at hadopt ⊢
    rw [show (σ.confirm x w bootId q).driver = σ.driver from rfl]
    split at hadopt
    · next h => rw [if_pos h, hadopt]
    · next h => rw [if_neg h, hstep]

/-- Starts that are not taken leave the workers as they are. -/
theorem confirmAll_refused : ∀ (qs : List WorkRequest) (σ : Session ε),
    (∀ q ∈ qs, ∀ s : Impl, s.requests = σ.sched.requests → s.pool = σ.sched.pool →
      (s.doConfirmStart (startReport s σ.driver.frontUnits w bootId q)).2 ≠ .ok ()) →
      (qs.foldl (confirm x w bootId) σ).sched.pool = σ.sched.pool
  | [], _, _ => rfl
  | q :: qs, σ, h => by
    have hkept : (σ.confirm x w bootId q).sched = (σ.elapse x).sched := by
      rcases (σ.elapse x).sched.doConfirmStart_cases (startReport (σ.elapse x).sched σ.driver.frontUnits w bootId q)
        with hkept | ⟨_, _, _, _, _, _, hok⟩
      · exact hkept.1
      · exact absurd hok (h q List.mem_cons_self _ rfl rfl)
    rw [List.foldl_cons, confirmAll_refused qs]
    · rw [hkept]
      rfl
    · intro q' hq' s hreq hpool
      rw [hkept] at hreq hpool
      exact h q' (List.mem_cons_of_mem q hq') s hreq hpool

theorem availableUnits_concludeAll (w' : WorkerId) : ∀ (rs : List WorkResult) (σ : Session ε),
    (rs.foldl (conclude x w bootId) σ).sched.pool.availableUnits w' = σ.sched.pool.availableUnits w'
  | [], _ => rfl
  | res :: rs, σ => by
    rw [List.foldl_cons, availableUnits_concludeAll w' rs]
    exact (σ.elapse x).sched.availableUnits_doComplete _ w'

section carryOut

variable {x w bootId} {t : Impl} {r : RequestId} {wr : WorkerRecord} {out : DispatchOutcome} {σ : Session ε}

theorem availableUnits_confirmAll_taken (hd : Dispatched t σ.sched r wr out)
    (htakes : t.takesStarts wr.id bootId = true) (w' : WorkerId) :
    ((σ.sched.workRequests out.batchMembers).foldl (confirm x wr.id bootId) σ).sched.pool.availableUnits w' =
      σ.adopted wr.id w' := by
  have hknown : t.pool.workers.find wr.id = some wr := hd.enabled.2.2.1
  simp only [Impl.takesStarts, hknown, Option.any_some, Bool.and_eq_true, beq_iff_eq] at htakes
  obtain ⟨q, qs, hqs⟩ := List.exists_cons_of_ne_nil hd.workRequests_ne_nil
  obtain ⟨rec, hf, hticket, hstate, hbatch⟩ := hd.of_mem_workRequests (q := q) (by rw [hqs]; exact List.mem_cons_self)
  have hok : ((σ.elapse x).sched.doConfirmStart
      (startReport (σ.elapse x).sched σ.driver.frontUnits wr.id bootId q)).2 = .ok () :=
    Impl.doConfirmStart_taken rfl hf (congrArg Ticket.attempt hticket) (congrArg Ticket.generation hticket) hstate
      (by rw [hbatch]; exact htakes.1) (show _ = _ from hd.find_worker)
      (show wr.registration.bootId = bootId from htakes.2) hd.hasRoom.1.up
  have hfirst : (σ.confirm x wr.id bootId q).sched.pool.availableUnits w' = σ.adopted wr.id w' := by
    rcases (σ.elapse x).sched.availableUnits_doConfirmStart _ w' with ⟨_, hno⟩ | htaken
    · exact absurd hok hno
    · exact htaken
  rw [hqs, List.foldl_cons]
  refine availableUnits_confirmAll x wr.id bootId w' _ qs _ hfirst ?_
  unfold adopted at hfirst ⊢
  rw [show (σ.confirm x wr.id bootId q).driver = σ.driver from rfl, hfirst]
  split <;> rfl

theorem confirmAll_pool_of_refused (hd : Dispatched t σ.sched r wr out) (htakes : ¬t.takesStarts wr.id bootId = true) :
    ((σ.sched.workRequests out.batchMembers).foldl (confirm x wr.id bootId) σ).sched.pool = σ.sched.pool := by
  refine confirmAll_refused x wr.id bootId _ _ fun q hq s hreq hpool hok => htakes ?_
  -- A start that is taken names the worker's boot and a valid batch.
  rcases s.doConfirmStart_cases (startReport s σ.driver.frontUnits wr.id bootId q)
    with ⟨_, hno⟩ | ⟨rec, _, hm, _, hen, _⟩
  · exact absurd hok hno
  · obtain ⟨rec', hf, _, _, hbatch⟩ := hd.of_mem_workRequests hq
    have hrec : s.requests.find q.requestId = some rec := by
      rw [show q.requestId = rec.requestId from hm.request.symm]
      exact hen.1
    rw [hreq] at hrec
    obtain rfl := Option.some.inj (hf.symm.trans hrec)
    obtain ⟨wr', hwr', hboot⟩ := hm.worker
    rw [hpool] at hwr'
    obtain rfl := Option.some.inj (hd.find_worker.symm.trans hwr')
    have hknown : t.pool.workers.find wr.id = some wr := hd.enabled.2.2.1
    simp only [Impl.takesStarts, hknown, Option.any_some, Bool.and_eq_true, beq_iff_eq]
    exact ⟨hbatch ▸ hen.2.2.2, hboot⟩

/-- **What a batch leaves the scheduler knowing of the workers' capacity**: the
driver's first figure for the worker it ran on, if the starts are taken. -/
theorem availableUnits_carryOut (hd : Dispatched t σ.sched r wr out) (w' : WorkerId) :
    (σ.carryOut x wr.id bootId (σ.sched.workRequests out.batchMembers)).sched.pool.availableUnits w' =
      if t.takesStarts wr.id bootId then σ.adopted wr.id w' else σ.sched.pool.availableUnits w' := by
  refine (availableUnits_concludeAll x wr.id bootId w' _ _).trans ?_
  split
  · next htakes =>
    exact availableUnits_confirmAll_taken (σ := { σ with env := (x.run σ.env _).2 }) hd htakes w'
  · next htakes =>
    have hpool := confirmAll_pool_of_refused (x := x) (σ := { σ with env :=
      (x.run σ.env (σ.sched.workRequests out.batchMembers)).2 }) hd htakes
    exact congrArg (fun p : Pool => p.availableUnits w') hpool

end carryOut

end Session

/-! ## Whose figure is reported -/

namespace LocalDriver

variable (d : LocalDriver)

/-- The entry of `avail_units_` that belongs to a worker. -/
def unitsOf (w : WorkerId) : Option ℤ := (d.workers.findIdx? (·.worker == w)).bind (d.availUnits[·]?)

theorem unitsOf_make (workers : List WorkerRegistration) (w : WorkerId) :
    (make workers).unitsOf w = (workers.find? (·.worker == w)).map (·.capability.availableCapacityUnits) := by
  rw [List.find?_eq_bind_findIdx?_getElem?, Option.map_bind]
  simp only [unitsOf, make, List.getElem?_map]
  rfl

theorem unitsOf_setAvailableUnits (w w' : WorkerId) (units : ℤ) :
    (d.setAvailableUnits w units).unitsOf w' = (d.unitsOf w').map fun u => if w = w' then units else u := by
  unfold setAvailableUnits
  split
  · next hnone =>
    split
    · next h =>
      subst h
      simp [unitsOf, hnone]
    · simp
  · next i hi =>
    obtain ⟨hlt, hat, _⟩ := List.findIdx?_eq_some_iff_getElem.1 hi
    unfold unitsOf
    cases hj : d.workers.findIdx? (·.worker == w') with
    | none => rfl
    | some j =>
      obtain ⟨_, hat', _⟩ := List.findIdx?_eq_some_iff_getElem.1 hj
      simp only [Option.bind_some, List.getElem?_set]
      by_cases h : w = w'
      · subst h
        obtain rfl := Option.some.inj (hi.symm.trans hj)
        have hin : i < d.availUnits.length := d.sized ▸ hlt
        simp [hin]
      · -- Two workers do not share a position.
        have hne : i ≠ j := by
          rintro rfl
          exact h ((beq_iff_eq.1 hat).symm.trans (beq_iff_eq.1 hat'))
        simp [hne, h]

/-- The driver reports the entry of its first worker. -/
theorem frontUnits_eq {first : WorkerRegistration} {rest : List WorkerRegistration} (h : d.workers = first :: rest) :
    d.unitsOf first.worker = some d.frontUnits := by
  obtain ⟨units, more, hunits⟩ : ∃ units more, d.availUnits = units :: more :=
    List.exists_cons_of_length_pos (by rw [d.sized, h]; exact Nat.succ_pos _)
  simp [unitsOf, frontUnits, h, hunits, List.findIdx?_cons]

end LocalDriver

/-- What a program that drives the scheduler calls: operations of the scheduler
itself, and the two methods of the driver. -/
inductive Call
  | schedule (op : Op)
  | setAvailableUnits (worker : WorkerId) (units : ℤ)
  | dispatchOne

/-- The capacity of `w` once a call is made. -/
def Call.announce (w : WorkerId) (units : ℤ) : Call → ℤ
  | .setAvailableUnits w' u => if w' = w then u else units
  | .schedule _ | .dispatchOne => units

namespace Session

variable {ε : Type} (x : Executor ε)

def call (σ : Session ε) : Call → Session ε × Bool
  | .schedule op => ({ σ with sched := scheduler.next σ.sched op }, true)
  | .setAvailableUnits w u => ({ σ with driver := σ.driver.setAvailableUnits w u }, true)
  | .dispatchOne => σ.dispatchOne x

/-- A driver as a machine over its calls. -/
def driven : Machine (Session ε) Call Bool := ⟨Session.call x⟩

/-- One call replaces the figure it announces and no other. -/
theorem unitsOf_call (σ : Session ε) (c : Call) (w : WorkerId) :
    ((driven x).next σ c).driver.workers = σ.driver.workers ∧
      ((driven x).next σ c).driver.unitsOf w = (σ.driver.unitsOf w).map (c.announce w ·) := by
  cases c with
  | schedule op => exact ⟨rfl, (congrFun Option.map_id _).symm⟩
  | setAvailableUnits w' u =>
    refine ⟨?_, ?_⟩
    · simp only [driven, Machine.next, call, LocalDriver.setAvailableUnits]
      split <;> rfl
    · exact σ.driver.unitsOf_setAvailableUnits w' w u
  | dispatchOne =>
    obtain ⟨hworkers, hunits⟩ := σ.dispatchOne_driver x
    refine ⟨hworkers, ?_⟩
    rw [show ((driven x).next σ .dispatchOne) = (σ.dispatchOne x).1 from rfl, LocalDriver.unitsOf, hworkers, hunits]
    exact (congrFun Option.map_id _).symm

theorem unitsOf_run (w : WorkerId) : ∀ (calls : List Call) (σ : Session ε),
    ((driven x).run σ calls).driver.workers = σ.driver.workers ∧
      ((driven x).run σ calls).driver.unitsOf w = (σ.driver.unitsOf w).map (calls.foldl (Call.announce w) ·)
  | [], _ => ⟨rfl, (congrFun Option.map_id _).symm⟩
  | c :: calls, σ => by
    obtain ⟨hworkers, hunits⟩ := unitsOf_run w calls ((driven x).next σ c)
    obtain ⟨hworkers', hunits'⟩ := σ.unitsOf_call x c w
    refine ⟨hworkers.trans hworkers', ?_⟩
    rw [Machine.run_cons, hunits, hunits', Option.map_map]
    rfl

end Session

/-- The capacity of a worker of the list: the one it is registered with, or the
one last set for it. -/
def ownUnits (workers : List WorkerRegistration) (calls : List Call) (w : WorkerId) : Option ℤ :=
  (workers.find? (·.worker == w)).map fun reg => calls.foldl (Call.announce w) reg.capability.availableCapacityUnits

/-- The figure the scheduler has for a worker after a batch went to it: that of
the first worker of the list, if the starts are taken and it is not negative,
and otherwise the one from before. -/
def figureAfter (workers : List WorkerRegistration) (calls : List Call) (s : Impl) (w : WorkerId) : Option ℤ :=
  let front := (workers.head?.bind fun first => ownUnits workers calls first.worker).filter (0 ≤ ·)
  if (workers.find? (·.worker == w)).any fun reg => s.takesStarts w reg.bootId then front.or (s.pool.availableUnits w)
  else s.pool.availableUnits w

namespace Session

variable {ε : Type} (x : Executor ε)

/-- What a driver's dispatch leaves the scheduler knowing. -/
theorem availableUnits_dispatchOne {σ : Session ε} {out : DispatchOutcome} (hplan : (σ.planNext x).2 = .ok out)
    (hran : (σ.dispatchOne x).2 = true) : ∃ reg, σ.driver.findWorker out.workerId = some reg ∧
      ∀ w, (σ.dispatchOne x).1.sched.pool.availableUnits w =
        if σ.sched.takesStarts out.workerId reg.bootId then σ.adopted out.workerId w
        else σ.sched.pool.availableUnits w := by
  rcases σ.dispatchOne_cases x with ⟨h, _⟩ | ⟨out', reg, hplan', hdispatch, hreg, h⟩
  · rw [h] at hran
    cases hran
  · obtain rfl := Except.ok.inj (hplan.symm.trans hplan')
    rcases σ.planNext_cases x with ⟨_, hno⟩ | ⟨out', wr, t, hout', helapsed, hd⟩
    · exact absurd hdispatch (hno out hplan)
    · obtain rfl := Except.ok.inj (hplan.symm.trans hout')
      have hids : t.idFactory = σ.sched.idFactory := helapsed.ids
      have hpool : t.pool = σ.sched.pool := helapsed.pool
      have hsame : ∀ w, (σ.planNext x).1.sched.pool.availableUnits w = σ.sched.pool.availableUnits w := by
        intro w
        rw [hd.pool_reserve, Pool.availableUnits_reserve t.pool w hd.enabled.2.2.1, hpool]
      refine ⟨reg, hreg, fun w => ?_⟩
      rw [h, hd.worker, availableUnits_carryOut hd, Impl.takesStarts, hids, hpool, adopted, planNext_driver, hsame]
      rfl

end Session

/-- **Whose capacity the driver reports.** After a dispatch the scheduler's
figure for the worker is the worker's own, and that of every other worker is
unchanged, exactly if the first worker's figure is the right one to leave. -/
theorem reports_own_capacity_iff {ε : Type} (x : Executor ε) (s : Impl) (env : ε) (workers : List WorkerRegistration)
    (calls : List Call) {σ : Session ε} (hσ : σ = (Session.driven x).run ⟨s, .make workers, env⟩ calls)
    {out : DispatchOutcome} (hplan : (σ.planNext x).2 = .ok out) (hran : (σ.dispatchOne x).2 = true) :
    ((σ.dispatchOne x).1.sched.pool.availableUnits out.workerId = ownUnits workers calls out.workerId ∧
        ∀ w, w ≠ out.workerId →
          (σ.dispatchOne x).1.sched.pool.availableUnits w = σ.sched.pool.availableUnits w) ↔
      figureAfter workers calls σ.sched out.workerId = ownUnits workers calls out.workerId := by
  obtain ⟨reg, hreg, hunits⟩ := Session.availableUnits_dispatchOne x hplan hran
  have hlist : σ.driver.workers = workers := by
    rw [hσ]
    exact (Session.unitsOf_run x out.workerId calls _).1
  have hown : ∀ w, σ.driver.unitsOf w = ownUnits workers calls w := by
    intro w
    rw [hσ, (Session.unitsOf_run x w calls _).2, LocalDriver.unitsOf_make, Option.map_map]
    rfl
  have hfind : workers.find? (·.worker == out.workerId) = some reg := hlist ▸ hreg
  have hfigure : figureAfter workers calls σ.sched out.workerId =
      if σ.sched.takesStarts out.workerId reg.bootId then σ.adopted out.workerId out.workerId
      else σ.sched.pool.availableUnits out.workerId := by
    obtain ⟨first, rest, hcons⟩ : ∃ first rest, workers = first :: rest := by
      refine List.exists_cons_of_ne_nil ?_
      rintro rfl
      cases hfind
    have hfront := σ.driver.frontUnits_eq (hlist.trans hcons)
    rw [hown] at hfront
    simp only [figureAfter, hfind, Option.any_some, show workers.head? = some first by rw [hcons]; rfl,
      Option.bind_some, hfront, Option.filter_some, decide_eq_true_eq, Session.adopted, true_and]
    by_cases hpos : 0 ≤ σ.driver.frontUnits
    · simp [hpos]
    · simp [hpos]
  rw [hfigure, hunits out.workerId, and_iff_left_iff_imp]
  intro _ w hw
  rw [hunits w]
  split
  · exact if_neg fun h => hw h.1.symm
  · rfl

/-- An executor that succeeds at once. -/
def instant : Executor Unit where
  run _ reqs :=
    (reqs.map fun q => { requestId := q.requestId, attemptId := q.attemptId, generation := q.generation }, ())
  elapse _ := (0, ())

/-- A worker for decodes with 8 units, and one for every phase with `units`. -/
def unevenWorkers (units : ℤ) : List WorkerRegistration :=
  [{ plainWorker 3 with capability := { totalCapacityUnits := 8, availableCapacityUnits := 8, phases := [.decode] } },
    { plainWorker 4 with capability := { totalCapacityUnits := units, availableCapacityUnits := units } }]

/-- Both registered, and a prefill waiting. -/
def unevenStart (units : ℤ) : Impl :=
  scheduler.run (Impl.init {} 0 0x80000001 none)
    ((unevenWorkers units).map .registerWorker ++ [.submit plainSpec (some ⟨7⟩)])

/-- The session after the calls. -/
def unevenSession (units : ℤ) (calls : List Call) : Session Unit :=
  (Session.driven instant).run ⟨unevenStart units, .make (unevenWorkers units), ()⟩ calls

/-- The prefill goes to the second worker, and both workers are set to 2 units
before: what is reported for the one is right for the other. -/
theorem reports_own_capacity_after_set :
    let calls : List Call := [.setAvailableUnits ⟨3⟩ 2, .setAvailableUnits ⟨4⟩ 2]
    ((unevenSession 8 calls).dispatchOne instant).1.sched.pool.availableUnits ⟨4⟩ =
        ownUnits (unevenWorkers 8) calls ⟨4⟩ ∧
      ∀ w, w ≠ ⟨4⟩ → ((unevenSession 8 calls).dispatchOne instant).1.sched.pool.availableUnits w =
        (unevenSession 8 calls).sched.pool.availableUnits w := by
  intro calls
  obtain ⟨out, hout, hw⟩ : ∃ out, ((unevenSession 8 calls).planNext instant).2 = .ok out ∧ out.workerId = ⟨4⟩ := by
    cases h : ((unevenSession 8 calls).planNext instant).2 with
    | error e =>
      have hok : ((unevenSession 8 calls).planNext instant).2.isOk = true := by decide +kernel
      rw [h] at hok
      cases hok
    | ok out =>
      have hw : ((unevenSession 8 calls).planNext instant).2.toOption.map (·.workerId) = some ⟨4⟩ := by decide +kernel
      rw [h] at hw
      exact ⟨out, rfl, Option.some.inj hw⟩
  have hran : ((unevenSession 8 calls).dispatchOne instant).2 = true := by decide +kernel
  have hreports : ∀ w, out.workerId = w →
      figureAfter (unevenWorkers 8) calls (unevenSession 8 calls).sched w = ownUnits (unevenWorkers 8) calls w →
      ((unevenSession 8 calls).dispatchOne instant).1.sched.pool.availableUnits w =
          ownUnits (unevenWorkers 8) calls w ∧
        ∀ w', w' ≠ w → ((unevenSession 8 calls).dispatchOne instant).1.sched.pool.availableUnits w' =
          (unevenSession 8 calls).sched.pool.availableUnits w' := by
    rintro _ rfl hfigure
    have hstart : unevenSession 8 calls =
        (Session.driven instant).run ⟨unevenStart 8, .make (unevenWorkers 8), ()⟩ calls := rfl
    exact (reports_own_capacity_iff instant (unevenStart 8) () (unevenWorkers 8) calls hstart hout hran).2 hfigure
  exact hreports ⟨4⟩ hw (by decide +kernel)

/-- A prefill dispatched to the second worker, of 2 units, leaves the scheduler
with the 8 units of the first. -/
theorem foreign_capacity_reported :
    ((unevenSession 2 []).planNext instant).2.toOption.map (·.workerId) = some ⟨4⟩ ∧
      ((unevenSession 2 []).dispatchOne instant).2 = true ∧ ownUnits (unevenWorkers 2) [] ⟨4⟩ = some 2 ∧
      ((unevenSession 2 []).dispatchOne instant).1.sched.pool.availableUnits ⟨4⟩ = some 8 := by
  decide +kernel

end InferenceScheduler
