/-
Requests that go round. A scheduler with one worker serves the same few
requests over and over: a request is dispatched, its attempt fails, and it is
queued again. `Cycling` is kept by each of these steps, and each step is
described by who waits after it and what it does to the virtual times.
-/
import InferenceScheduler.Fairness
import InferenceScheduler.Placing

namespace InferenceScheduler

open Machine

/-! ## A dispatch -/

namespace Impl

/-- A queued request is dispatched if no request is overdue and every worker
would take its batch. -/
theorem doPlanDispatch_dispatches {s : Impl} {r : RequestId} {rec : RequestRecord} (ex : Bool)
    (hidle : ∀ r rec, s.requests.find r = some rec →
      (rec.spec.deadline.valid && rec.spec.deadline.expired s.now) = false)
    (hf : s.requests.find r = some rec) (hq : rec.state = .queued)
    (hsome : ∃ w wr, s.pool.workers.find w = some wr)
    (htakes : ∀ w wr, s.pool.workers.find w = some wr → s.Takes r wr) :
    ∃ wr out, (s.doPlanDispatch r ex).2 = .ok out ∧ Dispatched s (s.doPlanDispatch r ex).1 r wr out ∧
      out.batchMembers = s.planMembers r s.now := by
  have hid : rec.requestId = r := Keyed.key_of_find hf
  have hplan : s.doPlanDispatch r ex = ((s.planRunnable rec s.now ex).1, .ok (s.planRunnable rec s.now ex).2) := by
    simp only [doPlanDispatch, expireScan_idle hidle, hf, hidle r rec hf, Bool.false_eq_true, if_false, hq,
      ne_eq, not_true_eq_false, false_and]
  have hdispatch : (s.planRunnable rec s.now ex).2.decision = .dispatch := by
    refine (planRunnable_dispatches_iff hf ex).2 ?_
    obtain ⟨n, hmembers⟩ : ∃ n, s.planMembers r s.now = r :: _ := planMembers_cons hf
    obtain ⟨w, wr, hw⟩ := hsome
    rcases s.selectWorker_spec r ((s.candidates r rec.spec s.now).take n) (s.batchCost (s.planMembers r s.now)) s.now
      with ⟨_, hnone⟩ | ⟨wr', hfind, _, _, hbest⟩
    · exact absurd (htakes w wr hw).fits (hnone w wr hw)
    · exact ⟨wr', hfind, hbest, htakes _ wr' hfind⟩
  rw [hplan]
  rcases planRunnable_cases s ex (Keyed.find_key hf) (.inl hq) with ⟨_, hno⟩ | ⟨wr, hd, _⟩
  · exact absurd hdispatch hno
  · exact ⟨wr, _, rfl, hid ▸ hd, hid ▸ hd.planned.formed⟩

end Impl

/-! ## Requests that come back -/

theorem Pool.released_cancellationCommitted (p : Pool) (w : WorkerId) (rec : RequestRecord) :
    (p.released w rec).cancellationCommitted = rec.cancellationCommitted := by
  rcases p.released_cases w rec with h | h <;> rw [h]

/-- A request of these runs: it fits the worker, costs one unit and is not
overdue. -/
structure Usable (cfg : SchedulerConfig) (reg : WorkerRegistration) (now : ClockTime) (spec : RequestSpec) : Prop where
  weight : 0 < flowWeight cfg spec
  fits : compatible spec reg.capability = true
  cost : spec.demand.costUnits = 1
  early : (spec.deadline.valid && spec.deadline.expired now) = false

/-- A record that can be dispatched and, after a failure, queued again. -/
structure Cyclable (n : ℕ) (rec : RequestRecord) : Prop where
  state : rec.state = .queued ∨ rec.state = .reserved
  kept : rec.cancellationRequested = false ∧ rec.cancellationCommitted = false
  attempts : rec.history.length ≤ n

/-- A scheduler with one worker and requests that go round, with specs as `ok`
asks. -/
structure Cycling (cfg : SchedulerConfig) (reg : WorkerRegistration) (now : ClockTime) (ok : RequestSpec → Prop)
    (n : ℕ) (s : Impl) : Prop where
  stocked : Stocked cfg ok s.core
  usable : ∀ spec, ok spec → Usable cfg reg now spec
  clock : s.now = now
  epoch : s.epochValue = 1
  worker : ∃ wr, s.pool.workers.find reg.worker = some wr
  workers : ∀ w wr, s.pool.workers.find w = some wr → w = reg.worker ∧ wr.registration = reg
  records : ∀ r rec, s.requests.find r = some rec → Cyclable n rec
  queued : ∀ r ∈ s.ready.queued, ∃ rec, s.core.Waits r rec

/-- A queued request of a flow. -/
def Impl.Waiting (s : Impl) (r : RequestId) (k : FlowKey) : Prop := ∃ rec, s.core.Waits r rec ∧ flowKey rec.spec = k

theorem Impl.Waiting.backlogged {s : Impl} {r : RequestId} {k : FlowKey} (h : s.Waiting r k) :
    s.backlogged k = true := by
  obtain ⟨rec, hw, hk⟩ := h
  refine List.any_eq_true.2 ⟨rec, Keyed.mem_records.2 (Keyed.find_key hw.1), ?_⟩
  simp [hw.2, hk]

theorem Impl.Waiting.flow_eq {s : Impl} {r : RequestId} {k k' : FlowKey} (h : s.Waiting r k) (h' : s.Waiting r k') :
    k = k' := by
  obtain ⟨rec, hw, rfl⟩ := h
  obtain ⟨rec', hw', rfl⟩ := h'
  rw [Option.some.inj (hw.1.symm.trans hw'.1)]

namespace Cycling

variable {cfg : SchedulerConfig} {reg : WorkerRegistration} {now : ClockTime} {ok : RequestSpec → Prop} {n : ℕ}
  {s : Impl}

theorem idle (h : Cycling cfg reg now ok n s) (r : RequestId) (rec : RequestRecord) (hf : s.requests.find r = some rec) :
    (rec.spec.deadline.valid && rec.spec.deadline.expired s.now) = false :=
  h.clock ▸ (h.usable _ (h.stocked.specs r rec hf)).early

/-- The worker reports in: it is online and has room for eight units. -/
def report (reg : WorkerRegistration) (s : Impl) : Op :=
  .setWorkerState reg.worker .online
    (some { availableCapacityUnits := ((s.pool.workers.find reg.worker).getD {}).reservedUnits + 8 })

/-- The record the report leaves. -/
def opened (wr : WorkerRecord) : WorkerRecord :=
  { wr with state := .online, resource := { availableCapacityUnits := wr.reservedUnits + 8 } }

/-- The workers are online with room for eight units. -/
def Open (s : Impl) : Prop := ∀ w wr, s.pool.workers.find w = some wr → wr.state = .online ∧ wr.avail = 8

theorem next_report (h : Cycling cfg reg now ok n s) :
    Cycling cfg reg now ok n (scheduler.next s (report reg s)) ∧ Open (scheduler.next s (report reg s)) ∧
      ∃ pool log seq, scheduler.next s (report reg s) = { s with pool := pool, eventLog := log, eventSeq := seq } := by
  obtain ⟨wr, hwr⟩ := h.worker
  have hid : wr.id = reg.worker := Keyed.key_of_find hwr
  have hreg := (h.workers _ wr hwr).2
  have hnext : scheduler.next s (report reg s) = Impl.emitEvent { s with pool := s.pool.putWorker (opened wr) }
      "worker_state" .invalid .invalid reg.worker .invalid (WorkerState.online).nameOf := by
    simp only [Machine.next, scheduler, Impl.step, report, Impl.doSetWorkerState, hwr, Option.getD_some, opened]
  have hfind : ∀ w wr', (scheduler.next s (report reg s)).pool.workers.find w = some wr' →
      w = reg.worker ∧ wr' = opened wr := by
    intro w wr' hf
    rw [hnext] at hf
    have hput := (Keyed.find_put s.pool.workers (opened wr) w).symm.trans hf
    split at hput
    · next hw => exact ⟨hw.symm.trans hid, (Option.some.inj hput).symm⟩
    · next hw => exact absurd (hid.trans (h.workers w wr' hput).1.symm) hw
  refine ⟨⟨h.stocked.next _ (by simp [report]), h.usable, ?_, ?_, ?_, ?_, ?_, ?_⟩, ?_, ?_⟩
  · rw [hnext]
    exact h.clock
  · rw [hnext]
    exact h.epoch
  · rw [hnext, ← hid]
    exact ⟨_, Keyed.find_put_self s.pool.workers (opened wr)⟩
  · intro w wr' hf
    obtain ⟨hw, rfl⟩ := hfind w wr' hf
    exact ⟨hw, hreg⟩
  · rw [hnext]
    exact h.records
  · rw [hnext]
    exact h.queued
  · intro w wr' hf
    obtain ⟨_, rfl⟩ := hfind w wr' hf
    refine ⟨rfl, ?_⟩
    show wr.reservedUnits + 8 - wr.reservedUnits = 8
    omega
  · exact ⟨_, _, _, hnext⟩

/-- A flow with a queued request is active and has a head. -/
theorem head_of_waiting (h : Cycling cfg reg now ok n s) {r : RequestId} {k : FlowKey} (hw : s.Waiting r k) :
    k ∈ s.ready.activeFlows ∧ s.core.headEntry s.now k ≠ none := by
  obtain ⟨rec, hrec, rfl⟩ := hw
  obtain ⟨hmem, _, e, he, hid, hgen⟩ := h.stocked.lined.queued r rec hrec
  refine ⟨h.stocked.lined.active _ (List.ne_nil_of_mem he), fun hnone => ?_⟩
  have hlive : s.core.alive s.now e = true := by
    have hf : s.core.requests.find e.id = some rec := hid ▸ hrec.1
    have hmem' : e.id ∈ s.core.ready.queued := hid ▸ hmem
    simp only [Core.alive, hf, Option.any_some, hmem', decide_true, hgen, beq_self_eq_true, h.idle r rec hrec.1,
      Bool.not_false, Bool.and_self]
  exact List.find?_eq_none.1 hnone e he hlive

/-- The choice of a seed: a queued request of a flow with the least effective
finish. -/
theorem next_seed (h : Cycling cfg reg now ok n s) (hsome : ∃ r k, s.Waiting r k) :
    Cycling cfg reg now ok n s.planNextSeed.1 ∧ s.planNextSeed.1.requests = s.requests ∧
      (∀ k, s.planNextSeed.1.ready.fair.finish k = s.ready.fair.finish k) ∧
      ∃ r k, s.planNextSeed.2 = some r ∧ s.Waiting r k ∧
        ∀ r' k', s.Waiting r' k' → s.core.effective s.now k ≤ s.core.effective s.now k' := by
  obtain ⟨hheads, hactive, hnone, hseed⟩ := s.planNextSeed_spec
  have hstock : Stocked cfg ok s.planNextSeed.1.core := h.stocked.next .planNextSeed (by simp)
  obtain ⟨flows, active, hsame⟩ := s.planNextSeed_idle h.idle
  have hreq : s.planNextSeed.1.requests = s.requests := by rw [hsame]
  have hpool : s.planNextSeed.1.pool = s.pool := by rw [hsame]
  have hqueued : s.planNextSeed.1.ready.queued = s.ready.queued := by rw [hsame]
  refine ⟨⟨hstock, h.usable, ?_, ?_, hpool ▸ h.worker, hpool ▸ h.workers, hreq ▸ h.records, ?_⟩, hreq, hheads.finish, ?_⟩
  · rw [hsame]
    exact h.clock
  · rw [hsame]
    exact h.epoch
  · intro r hr
    obtain ⟨rec, hf, hq⟩ := h.queued r (hqueued ▸ hr)
    exact ⟨rec, (congrArg (fun t => Keyed.find t r) hreq).trans hf, hq⟩
  · obtain ⟨r₀, k₀, hw₀⟩ := hsome
    obtain ⟨hact₀, hhead₀⟩ := h.head_of_waiting hw₀
    obtain ⟨r, hr⟩ := Option.ne_none_iff_exists'.1 fun he => hhead₀ (hnone he k₀ hact₀)
    obtain ⟨k, e, hk, he, rfl, htop, hleast⟩ := hseed r hr
    obtain ⟨_, _, hmem, _⟩ := Core.exists_of_alive (Core.alive_of_headEntry he)
    obtain ⟨rec, hf, hq⟩ := h.queued e.id hmem
    obtain ⟨rec', hf', hkey⟩ := h.stocked.lined.flow k e (List.mem_of_find?_eq_some he)
    obtain rfl : rec = rec' := Option.some.inj (hf.symm.trans hf')
    refine ⟨e.id, k, hr, ⟨rec, ⟨hf, hq⟩, hkey⟩, fun r' k' hw' => ?_⟩
    obtain ⟨hact', hhead'⟩ := h.head_of_waiting hw'
    exact hleast k' ((hactive k').2 ⟨hact', hhead'⟩)

/-- The report of a failed attempt, to be tried again. -/
def failure (reg : WorkerRegistration) (rec : RequestRecord) : CompletionReport :=
  { worker := reg.worker, bootId := reg.bootId, epoch := ⟨1⟩, requestId := rec.requestId,
    attemptId := rec.currentAttempt, generation := rec.generation, status := .failed, failureClass := .retryableWorker }

/-- The report is accepted and the attempt is tried again. -/
theorem next_failure_eq (h : Cycling cfg reg now ok n s) {r : RequestId} {rec : RequestRecord}
    (hf : s.requests.find r = some rec) (hn : (n : ℤ) < cfg.retry.maxAttempts) :
    scheduler.next s (.complete (failure reg rec)) = s.makeRetry rec (failure reg rec) := by
  obtain ⟨wr, hwr⟩ := h.worker
  have hid : rec.requestId = r := Keyed.key_of_find hf
  have hcyc := h.records r rec hf
  have hboot : wr.registration.bootId = reg.bootId := by rw [(h.workers _ wr hwr).2]
  have hterm : isTerminal rec.state = false := by rcases hcyc.state with hs | hs <;> rw [hs] <;> rfl
  have hroom : ¬(cfg.retry.maxAttempts ≤ (rec.history.length : ℤ)) := by
    have := hcyc.attempts
    omega
  have hretry : Impl.canRetry s.cfg rec s.now = true := by
    simp only [Impl.canRetry, hcyc.kept, Bool.or_self, Bool.false_eq_true, if_false, show s.cfg = cfg from h.stocked.config,
      ge_iff_le, hroom, h.idle r rec hf]
  have hcomplete : s.doComplete (failure reg rec) = s.conclude rec (failure reg rec) := by
    simp only [Impl.doComplete, failure, h.epoch, hid, hf, hwr, Option.any_some, hboot, hterm, hcyc.kept, ne_eq,
      not_true_eq_false, beq_self_eq_true, Bool.not_true, Bool.false_eq_true, or_self, if_false]
  show (s.doComplete (failure reg rec)).1 = _
  rw [hcomplete]
  simp only [Impl.conclude, failure, Impl.retryable, hretry, beq_self_eq_true, Bool.or_true, Bool.true_or, Bool.and_self,
    if_true]

/-- A failed attempt: the request is queued again. -/
theorem next_failure (h : Cycling cfg reg now ok n s) {r : RequestId} {rec : RequestRecord}
    (hf : s.requests.find r = some rec) (hn : (n : ℤ) < cfg.retry.maxAttempts)
    (hheap : (s.ready.flow (flowKey rec.spec)).pending.entries ≠ []) :
    Cycling cfg reg now ok (n + 1) (scheduler.next s (.complete (failure reg rec))) ∧
      (scheduler.next s (.complete (failure reg rec))).ready.fair = s.ready.fair ∧
      ∀ r' k, (scheduler.next s (.complete (failure reg rec))).Waiting r' k ↔
        s.Waiting r' k ∨ r' = r ∧ k = flowKey rec.spec := by
  have hstock := h.stocked.next (.complete (failure reg rec)) (by simp)
  have hid : rec.requestId = r := Keyed.key_of_find hf
  have hcyc := h.records r rec hf
  rw [h.next_failure_eq hf hn] at hstock ⊢
  have hcore := (s.makeRetry_enters rec (failure reg rec)).core
  have hepoch := (s.makeRetry_enters rec (failure reg rec)).epochValue.trans h.epoch
  generalize s.makeRetry rec (failure reg rec) = t at hstock hcore hepoch ⊢
  set new := (s.pool.released reg.worker (rec.noteFailure (failure reg rec))).retry s.idFactory.peek
    s.idFactory.tick.peek s.now with hnew
  have hnewid : new.requestId = r := by rw [hnew]; simpa [RequestRecord.retry, RequestRecord.noteFailure] using hid
  have hnewspec : new.spec = rec.spec := by simp [hnew, RequestRecord.retry, RequestRecord.noteFailure]
  have hready : t.ready = s.ready.enqueue s.cfg s.now new := congrArg Core.ready hcore
  have hwaits : ∀ r' rec', t.core.Waits r' rec' ↔
      r' = r ∧ rec' = { new with state := .queued, queuedAt := s.now } ∨ r' ≠ r ∧ s.core.Waits r' rec' := by
    intro r' rec'
    rw [hcore, ← hnewid]
    exact Core.waits_enqueue { s.core with pool := s.core.pool.releaseMember reg.worker rec
                                           ids := s.core.ids.tick.tick } new r' rec'
  have hfind : ∀ r', t.requests.find r' =
      if r = r' then some { new with state := .queued, queuedAt := s.now } else s.requests.find r' := by
    intro r'
    rw [← hnewid]
    exact (congrArg (fun c => Keyed.find (Core.requests c) r') hcore).trans
      (Keyed.find_put s.requests { new with state := .queued, queuedAt := s.now } r')
  have hworkers : ∀ w, t.pool.workers.find w =
      if reg.worker = w then (s.pool.workers.find w).map (·.leave rec) else s.pool.workers.find w :=
    fun w => (congrArg (fun c => Keyed.find c.pool.workers w) hcore).trans
      (Pool.find_releaseMember s.pool reg.worker rec w)
  refine ⟨⟨hstock, h.usable, (congrArg Core.now hcore).trans h.clock, hepoch, ?_, fun w wr hw => ?_,
    fun r' rec' hf' => ?_, fun r' hr' => ?_⟩, ?_, fun r' k => ?_⟩
  · obtain ⟨wr, hwr⟩ := h.worker
    exact ⟨wr.leave rec, by rw [hworkers, if_pos rfl, hwr]; rfl⟩
  · rw [hworkers] at hw
    split at hw
    · next hreg =>
      obtain ⟨wr₀, hw₀, rfl⟩ := Option.map_eq_some_iff.1 hw
      exact ⟨hreg.symm, (wr₀.leave_registration rec).trans (h.workers w wr₀ hw₀).2⟩
    · exact h.workers w wr hw
  · rw [hfind] at hf'
    split at hf'
    · cases hf'
      refine ⟨.inl rfl, ?_, ?_⟩
      · simpa [hnew, RequestRecord.retry, RequestRecord.noteFailure, Pool.released_cancellationCommitted] using hcyc.kept
      · have := hcyc.attempts
        simp only [hnew, RequestRecord.retry, Pool.released_history, RequestRecord.noteFailure, List.length_append,
          length_onLast, List.length_singleton]
        omega
    · have hcyc' := h.records r' rec' hf'
      exact ⟨hcyc'.state, hcyc'.kept, hcyc'.attempts.trans (Nat.le_succ n)⟩
  · rw [hready, Ready.enqueue] at hr'
    by_cases he : r' = r
    · exact ⟨_, (hwaits r' _).2 (.inl ⟨he, rfl⟩)⟩
    · have hmem := (USet.mem_insert.1 hr').resolve_left (hnewid ▸ he)
      obtain ⟨rec', hw⟩ := h.queued r' hmem
      exact ⟨rec', (hwaits r' rec').2 (.inr ⟨he, hw⟩)⟩
  · rw [hready, Ready.fair_enqueue, hnewspec, if_neg]
    exact mt Heap.isEmpty_iff.1 hheap
  · constructor
    · intro hw
      obtain ⟨rec', hw, hk⟩ := hw
      rcases (hwaits r' rec').1 hw with ⟨he, rfl⟩ | ⟨_, hw⟩
      · exact .inr ⟨he, hk.symm.trans (congrArg flowKey hnewspec)⟩
      · exact .inl ⟨rec', hw, hk⟩
    · intro hw
      by_cases he : r' = r
      · refine ⟨_, (hwaits r' _).2 (.inl ⟨he, rfl⟩), (congrArg flowKey hnewspec).trans ?_⟩
        rcases hw with ⟨rec', hw, hk⟩ | ⟨_, hk⟩
        · subst he
          obtain rfl : rec = rec' := Option.some.inj (hf.symm.trans hw.1)
          exact hk
        · exact hk.symm
      · obtain ⟨rec', hw, hk⟩ := hw.resolve_right fun h => he h.1
        exact ⟨rec', (hwaits r' rec').2 (.inr ⟨he, hw⟩), hk⟩

/-- Every member of a batch costs one unit. -/
theorem batch_cost (h : Cycling cfg reg now ok n s) (ids : List RequestId)
    (hids : ∀ id ∈ ids, ∃ rec, s.requests.find id = some rec) :
    s.batchCost ids = ids.length ∧ s.batchUnits ids = ids.length := by
  have hcost : ∀ id ∈ ids, (s.specOf id).demand.costUnits = 1 := by
    intro id hid
    obtain ⟨rec, hf⟩ := hids id hid
    rw [Impl.specOf_of_find hf]
    exact (h.usable _ (h.stocked.specs id rec hf)).cost
  constructor
  · have hmap : ids.map s.memberCost = ids.map fun _ => (1 : ℚ) :=
      List.map_congr_left fun id hid => by rw [Impl.memberCost, hcost id hid, max_self]
    rw [Impl.batchCost, hmap]
    simp
  · have hmap : (ids.map fun id => ceilCost (s.specOf id).demand.costUnits) = ids.map fun _ => (1 : ℤ) :=
      List.map_congr_left fun id hid => by rw [hcost id hid]; decide +kernel
    rw [Impl.batchUnits, hmap]
    simp

/-- An open worker takes a batch of at most eight requests. -/
theorem takes (h : Cycling cfg reg now ok n s) (hopen : Open s) {r : RequestId} {rec : RequestRecord}
    (hr : s.core.Waits r rec) (hcap : reg.capability.totalCapacityUnits = 8) (hvalid : reg.worker.valid = true)
    (hlen : (s.planMembers r s.now).length ≤ 8) (w : WorkerId) (wr : WorkerRecord)
    (hw : s.pool.workers.find w = some wr) : s.Takes r wr := by
  obtain ⟨hreg, hregistration⟩ := h.workers w wr hw
  obtain ⟨hstate, havail⟩ := hopen w wr hw
  have hid : wr.id = w := Keyed.key_of_find hw
  obtain ⟨_, hne, _, hrun⟩ := Impl.planMembers_runnable (s := s) s.now (Keyed.find_key hr.1) (.inl hr.2)
  rw [Keyed.key_of_find hr.1] at hne hrun
  obtain ⟨hcost, hunits⟩ := h.batch_cost (s.planMembers r s.now) fun id hid => by
    obtain ⟨rec', hf', _⟩ := hrun id hid
    exact ⟨rec', hf'⟩
  have hpos : 0 < (s.planMembers r s.now).length := List.length_pos_of_ne_nil hne
  have hceil : ceilCost (s.batchCost (s.planMembers r s.now)) = (s.planMembers r s.now).length := by
    have hq : ¬(((s.planMembers r s.now).length : ℚ) ≤ 0) := by simp; omega
    rw [hcost, ceilCost, if_neg hq, Int.ceil_natCast]
  have hspec : s.specOf r = rec.spec := Impl.specOf_of_find hr.1
  have husable := h.usable _ (h.stocked.specs r rec hr.1)
  refine ⟨?_, ?_, ?_⟩
  · rw [hid, hreg]
    exact hvalid
  · have hearly := h.idle r rec hr.1
    have h₁ : ¬(wr.avail < ((s.planMembers r s.now).length : ℤ)) := by rw [havail]; omega
    have h₂ : ¬(((s.planMembers r s.now).length : ℤ) > reg.capability.totalCapacityUnits) := by rw [hcap]; omega
    simp only [rejectReason, hceil, hspec, hregistration, hstate, husable.fits, hearly, h₁, h₂, ne_eq,
      not_true_eq_false, false_and, and_false, Bool.not_true, Bool.false_eq_true, if_false]
  · rw [hunits, havail]
    omega

/-- The members of a batch are queued. -/
theorem waiting_of_member (h : Cycling cfg reg now ok n s) {r : RequestId} {k : FlowKey} (hr : s.Waiting r k)
    {id : RequestId} (hid : id ∈ s.planMembers r s.now) : s.Waiting id (flowKey (s.core.specOf id)) := by
  obtain ⟨rec, hw, _⟩ := hr
  obtain ⟨_, _, _, hrun⟩ := Impl.planMembers_runnable (s := s) s.now (Keyed.find_key hw.1) (.inl hw.2)
  rw [Keyed.key_of_find hw.1] at hrun
  obtain ⟨m, hm, hstate⟩ := hrun id hid
  have hqueued : m.state = .queued := hstate.resolve_right (h.stocked.lined.admitted id m hm)
  refine ⟨m, ⟨hm, hqueued⟩, ?_⟩
  rw [Core.specOf_of_find hm]

/-- A dispatch: the members of the batch leave the queue and are charged to
their flows. -/
theorem next_dispatch (h : Cycling cfg reg now ok n s) (hopen : Open s) {r : RequestId} {k : FlowKey}
    (hr : s.Waiting r k) (hcap : reg.capability.totalCapacityUnits = 8) (hvalid : reg.worker.valid = true)
    (hlen : (s.planMembers r s.now).length ≤ 8) :
    Cycling cfg reg now ok n (s.doPlanDispatch r false).1 ∧
      (s.doPlanDispatch r false).1.ready.fair =
        s.ready.fair.chargeAll ((s.planMembers r s.now).map s.core.bill) ∧
      ∀ r' k', (s.doPlanDispatch r false).1.Waiting r' k' ↔ s.Waiting r' k' ∧ r' ∉ s.planMembers r s.now := by
  obtain ⟨rec, hw, hk⟩ := hr
  have hstock : Stocked cfg ok (s.doPlanDispatch r false).1.core :=
    h.stocked.next (.planDispatch r false) (by simp)
  obtain ⟨w₀, hw₀⟩ := h.worker
  have hepoch : (s.doPlanDispatch r false).1.epochValue = s.epochValue :=
    @Impl.step_epochValue s (.planDispatch r false) (by simp)
  obtain ⟨wr, out, hout, hd, hmembers⟩ := Impl.doPlanDispatch_dispatches false h.idle hw.1 hw.2
    ⟨_, w₀, hw₀⟩ (h.takes hopen hw hcap hvalid hlen)
  have hcfg : s.cfg = cfg := h.stocked.config
  have hfair : (s.doPlanDispatch r false).1.core.ready.fair =
      s.core.ready.fair.chargeAll (out.batchMembers.map s.core.bill) := by
    rcases planDispatch_spec s r false h.stocked.lined
      (fun id rec hf => hcfg ▸ (h.usable _ (h.stocked.specs id rec hf)).weight) with
      ⟨hno, _⟩ | ⟨out', hout', _, _, _, _, hfair⟩
    · exact absurd hd.decision (hno out hout)
    · obtain rfl : out = out' := Except.ok.inj (hout.symm.trans hout')
      exact hfair
  rw [← hmembers]
  have hcore := hd.core
  have hen := hd.enabled
  generalize (s.doPlanDispatch r false).1 = t at hstock hcore hepoch hfair ⊢
  have hfind : ∀ r', t.requests.find r' = if r' ∈ out.batchMembers then
      (s.requests.find r').map (·.reserve s.idFactory.peek s.now) else s.requests.find r' :=
    fun r' => (congrArg (fun c => Keyed.find (Core.requests c) r') hcore).trans (Core.act_reserve_find hen.1 r')
  have hworkers : ∀ w, t.pool.workers.find w = if wr.id = w then
      some (wr.takeBatch s.idFactory.peek (s.core.batchUnits out.batchMembers) out.batchMembers)
      else s.pool.workers.find w := by
    intro w
    refine (congrArg (fun c => Keyed.find c.pool.workers w) hcore).trans ?_
    rw [(s.core.act_reserve_frame wr out.batchMembers).2.2.2]
    exact Pool.find_reserve hen.2.2.1 _ _ _ w
  have hwaits : ∀ r' rec', t.core.Waits r' rec' ↔ s.core.Waits r' rec' ∧ r' ∉ out.batchMembers := by
    intro r' rec'
    have hcond : t.core.requests.find r' = if r' ∈ out.batchMembers then
        (s.requests.find r').map (·.reserve s.idFactory.peek s.now) else s.requests.find r' := hfind r'
    rw [Core.Waits, hcond]
    by_cases hmem : r' ∈ out.batchMembers
    · rw [if_pos hmem]
      refine ⟨fun hx => ?_, fun hx => absurd hmem hx.2⟩
      obtain ⟨rec₀, _, rfl⟩ := Option.map_eq_some_iff.1 hx.1
      exact absurd hx.2 (by simp [RequestRecord.reserve])
    · rw [if_neg hmem]
      exact ⟨fun hx => ⟨hx, hmem⟩, And.left⟩
  have hnow : t.now = s.now := (congrArg Core.now hcore).trans (s.core.act_reserve_frame wr out.batchMembers).2.1
  refine ⟨⟨hstock, h.usable, hnow.trans h.clock, hepoch.trans h.epoch, ?_, fun w wr' hwr' => ?_,
    fun r' rec' hf' => ?_, fun r' hr' => ?_⟩, hfair, fun r' k' => ?_⟩
  · have hwr := h.workers wr.id wr hen.2.2.1
    exact ⟨_, by rw [hworkers, if_pos hwr.1]⟩
  · rw [hworkers] at hwr'
    split at hwr'
    · next hid =>
      cases hwr'
      exact hid ▸ h.workers wr.id wr hen.2.2.1
    · exact h.workers w wr' hwr'
  · rw [hfind] at hf'
    split at hf'
    · obtain ⟨rec₀, hf₀, rfl⟩ := Option.map_eq_some_iff.1 hf'
      have hcyc := h.records r' rec₀ hf₀
      exact ⟨.inr rfl, hcyc.kept, (length_onLast _ _).le.trans hcyc.attempts⟩
    · exact h.records r' rec' hf'
  · have hq := (Core.act_reserve_queued hen r').1 ((congrArg Core.ready hcore) ▸ hr')
    obtain ⟨rec', hw'⟩ := h.queued r' hq.1
    exact ⟨rec', (hwaits r' rec').2 ⟨hw', hq.2⟩⟩
  · constructor
    · intro hx
      obtain ⟨rec', hw', hk'⟩ := hx
      obtain ⟨hw', hnot⟩ := (hwaits r' rec').1 hw'
      exact ⟨⟨rec', hw', hk'⟩, hnot⟩
    · intro hx
      obtain ⟨⟨rec', hw', hk'⟩, hnot⟩ := hx
      exact ⟨rec', (hwaits r' rec').2 ⟨hw', hnot⟩, hk'⟩

/-- What a queued request is charged. -/
theorem bill_eq {r : RequestId} {k : FlowKey} (h : Cycling cfg reg now ok n s) (hw : s.Waiting r k) :
    s.core.bill r = (k, 1 / keyWeight cfg k) := by
  obtain ⟨rec, ⟨hf, _⟩, rfl⟩ := hw
  have hcost := (h.usable _ (h.stocked.specs r rec hf)).cost
  rw [Core.bill, Core.specOf_of_find hf, hcost, h.stocked.config, max_self]

/-- A flow is compared by its virtual finish, and the deadline of a request in
it. -/
theorem effective_eq {r : RequestId} {k : FlowKey} (h : Cycling cfg reg now ok n s) (hw : s.Waiting r k) :
    ∃ rec : RequestRecord, ok rec.spec ∧ flowKey rec.spec = k ∧
      s.core.effective now k = Impl.effectiveFinish cfg (s.ready.flow k) rec now := by
  obtain ⟨e, he⟩ := Option.ne_none_iff_exists'.1 (h.head_of_waiting hw).2
  obtain ⟨rec, hf, hk⟩ := h.stocked.lined.flow k e (List.mem_of_find?_eq_some he)
  refine ⟨rec, h.stocked.specs e.id rec hf, hk, ?_⟩
  rw [h.clock] at he
  rw [Core.effective, Core.head_eq he, hf, Option.getD_some, h.stocked.config]
  rfl

theorem effective_of_no_deadline {r : RequestId} {k : FlowKey} (h : Cycling cfg reg now ok n s)
    (hno : ∀ spec, ok spec → spec.deadline.valid = false) (hw : s.Waiting r k) :
    s.core.effective now k = s.ready.fair.finish k := by
  obtain ⟨rec, hok, _, heff⟩ := h.effective_eq hw
  exact heff.trans (effectiveFinish_of_no_deadline (hno _ hok))

/-- A request that is not batched makes a batch of its own. -/
theorem planMembers_solo {r : RequestId} {k : FlowKey} (h : Cycling cfg reg now ok n s)
    (hsolo : ∀ spec, ok spec → Impl.batchLimit cfg spec ≤ 1) (hw : s.Waiting r k) : s.planMembers r now = [r] := by
  obtain ⟨rec, ⟨hf, hq⟩, _⟩ := hw
  obtain ⟨_, _, hmem, _⟩ := Impl.planMembers_runnable (s := s) now (Keyed.find_key hf) (.inl hq)
  rw [Keyed.key_of_find hf] at hmem
  have hspec : s.specOf r = rec.spec := Impl.specOf_of_find hf
  have hlen := s.planMembers_length r now
  rw [hspec, show s.cfg = cfg from h.stocked.config] at hlen
  have hone : (s.planMembers r now).length ≤ 1 := by
    have := hsolo _ (h.stocked.specs r rec hf)
    omega
  obtain ⟨r', hr'⟩ : ∃ r', s.planMembers r now = [r'] := by
    rw [← List.length_eq_one_iff]
    have hpos := List.length_pos_of_mem hmem
    omega
  rw [hr', List.mem_singleton] at hmem
  rw [hr', hmem]

end Cycling

end InferenceScheduler
