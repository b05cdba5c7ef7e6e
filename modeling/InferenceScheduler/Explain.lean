/-
What `explain` says of a request (`src/scheduler.cpp`, `do_explain`), and how far
it is true of `plan_dispatch`. The explanation scores the workers for the request
alone, while planning scores them for the batch it forms around the request. The
scores are the same, but a worker with room for the request may have none for
the batch; where the worker that ranks first has room for both, the two agree.
-/
import InferenceScheduler.Placing

namespace InferenceScheduler

/-! ## The explanation -/

/-- The nearest integer to `q`, of two the even one. -/
def roundEven (q : ℚ) : ℤ :=
  if 2 * (q - ⌊q⌋) > 1 ∨ 2 * (q - ⌊q⌋) = 1 ∧ ⌊q⌋ % 2 = 1 then ⌊q⌋ + 1 else ⌊q⌋

/-- `std::to_string` of a floating-point number: six digits behind the point. -/
def fixedString (q : ℚ) : String :=
  let millionths := (roundEven (|q| * 1000000)).toNat
  let digits := toString (millionths % 1000000)
  (if q < 0 then "-" else "") ++ toString (millionths / 1000000) ++ "." ++
    String.ofList (List.replicate (6 - digits.length) '0') ++ digits

namespace Impl

/-- The factors by which a request is ranked. -/
def orderingFactors (s : Impl) (rec : RequestRecord) : List String :=
  let ofFlow := match s.ready.flows.lookup (flowKey rec.spec) with
    | none => []
    | some f => ["flow_weight=" ++ fixedString f.weight, "virtual_finish=" ++ fixedString f.virtualFinish]
  let slack := if rec.spec.deadline.valid then rec.spec.deadline.remaining s.now else -1
  ofFlow ++ ["deadline_slack_ms=" ++ toString slack, "latency_class=" ++ rec.spec.latencyClass.nameOf,
    "priority=" ++ rec.spec.priority.nameOf, "phase=" ++ rec.spec.phase.nameOf, "kept_at_deadline=1"]

/-- `do_explain`. -/
def doExplain (s : Impl) (id : RequestId) : ExplainResult :=
  match s.requests.find id with
  | none => { epoch := ⟨s.epochValue⟩, notes := ["unknown request"] }
  | some rec =>
    let ex : ExplainResult := { epoch := ⟨s.epochValue⟩, requestId := id, attemptId := rec.currentAttempt }
    if isTerminal rec.state then
      { ex with
        admission := if rec.state = .rejected then .reject else .admitted
        admissionReasonCode := "terminal:" ++ rec.state.nameOf
        notes := ["request is terminal: " ++ rec.state.nameOf] }
    else
      let adm := s.makeAdmission rec.spec s.now
      let cost := max 1 rec.spec.demand.costUnits
      let sel := s.selectWorker [id] cost s.now
      { ex with
        admission := adm.1
        admitted := adm.1 = .admitted
        admissionReasonCode := adm.2
        admissionExplanation := adm.2
        orderingFactors := s.orderingFactors rec
        candidates := s.pool.workers.records.map fun wr => scoreWorker s.cfg wr rec.spec cost s.now
        selectedWorker := sel.1
        notes := (sel.2.filter fun sc => sc.worker = sel.1 ∧ sc.eligible).map fun _ =>
          "selected worker " ++ toString sel.1.value }

end Impl

/-! ## Eligibility and cost -/

section cost

variable {cfg : SchedulerConfig} {wr : WorkerRecord} {spec : RequestSpec} {cost cost' : ℚ} {now : ClockTime}

/-- A worker eligible at some cost is eligible at any that rounds to no more. -/
theorem rejectReason_of_le (hle : ceilCost cost ≤ ceilCost cost') (h : rejectReason wr spec cost' now = none) :
    rejectReason wr spec cost now = none := by
  obtain ⟨hroom, hexp⟩ := rejectReason_eq_none.1 h
  exact rejectReason_eq_none.2 ⟨⟨hroom.up, hroom.fits, hle.trans hroom.total, hle.trans hroom.avail⟩, hexp⟩

/-- The score of a worker eligible at two costs is the same at both. -/
theorem scoreWorker_eq (h : rejectReason wr spec cost now = none) (h' : rejectReason wr spec cost' now = none) :
    scoreWorker cfg wr spec cost now = scoreWorker cfg wr spec cost' now := by
  simp only [scoreWorker, h, h']

end cost

namespace Impl

variable {s : Impl} {r : RequestId} {rec : RequestRecord} {wr : WorkerRecord}

theorem memberCost_le_batchCost {members : List RequestId} (h : r ∈ members) :
    s.memberCost r ≤ s.batchCost members := by
  refine List.single_le_sum (fun c hc => ?_) _ (List.mem_map_of_mem h)
  obtain ⟨id, _, rfl⟩ := List.mem_map.1 hc
  exact zero_le_one.trans (le_max_left 1 _)

/-- The worker has room for the batch formed around a request. -/
def RoomForBatch (s : Impl) (r : RequestId) (wr : WorkerRecord) : Prop :=
  rejectReason wr (s.specOf r) (s.batchCost (s.planMembers r s.now)) s.now = none ∧
    s.batchUnits (s.planMembers r s.now) ≤ wr.avail

instance (s : Impl) (r : RequestId) (wr : WorkerRecord) : Decidable (s.RoomForBatch r wr) :=
  inferInstanceAs (Decidable (_ ∧ _))

/-- The score of a worker for a request alone. -/
def scoreAlone (s : Impl) (r : RequestId) (wr : WorkerRecord) : WorkerScore :=
  scoreWorker s.cfg wr (s.specOf r) (s.memberCost r) s.now

/-- The batch of a request makes no difference: a worker with room for the
request alone has room for its batch, or another that has comes before it. -/
def BatchFits (s : Impl) (r : RequestId) : Prop :=
  ∀ wr ∈ s.pool.workers.records, (s.scoreAlone r wr).eligible = true →
    s.RoomForBatch r wr ∨
      ∃ wr' ∈ s.pool.workers.records, s.RoomForBatch r wr' ∧ Beats (s.scoreAlone r wr') (s.scoreAlone r wr)

instance (s : Impl) (r : RequestId) : Decidable (s.BatchFits r) :=
  inferInstanceAs (Decidable (∀ wr ∈ s.pool.workers.records, _ → _ ∨ ∃ wr' ∈ s.pool.workers.records, _ ∧ _))

/-- What is eligible for the batch is eligible for the request. -/
theorem rejectReason_alone (hf : s.requests.find r = some rec)
    (h : rejectReason wr (s.specOf r) (s.batchCost (s.planMembers r s.now)) s.now = none) :
    rejectReason wr (s.specOf r) (s.memberCost r) s.now = none := by
  obtain ⟨n, hmembers⟩ : ∃ n, s.planMembers r s.now = r :: _ := planMembers_cons hf
  have hmem : r ∈ s.planMembers r s.now := by
    rw [hmembers]
    exact List.mem_cons_self
  exact rejectReason_of_le (ceilCost_mono (memberCost_le_batchCost hmem)) h

/-! ## What is said and what is done -/

theorem doExplain_selectedWorker (hf : s.requests.find r = some rec) (ht : isTerminal rec.state = false) :
    (s.doExplain r).selectedWorker = (s.selectWorker [r] (s.memberCost r) s.now).1 := by
  have hspec : s.specOf r = rec.spec := specOf_of_find hf
  simp only [doExplain, hf, ht, Bool.false_eq_true, if_false, memberCost, hspec]

/-- The scores for the batch are those for the request alone, of fewer workers. -/
theorem score_batch_eq (hf : s.requests.find r = some rec)
    (h : rejectReason wr (s.specOf r) (s.batchCost (s.planMembers r s.now)) s.now = none) :
    scoreWorker s.cfg wr (s.specOf r) (s.batchCost (s.planMembers r s.now)) s.now = s.scoreAlone r wr :=
  scoreWorker_eq h (rejectReason_alone hf h)

/-- Where the batch makes no difference, the worker that is first for the request
alone has room for the batch and is first for it. -/
theorem BatchFits.first (hfits : s.BatchFits r) (hf : s.requests.find r = some rec)
    (hwr : s.pool.workers.find wr.id = some wr)
    (hfirst : Chosen (s.scores r (s.memberCost r) s.now) (s.scoreAlone r wr)) :
    s.RoomForBatch r wr ∧ Chosen (s.scores r (s.batchCost (s.planMembers r s.now)) s.now)
      (scoreWorker s.cfg wr (s.specOf r) (s.batchCost (s.planMembers r s.now)) s.now) := by
  have hmem : wr ∈ s.pool.workers.records := Keyed.mem_records.2 hwr
  have hroom : s.RoomForBatch r wr := by
    rcases hfits wr hmem hfirst.eligible with hroom | ⟨wr', hmem', hroom', hbeats⟩
    · exact hroom
    · -- The other one is eligible for the request too, and would come first.
      have hscore : s.scoreAlone r wr' ∈ s.scores r (s.memberCost r) s.now := List.mem_map_of_mem hmem'
      rcases hfirst.beats _ hscore (scoreWorker_eligible.2 (rejectReason_alone hf hroom'.1)) with heq | hback
      · rw [heq] at hbeats
        exact absurd hbeats hbeats.asymm
      · exact absurd hback hbeats.asymm
  refine ⟨hroom, List.mem_map_of_mem hmem, scoreWorker_eligible.2 hroom.1, fun x hx hx' => ?_⟩
  obtain ⟨wr', hmem', rfl⟩ := List.mem_map.1 hx
  have hfit' := scoreWorker_eligible.1 hx'
  rw [score_batch_eq hf hroom.1, score_batch_eq hf hfit']
  exact hfirst.beats _ (List.mem_map_of_mem hmem') (scoreWorker_eligible.2 (rejectReason_alone hf hfit'))

/-- The expiry of overdue requests changes nothing about the choice of a worker. -/
theorem selectWorker_lapsed {t : Impl} {now : ClockTime} (h : Lapsed now s.core t.core) (members : List RequestId)
    (cost : ℚ) (now' : ClockTime) : t.selectWorker members cost now' = s.selectWorker members cost now' := by
  have hcfg : t.cfg = s.cfg := h.cfg
  have hpool : t.pool = s.pool := h.pool
  have hspec : t.specOf = s.specOf := specOf_congr h.spec
  simp only [selectWorker, hcfg, hpool, hspec]

/-- The worker of a plan that dispatches is the one `select_worker` chose for the
batch. -/
theorem planned_worker {ex : Bool} {out : DispatchOutcome} (hr : s.core.Waits r rec)
    (hexp : rec.spec.deadline.expired s.now = false) (hout : (s.doPlanDispatch r ex).2 = .ok out)
    (hdispatch : out.decision = .dispatch) :
    out.workerId = (s.selectWorker (s.planMembers r s.now) (s.batchCost (s.planMembers r s.now)) s.now).1 := by
  have hlapsed := s.lapsed_expireScan s.now
  have hnow : (s.expireScan s.now).now = s.now := hlapsed.clock
  have hf : (s.expireScan s.now).requests.find r = some rec := hlapsed.keeps hr.1 fun _ => hexp
  have hid : rec.requestId = r := Keyed.key_of_find hf
  rw [doPlanDispatch_waits hr hexp] at hout
  obtain rfl := Except.ok.inj hout
  rcases (s.expireScan s.now).planRunnable_cases ex (Keyed.find_key hf) (.inl hr.2) with ⟨_, hno⟩ | ⟨wr, hd, _⟩
  · rw [hnow] at hno
    exact absurd hdispatch hno
  · rw [hnow] at hd
    have hchosen := hd.planned.chosen
    rw [hd.planned.formed, hnow, hid, planMembers_lapsed hlapsed, selectWorker_lapsed hlapsed,
      batchCost_congr (specOf_congr hlapsed.spec)] at hchosen
    exact hd.worker.trans (Keyed.key_of_find hchosen)

/-- The worker chosen for the request alone is the one chosen for its batch. -/
theorem BatchFits.selectWorker_eq (hfits : s.BatchFits r) (hf : s.requests.find r = some rec) :
    (s.selectWorker (s.planMembers r s.now) (s.batchCost (s.planMembers r s.now)) s.now).1 =
      (s.selectWorker [r] (s.memberCost r) s.now).1 := by
  obtain ⟨n, hmembers⟩ : ∃ n, s.planMembers r s.now = r :: _ := planMembers_cons hf
  have hbatch := s.selectWorker_spec r ((s.candidates r rec.spec s.now).take n)
    (s.batchCost (s.planMembers r s.now)) s.now
  rw [← hmembers] at hbatch
  rcases s.selectWorker_spec r [] (s.memberCost r) s.now with ⟨hsel, hno⟩ | ⟨wr, hwr, hsel, _, hfirst⟩
  · rcases hbatch with ⟨hsel', _⟩ | ⟨wr, hwr, _, hfit, _⟩
    · rw [hsel, hsel']
    · exact absurd (rejectReason_alone hf hfit) (hno wr.id wr hwr)
  · obtain ⟨hroom, hfirst'⟩ := hfits.first hf hwr hfirst
    rcases hbatch with ⟨_, hno⟩ | ⟨wr', _, hsel', _, hbest⟩
    · exact absurd hroom.1 (hno wr.id wr hwr)
    · have hid := congrArg (·.worker) (hbest.unique hfirst')
      simp only [scoreWorker_worker] at hid
      rw [hsel, hsel', hid]

/-- A worker is chosen for the request alone exactly if its batch can be placed. -/
theorem BatchFits.placeable_iff (hfits : s.BatchFits r) (hf : s.requests.find r = some rec) :
    (s.selectWorker [r] (s.memberCost r) s.now).1.valid = true ↔ ∃ wr, s.Placeable r wr := by
  rcases s.selectWorker_spec r [] (s.memberCost r) s.now with ⟨hsel, hno⟩ | ⟨wr, hwr, hsel, _, hfirst⟩
  · rw [hsel]
    refine iff_of_false (by decide) fun hplace => ?_
    obtain ⟨wr, hplace⟩ := hplace
    exact hno wr.id wr hplace.stored (rejectReason_alone hf hplace.takes.fits)
  · obtain ⟨hroom, hfirst'⟩ := hfits.first hf hwr hfirst
    rw [hsel]
    constructor
    · intro hvalid
      exact ⟨wr, hwr, hfirst', hvalid, hroom.1, hroom.2⟩
    · intro hplace
      obtain ⟨wr', hplace⟩ := hplace
      have hid := congrArg (·.worker) (hplace.first.unique hfirst')
      simp only [scoreWorker_worker] at hid
      rw [← hid]
      exact hplace.takes.valid

end Impl

end InferenceScheduler
