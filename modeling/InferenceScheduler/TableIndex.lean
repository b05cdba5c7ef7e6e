/-
The tables a request's enumerators index (`src/scheduler.cpp`, `flow_weight`
and `stats_.by_latency`; `types.hpp`, `latency_index`, `priority_index`): the
look-ups each operation makes, and when they are in range.

`validate_spec` looks at ids, estimates and sizes and at none of the three
enumerations, and `spec_from_json` casts any number to them. So an index is in
range exactly for the requests that name an enumerator of each.
-/
import InferenceScheduler.Fairness
import InferenceScheduler.Loss
import InferenceScheduler.Monotone
import InferenceScheduler.SpecMessage

namespace InferenceScheduler

/-! ## Look-ups -/

inductive WeightTable
  | latencyWeight | priorityWeight | phaseWeight | byLatency
  deriving DecidableEq

/-- The extent of the `std::array` or of `by_latency`. -/
def WeightTable.size : WeightTable → ℤ
  | .latencyWeight => 4
  | .priorityWeight => 5
  | .phaseWeight => 3
  | .byLatency => 4

/-- An index into a table, on behalf of a request. The source casts it to
`std::size_t`, which takes a negative one beyond every table. -/
structure Lookup where
  request : RequestId
  table : WeightTable
  index : ℤ
  deriving DecidableEq

/-- An index within the bounds of its table. -/
def Lookup.InBounds (l : Lookup) : Prop := 0 ≤ l.index ∧ l.index < l.table.size

instance (l : Lookup) : Decidable l.InBounds := inferInstanceAs (Decidable (_ ∧ _))

/-- The look-up of `stats_.by_latency[latency_index(…)]`. -/
def latencyLookup (rid : RequestId) (spec : RequestSpec) : Lookup := ⟨rid, .byLatency, latencyInt spec.latencyClass⟩

/-- The look-ups of `flow_weight`. -/
def weightLookups (rid : RequestId) (spec : RequestSpec) : List Lookup :=
  [⟨rid, .latencyWeight, latencyInt spec.latencyClass⟩,
   ⟨rid, .priorityWeight, priorityInt spec.priority⟩,
   ⟨rid, .phaseWeight, phaseInt spec.phase⟩]

/-- A specification that names an enumerator of each enumeration. -/
def RequestSpec.Named (spec : RequestSpec) : Prop :=
  spec.latencyClass ∈ [.background, .throughput, .standard, .interactive] ∧
    spec.priority ∈ [.background, .low, .medium, .high, .critical] ∧ spec.phase ∈ [.unknown, .prefill, .decode]

instance (spec : RequestSpec) : Decidable spec.Named := inferInstanceAs (Decidable (_ ∧ _ ∧ _))

theorem latencyClass_named_iff {l : LatencyClass} :
    l ∈ [.background, .throughput, .standard, .interactive] ↔ 0 ≤ latencyInt l ∧ latencyInt l < 4 := by
  cases l with
  | unnamed v h => simp only [latencyInt]; simp; omega
  | _ => decide

theorem priority_named_iff {p : PriorityClass} :
    p ∈ [.background, .low, .medium, .high, .critical] ↔ 0 ≤ priorityInt p ∧ priorityInt p < 5 := by
  cases p with
  | unnamed v h => simp only [priorityInt]; simp; omega
  | _ => decide

theorem phase_named_iff {p : RequestPhase} : p ∈ [.unknown, .prefill, .decode] ↔ 0 ≤ phaseInt p ∧ phaseInt p < 3 := by
  cases p with
  | unnamed v h => simp only [phaseInt]; simp; omega
  | _ => decide

/-- `flow_weight` stays within its tables exactly for named specifications. -/
theorem weightLookups_inBounds_iff {rid : RequestId} {spec : RequestSpec} :
    (∀ l ∈ weightLookups rid spec, l.InBounds) ↔ spec.Named := by
  simp only [weightLookups, RequestSpec.Named, latencyClass_named_iff, priority_named_iff, phase_named_iff,
    List.forall_mem_cons, Lookup.InBounds, WeightTable.size, List.not_mem_nil, false_imp_iff, implies_true, and_true]

theorem latencyLookup_inBounds {rid : RequestId} {spec : RequestSpec} (h : spec.Named) :
    (latencyLookup rid spec).InBounds :=
  latencyClass_named_iff.1 h.1

namespace Impl

/-- The look-ups of `do_submit` for a valid spec: the statistics by the spec
that is submitted, and the weight by the record that is enqueued, which is the
one already stored under the id if there is one. -/
def submitLookups (s : Impl) (spec : RequestSpec) (rid : RequestId) : List Lookup :=
  match (s.makeAdmission spec s.now).1 with
  | .admitted =>
    if spec.deadline.valid && spec.deadline.expired s.now then [latencyLookup rid spec]
    else latencyLookup rid spec :: weightLookups rid (((s.requests.find rid).map (·.spec)).getD spec)
  | .defer | .reject => []

/-- The look-ups of `do_complete` for a report that passed the checks: the
statistics of a success, the weight of a request enqueued again. -/
def concludeLookups (s : Impl) (rec : RequestRecord) (r : CompletionReport) : List Lookup :=
  match r.status with
  | .succeeded => if rec.cancellationRequested then [] else [latencyLookup rec.requestId rec.spec]
  | .failed | .ambiguous =>
    if retryable s.cfg r && canRetry s.cfg rec s.now then weightLookups rec.requestId rec.spec else []
  | .cancelled | .expired | .stale | .unnamed .. => []

/-- The look-ups of `do_complete`. -/
def completeLookups (s : Impl) (r : CompletionReport) : List Lookup :=
  if r.epoch.value ≠ s.epochValue then []
  else if !(s.pool.workers.find r.worker).any (fun wr => wr.registration.bootId == r.bootId) then []
  else
    match s.requests.find r.requestId with
    | none => []
    | some rec =>
      if rec.currentAttempt ≠ r.attemptId ∨ rec.generation ≠ r.generation then []
      else if isTerminal rec.state then []
      else if rec.cancellationCommitted then []
      else s.concludeLookups rec r

/-- The look-ups of one round of `recover_in_flight`. -/
def recoverLookup (s : Impl) (rid : RequestId) : List Lookup :=
  match s.requests.find rid with
  | none => []
  | some rec =>
    if isTerminal rec.state then []
    else if canRetry s.cfg rec s.now then weightLookups rec.requestId rec.spec else []

/-- The look-ups of the rounds of `recover_in_flight`, each from the state the
rounds before it left. -/
def recoverLookups (worker : WorkerId) (bootId : WorkerBootId) : Impl → List RequestId → List Lookup
  | _, [] => []
  | s, rid :: rids => s.recoverLookup rid ++ recoverLookups worker bootId (recoverRequest worker bootId s rid) rids

/-- The look-ups of `recover_in_flight`. -/
def lossLookups (s : Impl) (worker : WorkerId) : List Lookup :=
  match s.pool.workers.find worker with
  | none => []
  | some wr => recoverLookups worker wr.registration.bootId s (inFlightIds wr)

/-- The look-ups of an operation. -/
def lookups (s : Impl) : Op → List Lookup
  | .submit spec pre =>
    match validateSpec spec with
    | .error _ => []
    | .ok () =>
      match pre with
      | some rid => s.submitLookups spec rid
      | none => s.drawId.submitLookups spec s.idFactory.peek
  | .complete r => s.completeLookups r
  | .registerWorker reg => if s.bootChanged reg then s.lossLookups reg.worker else []
  | .unregisterWorker w => s.lossLookups w
  | .planDispatch .. | .planNextSeed | .confirmStart _ | .cancel .. | .cancelAllQueued _ | .updateCapability ..
  | .setWorkerState .. | .beginDrain _ | .rollEpoch | .advance _ => []

/-! ## Named requests -/

/-- Every stored request names its enumerators. -/
def AllNamed (s : Impl) : Prop := ∀ r rec, s.requests.find r = some rec → rec.spec.Named

variable {s : Impl}

theorem AllNamed.submitLookups (h : s.AllNamed) {spec : RequestSpec} (hspec : spec.Named) (rid : RequestId) :
    ∀ l ∈ s.submitLookups spec rid, l.InBounds := by
  have hstored : (((s.requests.find rid).map (·.spec)).getD spec).Named := by
    cases hf : s.requests.find rid with
    | none => exact hspec
    | some rec => exact h rid rec hf
  unfold Impl.submitLookups
  split
  · split
    · exact List.forall_mem_singleton.2 (latencyLookup_inBounds hspec)
    · exact List.forall_mem_cons.2 ⟨latencyLookup_inBounds hspec, weightLookups_inBounds_iff.2 hstored⟩
  · simp
  · simp

theorem concludeLookups_inBounds {rec : RequestRecord} (h : rec.spec.Named) (r : CompletionReport) :
    ∀ l ∈ s.concludeLookups rec r, l.InBounds := by
  have hweight : ∀ l ∈ weightLookups rec.requestId rec.spec, l.InBounds := weightLookups_inBounds_iff.2 h
  unfold concludeLookups
  split
  · split
    · simp
    · exact List.forall_mem_singleton.2 (latencyLookup_inBounds h)
  all_goals first | (split; exact hweight; simp) | simp

theorem AllNamed.completeLookups (h : s.AllNamed) (r : CompletionReport) : ∀ l ∈ s.completeLookups r, l.InBounds := by
  unfold Impl.completeLookups
  repeat' split
  all_goals first | simp | (next rec hf _ _ _ => exact concludeLookups_inBounds (h _ rec hf) r)

theorem AllNamed.recoverLookup (h : s.AllNamed) (rid : RequestId) : ∀ l ∈ s.recoverLookup rid, l.InBounds := by
  unfold Impl.recoverLookup
  repeat' split
  all_goals first | simp | (next rec hf _ _ => exact weightLookups_inBounds_iff.2 (h _ rec hf))

/-- A round writes a record with the spec it had. -/
theorem AllNamed.recoverRequest (h : s.AllNamed) (w : WorkerId) (boot : WorkerBootId) (rid : RequestId) :
    (recoverRequest w boot s rid).AllNamed := by
  rcases recoverRequest_cases w boot s rid with ⟨hs, _⟩ | ⟨rec, m, hf, _, hcore, hm, _⟩
  · rwa [hs]
  have hput : ∃ new : RequestRecord, (s.core.act m).requests = s.requests.put new ∧ new.spec = rec.spec := by
    rcases hm with ⟨rfl, _⟩ | rfl
    · exact ⟨_, rfl, by simp [RequestRecord.retry, RequestRecord.noteFailure]⟩
    · exact ⟨_, rfl, by simp [Ending.close, Ending.note, RequestRecord.fail, RequestRecord.noteFailure]⟩
  obtain ⟨new, hnew, hspec⟩ := hput
  intro r rec' hf'
  replace hf' : (s.requests.put new).find r = some rec' := by
    rw [← hnew, ← hcore]
    exact hf'
  rw [Keyed.find_put] at hf'
  split at hf'
  · cases hf'
    exact hspec ▸ h rid rec hf
  · exact h r rec' hf'

theorem AllNamed.recoverLookups (w : WorkerId) (boot : WorkerBootId) : ∀ (rids : List RequestId) {s : Impl},
    s.AllNamed → ∀ l ∈ recoverLookups w boot s rids, l.InBounds
  | [], _, _ => by simp [Impl.recoverLookups]
  | rid :: rids, s, h => by
    rw [Impl.recoverLookups, List.forall_mem_append]
    exact ⟨h.recoverLookup rid, AllNamed.recoverLookups w boot rids (h.recoverRequest w boot rid)⟩

theorem AllNamed.lossLookups (h : s.AllNamed) (w : WorkerId) : ∀ l ∈ s.lossLookups w, l.InBounds := by
  unfold Impl.lossLookups
  split
  · simp
  · exact AllNamed.recoverLookups w _ _ h

/-- A submission that returns a result names its enumerators. -/
def NamedSubmit (_s : Impl) : Op → Prop
  | .submit spec _ => validateSpec spec = .ok () → spec.Named
  | _ => True

instance (s : Impl) (op : Op) : Decidable (NamedSubmit s op) := by
  apply @Op.casesOn _ op <;> (intros; dsimp only [NamedSubmit]; infer_instance)

theorem AllNamed.next (h : s.AllNamed) {op : Op} (hop : NamedSubmit s op) : (scheduler.next s op).AllNamed := by
  refine specs_next (fun spec pre heq hv => ?_) h
  subst heq
  exact hop hv

/-- While every stored request names its enumerators, so that the submitted
one does, every look-up of an operation is in range. -/
theorem AllNamed.lookups (h : s.AllNamed) {op : Op} (hop : NamedSubmit s op) : ∀ l ∈ s.lookups op, l.InBounds := by
  cases op with
  | submit spec pre =>
    simp only [Impl.lookups]
    split
    · simp
    · next hv =>
      split
      · exact h.submitLookups (hop hv) _
      · exact AllNamed.submitLookups (s := s.drawId) h (hop hv) _
  | complete r => exact h.completeLookups r
  | registerWorker reg =>
    simp only [Impl.lookups]
    split
    · exact h.lossLookups reg.worker
    · simp
  | unregisterWorker w => exact h.lossLookups w
  | _ => simp [Impl.lookups]

/-- The id a submission is stored under. -/
def submitId (s : Impl) (pre : Option RequestId) : RequestId := pre.getD s.idFactory.peek

/-- A new request that is admitted is looked up by its own enumerators. -/
theorem lookups_of_admits {spec : RequestSpec} {pre : Option RequestId} (hnew : s.requests.find (s.submitId pre) = none)
    (had : s.admits spec pre = true) :
    s.lookups (.submit spec pre) = latencyLookup (s.submitId pre) spec :: weightLookups (s.submitId pre) spec := by
  obtain ⟨hv, hadm⟩ := (admits_iff pre).1 had
  have hsubmit : ∀ {t : Impl} {rid : RequestId}, Admissible t spec → t.requests.find rid = none →
      t.submitLookups spec rid = latencyLookup rid spec :: weightLookups rid spec := by
    intro t rid hadm hnew
    simp only [submitLookups, (makeAdmission_admitted_iff t spec).2 hadm, if_neg hadm.inTime, hnew, Option.map_none,
      Option.getD_none]
  simp only [lookups, hv]
  cases pre with
  | some rid => exact hsubmit hadm hnew
  | none =>
    have hdrawn : Admissible s.drawId spec :=
      (makeAdmission_admitted_iff _ spec).1 ((makeAdmission_admitted_iff s spec).2 hadm)
    exact hsubmit hdrawn hnew

end Impl

/-- **Table look-ups.** In every run in which each submission that returns a
result names its enumerators, every look-up of every operation is in range.
Those of a new request that is admitted are in range only then. -/
theorem lookups_in_range (cfg : SchedulerConfig) (now : ClockTime) (salt : UInt64) (epoch : Option SchedulerEpoch)
    (ops : List Op) (s : Impl) (spec : RequestSpec) (pre : Option RequestId) :
    (scheduler.Allowed Impl.NamedSubmit (.init cfg now salt epoch) ops →
      ∀ e ∈ scheduler.trace (.init cfg now salt epoch) ops, ∀ l ∈ e.pre.lookups e.input, l.InBounds) ∧
    (s.requests.find (s.submitId pre) = none → s.admits spec pre = true →
      ((∀ l ∈ s.lookups (.submit spec pre), l.InBounds) ↔ spec.Named)) := by
  refine ⟨fun hok e he => ?_, fun hnew had => ?_⟩
  · obtain ⟨js, op, ks, rfl, rfl⟩ := Machine.exists_of_mem_trace he
    obtain ⟨hjs, hop, _⟩ := Machine.allowed_append.1 hok
    have hnamed : (scheduler.run (.init cfg now salt epoch) js).AllNamed :=
      Machine.run_invariant (I := Impl.AllNamed) (fun s op hop h => h.next hop) (fun r rec hf => nomatch hf) hjs
    exact hnamed.lookups hop
  · rw [Impl.lookups_of_admits hnew had, List.forall_mem_cons, weightLookups_inBounds_iff]
    exact ⟨And.right, fun h => ⟨latencyLookup_inBounds h, h⟩⟩

/-- A request that is admitted, runs and is enqueued again after a failure. -/
theorem lookups_in_range_retried :
    let s := Impl.init {} 0 0x80000001 none
    let ops : List Op := [.registerWorker (plainWorker 3), .submit plainSpec (some ⟨7⟩), .planDispatch ⟨7⟩ false,
      .confirmStart (firstReport 3 .failed), .complete (firstReport 3 .failed)]
    ((scheduler.trace s ops).map fun e => (e.pre.lookups e.input).length) = [0, 4, 0, 0, 3] ∧
      (∀ e ∈ scheduler.trace s ops, ∀ l ∈ e.pre.lookups e.input, l.InBounds) ∧
      ((∀ l ∈ s.lookups (.submit plainSpec (some ⟨7⟩)), l.InBounds) ↔ plainSpec.Named) := by
  intro s ops
  obtain ⟨hrun, hsubmit⟩ := lookups_in_range {} 0 0x80000001 none ops s plainSpec (some ⟨7⟩)
  exact ⟨by decide +kernel, hrun (by decide +kernel), hsubmit (by decide +kernel) (by decide +kernel)⟩

/-- The text of a submission that gives 9 for its latency class. -/
def latencyNine : String :=
  "\x7b\x22op\x22:\x22submit\x22,\x22tenant\x22:\x221\x22,\x22model\x22:\x221\x22,\x22latency\x22:9\x7d"

/-- The submission is admitted, and indexes tables of four entries with 9: at
once, and again when its worker reports a failure or a success. -/
theorem latency_nine_looked_up :
    let spec := Net.specFromJson (Net.recvJson Net.plainNumerals latencyNine.toList)
    let s := Impl.init {} 0 0x80000001 none
    let t := scheduler.run s [.registerWorker (plainWorker 3), .submit spec (some ⟨7⟩), .planDispatch ⟨7⟩ false,
      .confirmStart (firstReport 3 .failed)]
    (Net.handleSubmit Net.plainNumerals s latencyNine.toList).isSome ∧ s.admits spec none = true ∧
      s.lookups (.submit spec none) =
        [⟨s.submitId none, .byLatency, 9⟩, ⟨s.submitId none, .latencyWeight, 9⟩, ⟨s.submitId none, .priorityWeight, 2⟩,
          ⟨s.submitId none, .phaseWeight, 1⟩] ∧
      (∃ l ∈ s.lookups (.submit spec none), ¬l.InBounds) ∧
      (∃ l ∈ t.lookups (.complete (firstReport 3 .failed)), ¬l.InBounds) ∧
      ∃ l ∈ t.lookups (.complete (firstReport 3 .succeeded)), ¬l.InBounds := by
  decide +kernel

end InferenceScheduler
