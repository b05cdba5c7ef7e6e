/-
Submission under an id that is already in use. `requests_.insert` keeps the
stored record, and the admission branch then enqueues that record as if it
were the new one: whatever its state was, it is queued again.
-/
import InferenceScheduler.Frozen

namespace InferenceScheduler

/-! ## When a submission is admitted -/

/-- The state admits a specification. -/
structure Admissible (s : Impl) (spec : RequestSpec) : Prop where
  serving : s.draining = false ∧ s.recoveryMode ≠ 1
  inTime : ¬(spec.deadline.valid && spec.deadline.expired s.now) = true
  feasible : s.cfg.admission.enforceDeadlineFeasibility = true → spec.deadline.valid = true →
    0 ≤ spec.deadline.remaining s.now ∧
      (0 < spec.deadline.remaining s.now → ceilCost spec.demand.costUnits ≤ spec.deadline.remaining s.now)
  admittedRoom : s.globalAdmitted < s.cfg.admission.maxGlobalAdmitted
  queuedRoom : s.ready.globalQueued < s.cfg.admission.maxGlobalQueued
  tokenRoom : 0 < s.cfg.admission.maxGlobalTokenBudget →
    s.globalTokens + spec.tokens.total ≤ s.cfg.admission.maxGlobalTokenBudget
  tenantRoom : ∀ t, s.tenants.find spec.tenant = some t →
    t.admitted < s.cfg.admission.defaultTenantConcurrency ∧ t.queued < s.cfg.admission.defaultTenantQueueDepth
  worker : s.pool.workers.records = [] ∨
    ∃ wr ∈ s.pool.workers.records, compatible spec wr.registration.capability = true

theorem check_admitted_iff {p : Prop} [Decidable p] {d : AdmissionDecision} {reason : String}
    {rest : AdmissionDecision × String} (hd : d ≠ .admitted) :
    (if p then (d, reason) else rest).1 = .admitted ↔ ¬p ∧ rest.1 = .admitted := by
  split
  · next hp => exact ⟨fun h => absurd h hd, fun h => absurd hp h.1⟩
  · next hp => exact ⟨fun h => ⟨hp, h⟩, fun h => h.2⟩

/-- `make_admission` admits exactly in these states. -/
theorem makeAdmission_admitted_iff (s : Impl) (spec : RequestSpec) :
    (s.makeAdmission spec s.now).1 = .admitted ↔ Admissible s spec := by
  have hinfeasible : (if s.cfg.strictDeadlineRejection then AdmissionDecision.reject else .defer) ≠ .admitted := by
    split <;> simp
  have hworker : (if s.pool.workers.records.isEmpty then (AdmissionDecision.admitted, "admitted")
      else if s.pool.workers.records.any (fun wr => compatible spec wr.registration.capability) then
        (.admitted, "admitted") else (.defer, "no_compatible_worker")).1 = .admitted ↔
      s.pool.workers.records = [] ∨
        ∃ wr ∈ s.pool.workers.records, compatible spec wr.registration.capability = true := by
    split
    · next h => simp [List.isEmpty_iff.1 h]
    · next h =>
      have hne : s.pool.workers.records ≠ [] := fun he => h (by simp [he])
      split
      · next hany => simpa using .inr (List.any_eq_true.1 hany)
      · next hany => simpa [hne] using hany
  unfold Impl.makeAdmission
  simp only
  rw [check_admitted_iff (by simp), check_admitted_iff (by simp), check_admitted_iff (by simp),
    check_admitted_iff (by simp), check_admitted_iff hinfeasible, check_admitted_iff (by simp),
    check_admitted_iff (by simp), check_admitted_iff (by simp),
    check_admitted_iff (by simp), check_admitted_iff (by simp), hworker]
  constructor
  · intro hx
    obtain ⟨hd, hr, ht, h₁, h₂, ha, hq, hb, hc, hn, hw⟩ := hx
    refine ⟨⟨by simpa using hd, hr⟩, ht, fun he hv => ?_, by omega, by omega, fun h => ?_, fun t htf => ?_, hw⟩
    · simp only [he, hv, true_and, not_and, not_lt, gt_iff_lt] at h₁ h₂
      exact ⟨h₁, h₂⟩
    · simp only [not_and, not_lt, gt_iff_lt] at hb
      exact hb h
    · simp only [htf, Option.any_some, decide_eq_true_eq, not_le, ge_iff_le] at hc hn
      exact ⟨hc, hn⟩
  · intro h
    have ha := h.admittedRoom
    have hq := h.queuedRoom
    refine ⟨by simp [h.serving.1], h.serving.2, h.inTime, ?_, ?_, by omega, by omega, ?_, ?_, ?_, h.worker⟩
    · intro hx
      obtain ⟨he, hv, hlt⟩ := hx
      have := (h.feasible he hv).1
      omega
    · intro hx
      obtain ⟨he, hv, hpos, hlt⟩ := hx
      have := (h.feasible he hv).2 hpos
      omega
    · intro hx
      obtain ⟨hpos, hlt⟩ := hx
      have := h.tokenRoom hpos
      omega
    · intro hany
      obtain ⟨t, htf, hle⟩ := (Option.any_eq_true _ _).1 hany
      have := (h.tenantRoom t htf).1
      simp only [ge_iff_le, decide_eq_true_eq] at hle
      omega
    · intro hany
      obtain ⟨t, htf, hle⟩ := (Option.any_eq_true _ _).1 hany
      have := (h.tenantRoom t htf).2
      simp only [ge_iff_le, decide_eq_true_eq] at hle
      omega

/-! ## Submitting again -/

/-- The stored request, the ready structures and the counters are as before. -/
structure Undisturbed (s s' : Impl) (rid : RequestId) : Prop where
  record : ∃ rec rec', s.requests.find rid = some rec ∧ s'.requests.find rid = some rec' ∧ rec'.spec = rec.spec ∧
    rec'.state = rec.state ∧ rec'.currentAttempt = rec.currentAttempt ∧ rec'.generation = rec.generation ∧
    rec'.history = rec.history
  queued : s'.ready.queued = s.ready.queued
  heaps : ∀ k, (s'.ready.flow k).pending = (s.ready.flow k).pending
  globalAdmitted : s'.globalAdmitted = s.globalAdmitted
  globalQueued : s'.ready.globalQueued = s.ready.globalQueued
  tenants : s'.tenants = s.tenants

theorem Undisturbed.of_frame {s s' : Impl} {rid : RequestId} {rec : RequestRecord}
    (hf : s.requests.find rid = some rec) (hreq : s'.requests = s.requests) (hready : s'.ready = s.ready)
    (hadm : s'.globalAdmitted = s.globalAdmitted) (hten : s'.tenants = s.tenants) : Undisturbed s s' rid where
  record := ⟨rec, rec, hf, by rw [hreq]; exact hf, rfl, rfl, rfl, rfl, rfl⟩
  queued := by rw [hready]
  heaps := by rw [hready]; exact fun _ => rfl
  globalAdmitted := hadm
  globalQueued := by rw [hready]
  tenants := hten

theorem enqueueNew_globalQueued (s : Impl) (fresh : RequestRecord) (reason : String) :
    (s.enqueueNew fresh reason).1.ready.globalQueued = s.ready.globalQueued + 1 := by
  have hready : (s.insertRequest fresh).ready = s.ready := by
    unfold Impl.insertRequest
    split <;> rfl
  rw [← hready]
  rfl

/-- The admission branch counts one more queued request. -/
theorem admitAs_globalQueued {s : Impl} {spec : RequestSpec} (rid : RequestId) (reason : String)
    (ht : ¬(spec.deadline.valid && spec.deadline.expired s.now) = true) :
    (s.admitAs spec rid reason).1.ready.globalQueued = s.ready.globalQueued + 1 := by
  unfold Impl.admitAs
  simp only
  rw [if_neg ht]
  exact enqueueNew_globalQueued _ _ _

theorem submitAs_undisturbed_iff {s : Impl} {rid : RequestId} {rec : RequestRecord} (spec : RequestSpec)
    (hf : s.requests.find rid = some rec) :
    Undisturbed s (s.submitAs spec rid).1 rid ↔ ¬Admissible s spec := by
  have hiff := makeAdmission_admitted_iff s spec
  unfold Impl.submitAs
  split
  · next reason hm =>
    have hadm : Admissible s spec := hiff.1 (by rw [hm])
    refine ⟨fun h => ?_, fun h => absurd hadm h⟩
    have := h.globalQueued
    rw [admitAs_globalQueued rid reason hadm.inTime] at this
    omega
  · next reason hm =>
    refine ⟨fun _ hadm => ?_, fun _ => .of_frame hf rfl rfl rfl rfl⟩
    have := hiff.2 hadm
    rw [hm] at this
    cases this
  · next reason hm =>
    refine ⟨fun _ hadm => ?_, fun _ => ?_⟩
    · have := hiff.2 hadm
      rw [hm] at this
      cases this
    · unfold Impl.reject
      simp only
      rw [Impl.insertRequest_of_some hf]
      exact .of_frame hf rfl rfl rfl rfl

end InferenceScheduler
