/-
When planning dispatches. `do_plan_dispatch` forms the batch of a request
before it looks at a worker, so what has to fit is the batch: the worker that
ranks first among those eligible for its total cost must have room for the sum
of its members' rounded costs (`Placeable`). `plan_dispatch` answers `Dispatch`
exactly then (`dispatches_iff`).
-/
import InferenceScheduler.Lapse
import InferenceScheduler.Choice

namespace InferenceScheduler

/-- A worker that can take requests of this kind and has room for `units`. -/
@[mk_iff] structure WorkerRecord.HasRoom (wr : WorkerRecord) (spec : RequestSpec) (units : ℤ) : Prop where
  up : wr.state = .online ∨ wr.state = .busy
  fits : compatible spec wr.registration.capability = true
  total : units ≤ wr.registration.capability.totalCapacityUnits
  avail : units ≤ wr.avail

instance (wr : WorkerRecord) (spec : RequestSpec) (units : ℤ) : Decidable (wr.HasRoom spec units) :=
  decidable_of_iff _ (WorkerRecord.hasRoom_iff wr spec units).symm

/-- What `score_worker` asks of a worker. -/
theorem rejectReason_eq_none {wr : WorkerRecord} {spec : RequestSpec} {cost : ℚ} {now : ClockTime} :
    rejectReason wr spec cost now = none ↔ wr.HasRoom spec (ceilCost cost) ∧ spec.deadline.expired now = false := by
  have htotal : compatible spec wr.registration.capability = true →
      0 < wr.registration.capability.totalCapacityUnits := by
    intro h
    simp only [compatible, Bool.and_eq_true, decide_eq_true_eq] at h
    exact h.1.1.1.1
  have hlate : (spec.deadline.valid && spec.deadline.expired now) = spec.deadline.expired now := by
    cases hexp : spec.deadline.expired now with
    | false => rw [Bool.and_false]
    | true => rw [Deadline.valid_of_expired hexp, Bool.and_true]
  simp only [rejectReason, hlate, gt_iff_lt]
  constructor
  · intro h
    split at h
    · cases h
    · next hstate =>
      split at h
      · cases h
      · next hcomp =>
        have hcomp : compatible spec wr.registration.capability = true := by simpa using hcomp
        have hpos := htotal hcomp
        split at h
        · cases h
        · next havail =>
          split at h
          · cases h
          · next hsize =>
            split at h
            · cases h
            · next hexp => exact ⟨⟨by tauto, hcomp, by omega, by omega⟩, Bool.eq_false_iff.2 hexp⟩
  · intro h
    obtain ⟨⟨hstate, hcomp, hsize, havail⟩, hexp⟩ := h
    rw [if_neg (by tauto), if_neg (by simp [hcomp]), if_neg (by omega), if_neg (by omega), if_neg (by simp [hexp])]

namespace Impl

variable {s : Impl} {r : RequestId} {rec : RequestRecord} {wr : WorkerRecord}

/-- A worker that takes the batch formed around a request. -/
structure Takes (s : Impl) (r : RequestId) (wr : WorkerRecord) : Prop where
  valid : wr.id.valid = true
  fits : rejectReason wr (s.specOf r) (s.batchCost (s.planMembers r s.now)) s.now = none
  units : s.batchUnits (s.planMembers r s.now) ≤ wr.avail

/-- The worker that ranks first for the batch of a request takes it. -/
structure Placeable (s : Impl) (r : RequestId) (wr : WorkerRecord) : Prop where
  stored : s.pool.workers.find wr.id = some wr
  first : Chosen (s.scores r (s.batchCost (s.planMembers r s.now)) s.now)
    (scoreWorker s.cfg wr (s.specOf r) (s.batchCost (s.planMembers r s.now)) s.now)
  takes : s.Takes r wr

theorem planRunnable_dispatches_iff (hf : s.requests.find r = some rec) (ex : Bool) :
    (s.planRunnable rec s.now ex).2.decision = .dispatch ↔ ∃ wr, s.Placeable r wr := by
  obtain rfl := Keyed.key_of_find hf
  obtain ⟨n, hmembers⟩ : ∃ n, s.planMembers rec.requestId s.now = rec.requestId :: _ := planMembers_cons hf
  have hspec := s.selectWorker_spec rec.requestId ((s.candidates rec.requestId rec.spec s.now).take n)
    (s.batchCost (s.planMembers rec.requestId s.now)) s.now
  rw [← hmembers] at hspec
  unfold planRunnable
  simp only
  rcases hspec with ⟨hchosen, hnone⟩ | ⟨wr, hwr, hchosen, hfit, hbest⟩
  · rw [hchosen, if_pos (by decide)]
    simp only [reduceCtorEq, false_iff, not_exists]
    exact fun wr hwr => hnone wr.id wr hwr.stored hwr.takes.fits
  · -- Only the chosen worker can be the one that ranks first.
    have hfirst : ∀ wr', s.Placeable rec.requestId wr' → wr' = wr := by
      intro wr' hwr'
      have hid := congrArg (·.worker) (hwr'.first.unique hbest)
      simp only [scoreWorker_worker] at hid
      exact Option.some.inj (hwr'.stored.symm.trans (hid ▸ hwr))
    have hpos := (rejectReason_eq_none.1 hfit).1.total
    have hone := ceilCost_pos (s.batchCost (s.planMembers rec.requestId s.now))
    rw [hchosen, hwr]
    dsimp only
    split
    · next hv =>
      simp only [reduceCtorEq, false_iff, not_exists]
      intro wr' hwr'
      obtain rfl := hfirst wr' hwr'
      simp [hwr'.takes.valid] at hv
    · next hv =>
      split
      · next hroom =>
        simp only [reduceCtorEq, false_iff, not_exists]
        intro wr' hwr'
        obtain rfl := hfirst wr' hwr'
        exact absurd hwr'.takes.units (not_le.2 hroom.2)
      · next hroom =>
        simp only [true_iff]
        refine ⟨wr, hwr, hbest, by simpa using hv, hfit, ?_⟩
        exact not_lt.1 fun hlt => hroom ⟨by omega, hlt⟩

/-- The expiry of overdue requests changes nothing about the batch of another. -/
theorem placeable_lapsed {t : Impl} (h : Lapsed s.now s.core t.core) : t.Placeable r wr ↔ s.Placeable r wr := by
  have hcfg : t.cfg = s.cfg := h.cfg
  have hnow : t.now = s.now := h.clock
  have hpool : t.pool = s.pool := h.pool
  have hspec : t.specOf = s.specOf := specOf_congr h.spec
  have hmembers : t.planMembers r t.now = s.planMembers r s.now := by
    rw [hnow]
    exact planMembers_lapsed h r
  have hcost := batchCost_congr hspec
  have hunits := batchUnits_congr hspec
  constructor
  · intro hp
    obtain ⟨hstored, hfirst, hvalid, hfits, hroom⟩ := hp
    rw [hmembers, hcost, hnow, hspec] at hfits
    rw [hmembers, hunits] at hroom
    rw [scores, hmembers, hcost, hnow, hspec, hcfg, hpool] at hfirst
    exact ⟨hpool ▸ hstored, hfirst, hvalid, hfits, hroom⟩
  · intro hp
    obtain ⟨hstored, hfirst, hvalid, hfits, hroom⟩ := hp
    refine ⟨hpool ▸ hstored, ?_, hvalid, ?_, ?_⟩
    · rw [scores, hmembers, hcost, hnow, hspec, hcfg, hpool]
      exact hfirst
    · rw [hmembers, hcost, hnow, hspec]
      exact hfits
    · rw [hmembers, hunits]
      exact hroom

/-- A request that waits in time is planned after the expiry scan. -/
theorem doPlanDispatch_waits (hr : s.core.Waits r rec) (hexp : rec.spec.deadline.expired s.now = false) (ex : Bool) :
    s.doPlanDispatch r ex =
      (((s.expireScan s.now).planRunnable rec s.now ex).1,
        .ok ((s.expireScan s.now).planRunnable rec s.now ex).2) := by
  have hf : (s.expireScan s.now).requests.find r = some rec := (s.lapsed_expireScan s.now).keeps hr.1 fun _ => hexp
  have hstate : rec.state = .queued := hr.2
  simp only [doPlanDispatch, hf, hexp, Bool.and_false, Bool.false_eq_true, if_false, hstate, ne_eq, not_true_eq_false,
    false_and]

theorem dispatches_iff_placeable (hr : s.core.Waits r rec) (hexp : rec.spec.deadline.expired s.now = false) (ex : Bool) :
    s.Dispatches r ex ↔ ∃ wr, s.Placeable r wr := by
  have hlapsed := s.lapsed_expireScan s.now
  have hplan := planRunnable_dispatches_iff (hlapsed.keeps hr.1 fun _ => hexp) ex
  rw [show (s.expireScan s.now).now = s.now from hlapsed.clock] at hplan
  simp only [Dispatches, doPlanDispatch_waits hr hexp, Except.ok.injEq, exists_eq_left']
  rw [hplan]
  exact exists_congr fun wr => placeable_lapsed hlapsed

/-! ## A request alone -/

/-- A request dispatched alone fits where its own rounded cost does. -/
theorem placeable_alone (hr : s.core.Waits r rec) (hexp : rec.spec.deadline.expired s.now = false)
    (halone : s.planMembers r s.now = [r]) (hvalid : ∀ w wr, s.pool.workers.find w = some wr → wr.id.valid = true)
    (hroom : ∃ w wr, s.pool.workers.find w = some wr ∧ wr.HasRoom rec.spec (ceilCost rec.spec.demand.costUnits)) :
    ∃ wr, s.Placeable r wr := by
  have hspec : s.specOf r = rec.spec := specOf_of_find hr.1
  have hcost : ceilCost (s.batchCost (s.planMembers r s.now)) = ceilCost rec.spec.demand.costUnits := by
    rw [halone, batchCost, List.map_singleton, List.sum_singleton, memberCost, hspec, ceilCost_max_one]
  have hunits : s.batchUnits (s.planMembers r s.now) = ceilCost rec.spec.demand.costUnits := by
    rw [halone, batchUnits, List.map_singleton, List.sum_singleton, hspec]
  obtain ⟨w, wr, hf, hfits⟩ := hroom
  rcases s.selectWorker_spec r [] (s.batchCost (s.planMembers r s.now)) s.now with ⟨_, hnone⟩ | ⟨wr', hf', _, hfit, hbest⟩
  · refine absurd (rejectReason_eq_none.2 ⟨?_, ?_⟩) (hnone w wr hf)
    · rw [hspec, hcost]
      exact hfits
    · rw [hspec]
      exact hexp
  · refine ⟨wr', hf', hbest, hvalid _ wr' hf', hfit, ?_⟩
    rw [hunits, ← hcost]
    exact (rejectReason_eq_none.1 hfit).1.avail

/-- A worker of 8 units and requests 7 and 8, of the same kind and of these
costs. -/
def pairOfCost (c d : ℚ) : Impl :=
  scheduler.run (Impl.init {} 0 0x80000001 none) [.registerWorker (plainWorker 3),
    .submit { plainSpec with demand := { plainSpec.demand with costUnits := c } } (some ⟨7⟩),
    .submit { plainSpec with demand := { plainSpec.demand with costUnits := d } } (some ⟨8⟩)]

end Impl

end InferenceScheduler
