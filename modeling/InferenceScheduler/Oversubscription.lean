/-
The capacity of a worker. A plan compares a batch with the units the worker
advertises less those reserved on it, and a start moves the units of a batch
from reserved to running: from then on no plan counts them. A worker stays
within its capacity as long as each batch planned also fits beside what runs.
-/
import InferenceScheduler.Members
import InferenceScheduler.Frozen

namespace InferenceScheduler

open Machine

namespace WorkerRecord

/-- The batches that have not started are covered by the reserved units, so
no later release has to be clamped. -/
structure Covered (wr : WorkerRecord) : Prop where
  reserved : wr.unitsWhere false ≤ wr.reservedUnits
  running : 0 ≤ wr.runningUnits
  units : ∀ b u, wr.batchUnits.lookup b = some u → 0 ≤ u

namespace Covered

variable {wr : WorkerRecord}

theorem reserved_nonneg (h : wr.Covered) : 0 ≤ wr.reservedUnits :=
  Int.le_trans (unitsWhere_nonneg h.units false) h.reserved

/-- The units that `SameWork` allows to be clamped need no clamping. -/
theorem reserved_eq {wr' : WorkerRecord} (h : wr.Covered) (hs : wr.SameWork wr') :
    wr'.reservedUnits = wr.reservedUnits := by
  rcases hs.1 with hres | hres
  · exact hres
  · rw [hres, clamp0_of_nonneg h.reserved_nonneg]

theorem of_sameWork {wr' : WorkerRecord} (h : wr.Covered) (hs : wr.SameWork wr') : wr'.Covered := by
  have hres := h.reserved_eq hs
  obtain ⟨_, hrun, hunits, _, _, hst, _⟩ := hs
  have hw := unitsWhere_congr hunits hst false
  exact ⟨by rw [hw, hres]; exact h.reserved, by rw [hrun]; exact h.running, by rw [hunits]; exact h.units⟩

/-- A worker that holds nothing. -/
theorem default : ({} : WorkerRecord).Covered := ⟨Int.le_refl 0, Int.le_refl 0, by simp⟩

theorem unitsOf_nonneg (h : wr.Covered) (b : BatchId) : 0 ≤ wr.unitsOf b := by
  unfold unitsOf
  cases hb : wr.batchUnits.lookup b with
  | none => exact Int.le_refl 0
  | some u => exact h.units b u hb

theorem startingUnits_nonneg (h : wr.Covered) (b : BatchId) : 0 ≤ wr.startingUnits b := by
  unfold startingUnits
  split
  · exact Int.le_refl 0
  · exact h.unitsOf_nonneg b

theorem dropBatch (h : wr.Covered) (b : BatchId) : (wr.dropBatch b).Covered := by
  have hu := h.unitsOf_nonneg b
  refine ⟨?_, clamp0_nonneg _, fun b' u hb' => ?_⟩
  · rw [unitsWhere_dropBatch]
    have hres := h.reserved
    cases hst : wr.started b <;>
      simp only [WorkerRecord.dropBatch, hst, clamp0, Bool.false_eq_true, reduceCtorEq, ↓reduceIte] <;>
      split <;> omega
  · simp only [WorkerRecord.dropBatch, Table.lookup_erase_eq] at hb'
    split at hb'
    · cases hb'
    · exact h.units b' u hb'

theorem leave (h : wr.Covered) (rec : RequestRecord) : (wr.leave rec).Covered := by
  obtain ⟨flight, pending, he⟩ := wr.leave_cases rec
  have hkeep : Covered { wr with inFlight := flight, batchPending := pending } := ⟨h.reserved, h.running, h.units⟩
  rcases he with he | he <;> rw [he]
  · exact hkeep
  · exact hkeep.dropBatch rec.batchId

/-- A start moves units from reserved to running. -/
theorem startMember (h : wr.Covered) (b : BatchId) (rid : RequestId) (att : AttemptId) (snap : ResourceSnapshot) :
    (wr.startMember b rid att snap).Covered := by
  refine ⟨?_, Int.add_nonneg h.running (h.startingUnits_nonneg b), h.units⟩
  rw [unitsWhere_startMember]
  have hres := h.reserved
  simp only [WorkerRecord.startMember, Bool.false_eq_true, ↓reduceIte]
  omega

theorem unitsWhere_takeBatch_le {b : BatchId} {units : ℤ} (h : wr.Covered) (members : List RequestId)
    (hu : 0 ≤ units) : (wr.takeBatch b units members).unitsWhere false ≤ wr.unitsWhere false + units := by
  have hins := Table.sum_insert_erase wr.batchUnits (fun b' u => if wr.started b' = false then u else 0) b units
  have hnew : (if wr.started b = false then units else 0) ≤ units := by split <;> omega
  have hold : Table.sum (wr.batchUnits.erase b) (fun b' u => if wr.started b' = false then u else 0) ≤
      wr.unitsWhere false := by
    cases hb : wr.batchUnits.lookup b with
    | none => rw [Table.sum_erase_of_none hb, unitsWhere]
    | some u =>
      have := h.units b u hb
      rw [Table.sum_erase hb, unitsWhere]
      split <;> omega
  have hsum : (wr.takeBatch b units members).unitsWhere false = _ := hins
  omega

/-- A batch, under whatever id. -/
theorem takeBatch {b : BatchId} {units : ℤ} (h : wr.Covered) (members : List RequestId) (hu : 0 ≤ units) :
    (wr.takeBatch b units members).Covered := by
  refine ⟨?_, h.running, fun b' u hb' => ?_⟩
  · have hle := h.unitsWhere_takeBatch_le (b := b) members hu
    have hres := h.reserved
    simp only [WorkerRecord.takeBatch] at hle ⊢
    omega
  · simp only [WorkerRecord.takeBatch, Table.lookup_insert_eq] at hb'
    split at hb'
    · cases hb'
      exact hu
    · exact h.units b' u hb'

theorem sweep (wr : WorkerRecord) : wr.sweep.Covered :=
  ⟨clamp0_nonneg _, clamp0_nonneg _, by simp [WorkerRecord.sweep]⟩

end Covered

/-- A worker within its capacity. The batches that have not started are
covered by the reserved units, so no later release has to be clamped. -/
structure Within (wr : WorkerRecord) : Prop where
  reserved : wr.unitsWhere false ≤ wr.reservedUnits
  running : 0 ≤ wr.runningUnits
  units : ∀ b u, wr.batchUnits.lookup b = some u → 0 ≤ u
  capacity : wr.reservedUnits + wr.runningUnits ≤ wr.registration.capability.totalCapacityUnits

theorem Covered.within {wr : WorkerRecord} (h : wr.Covered)
    (hcap : wr.reservedUnits + wr.runningUnits ≤ wr.registration.capability.totalCapacityUnits) : wr.Within :=
  ⟨h.reserved, h.running, h.units, hcap⟩

namespace Within

variable {wr : WorkerRecord}

theorem covered (h : wr.Within) : wr.Covered := ⟨h.reserved, h.running, h.units⟩

theorem of_sameWork {wr' : WorkerRecord} (h : wr.Within) (hs : wr.SameWork wr')
    (hcap : wr'.registration.capability.totalCapacityUnits = wr.registration.capability.totalCapacityUnits) :
    wr'.Within := by
  refine (h.covered.of_sameWork hs).within ?_
  rw [h.covered.reserved_eq hs, hs.2.1, hcap]
  exact h.capacity

/-- A worker that holds nothing is within any capacity. -/
theorem of_new {wr' : WorkerRecord} (hs : SameWork {} wr')
    (hcap : 0 ≤ wr'.registration.capability.totalCapacityUnits) : wr'.Within := by
  refine (Covered.default.of_sameWork hs).within ?_
  rw [Covered.default.reserved_eq hs, hs.2.1]
  exact hcap

theorem dropBatch (h : wr.Within) (b : BatchId) : (wr.dropBatch b).Within := by
  have hu := h.covered.unitsOf_nonneg b
  have hn := h.covered.reserved_nonneg
  have hrun := h.running
  have hcap := h.capacity
  refine (h.covered.dropBatch b).within ?_
  cases hst : wr.started b <;>
    simp only [WorkerRecord.dropBatch, hst, clamp0, Bool.false_eq_true, ↓reduceIte] <;>
    split <;> split <;> omega

theorem leave (h : wr.Within) (rec : RequestRecord) : (wr.leave rec).Within := by
  obtain ⟨flight, pending, he⟩ := wr.leave_cases rec
  have hkeep : Within { wr with inFlight := flight, batchPending := pending } :=
    ⟨h.reserved, h.running, h.units, h.capacity⟩
  rcases he with he | he <;> rw [he]
  · exact hkeep
  · exact hkeep.dropBatch rec.batchId

/-- A start moves units from reserved to running. -/
theorem startMember (h : wr.Within) (b : BatchId) (rid : RequestId) (att : AttemptId) (snap : ResourceSnapshot) :
    (wr.startMember b rid att snap).Within := by
  refine (h.covered.startMember b rid att snap).within ?_
  have hcap := h.capacity
  simp only [WorkerRecord.startMember]
  omega

/-- A batch that fits beside what is reserved and what runs, under whatever
id. -/
theorem takeBatch {b : BatchId} {units : ℤ} (h : wr.Within) (members : List RequestId) (hu : 0 ≤ units)
    (hfit : wr.reservedUnits + wr.runningUnits + units ≤ wr.registration.capability.totalCapacityUnits) :
    (wr.takeBatch b units members).Within := by
  refine (h.covered.takeBatch members hu).within ?_
  simp only [WorkerRecord.takeBatch]
  omega

theorem sweep (h : wr.Within) : wr.sweep.Within := by
  have hsum : 0 ≤ wr.batchUnits.sum fun _ u => u := Table.sum_nonneg fun b u hb => h.units b u hb
  have hn := h.covered.reserved_nonneg
  have hrun := h.running
  have hcap := h.capacity
  refine (Covered.sweep wr).within ?_
  simp only [WorkerRecord.sweep, clamp0]
  split <;> split <;> omega

end Within

end WorkerRecord

/-! ## Runs -/

/-- A worker registers with all of its capacity available, keeps it, and
reports it available whenever a request starts. -/
def Steady (s : Impl) : Op → Prop
  | .registerWorker reg =>
    reg.capability.availableCapacityUnits = reg.capability.totalCapacityUnits ∧
      0 ≤ reg.capability.totalCapacityUnits ∧ ∀ wr ∈ s.pool.workers.find reg.worker,
        reg.capability.totalCapacityUnits = wr.registration.capability.totalCapacityUnits
  | .updateCapability w cap => ∀ wr ∈ s.pool.workers.find w,
      cap.availableCapacityUnits = wr.registration.capability.totalCapacityUnits ∧
        cap.totalCapacityUnits = wr.registration.capability.totalCapacityUnits
  | .confirmStart r => ∀ wr ∈ s.pool.workers.find r.worker,
      r.workerSnapshot.availableCapacityUnits = wr.registration.capability.totalCapacityUnits
  | _ => True

/-- A batch that a plan reserves fits beside what is reserved and what runs on
the worker it chooses. -/
def FitsBeside (s : Impl) : Op → Prop
  | .planDispatch request _ => ∀ wr members, Planned (s.expireScan s.now) request wr members →
      wr.reservedUnits + wr.runningUnits + (s.expireScan s.now).batchUnits members ≤
        wr.registration.capability.totalCapacityUnits
  | _ => True

/-- A plan can reserve one batch only, on one worker. -/
theorem fitsBeside_iff (s : Impl) (request : RequestId) (ex : Bool) : FitsBeside s (.planDispatch request ex) ↔
    let t := s.expireScan s.now
    let members := t.planMembers request t.now
    ∀ rec ∈ t.requests.find request, rec.state = .queued ∨ rec.state = .admitted →
      ∀ wr ∈ t.pool.workers.find (t.selectWorker members (t.batchCost members) t.now).1, wr.id.valid →
        ¬(wr.registration.capability.totalCapacityUnits > 0 ∧ t.batchUnits members > wr.avail) →
        wr.reservedUnits + wr.runningUnits + t.batchUnits members ≤
          wr.registration.capability.totalCapacityUnits := by
  constructor
  · intro h t members rec hrec hs wr hwr hv hfit
    exact h wr members ⟨⟨rec, hrec, hs⟩, rfl, hwr, hv, hfit⟩
  · intro h wr members hx
    obtain ⟨⟨rec, hrec, hs⟩, rfl, hwr, hv, hfit⟩ := hx
    exact h rec hrec hs wr hwr hv hfit

instance (s : Impl) (op : Op) : Decidable (Steady s op) := by
  apply @Op.casesOn _ op <;> (intros; dsimp only [Steady]; infer_instance)

instance (s : Impl) : (op : Op) → Decidable (FitsBeside s op)
  | .planDispatch request ex => decidable_of_iff' _ (fitsBeside_iff s request ex)
  | .submit .. | .planNextSeed | .confirmStart _ | .complete _ | .cancel .. | .cancelAllQueued _
  | .registerWorker _ | .updateCapability .. | .setWorkerState .. | .unregisterWorker _ | .beginDrain _
  | .rollEpoch | .advance _ => .isTrue trivial

/-- The workers are within their capacity, which is the one they had in `s`. -/
def Capped (s : Impl) (c : Core) : Prop :=
  ∀ w wr, c.pool.workers.find w = some wr → wr.Within ∧ ∀ wr₀ ∈ s.pool.workers.find w,
    wr.registration.capability.totalCapacityUnits = wr₀.registration.capability.totalCapacityUnits

/-- A worker record an operation writes has the capacity the worker had, or a
new one. -/
theorem total_of_setWorker {s : Impl} {op : Op} {c : Core} {wr' : WorkerRecord} (h : Steady s op)
    (hdoes : Does s op c (.setWorker wr')) :
    (∀ wr₀ ∈ s.pool.workers.find wr'.id,
        wr'.registration.capability.totalCapacityUnits = wr₀.registration.capability.totalCapacityUnits) ∧
      (s.pool.workers.find wr'.id = none → 0 ≤ wr'.registration.capability.totalCapacityUnits) := by
  cases hdoes with
  | reregister | register => exact ⟨h.2.2, fun _ => h.2.1⟩
  | @capability w cap wr hw =>
    have hid : wr.id = w := Keyed.key_of_find hw
    rw [show (Impl.withCapability wr cap).id = w from hid]
    exact ⟨fun wr₀ hw₀ => (h wr₀ hw₀).2, fun hn => absurd (hw.symm.trans hn) (by simp)⟩
  | @workerState w state snap wr hw =>
    have hid : wr.id = w := Keyed.key_of_find hw
    rw [show WorkerRecord.id { wr with state := state, resource := snap.getD wr.resource } = w from hid, hw]
    refine ⟨fun wr₀ hw₀ => ?_, by simp⟩
    obtain rfl : wr = wr₀ := Option.some.inj hw₀
    rfl

/-- A worker record written over another is written for a worker of `s`. -/
theorem isSome_of_setWorker {s : Impl} {op : Op} {c : Core} {wr' : WorkerRecord}
    (hdoes : Does s op c (.setWorker wr')) (hf : (c.pool.workers.find wr'.id).isSome) :
    (s.pool.workers.find wr'.id).isSome := by
  cases hdoes with
  | reregister hboot => exact Option.isSome_of_any hboot
  | register | capability | workerState => exact hf

theorem capped_act {s : Impl} {op : Op} {c : Core} {m : Move} (hs : Capped s s.core) (hsteady : Steady s op)
    (hfits : FitsBeside s op) (hstep : Step s op c m) (h : Capped s c) : Capped s (c.act m) := by
  obtain ⟨hen, hdoes⟩ := hstep
  intro w wr' hf'
  rcases Core.find_worker_act hen hf' with ⟨_, rfl, hnew⟩ | ⟨wr, hf, rfl | hu⟩
  · -- A record for a worker that is not there.
    obtain ⟨hsame, hpos⟩ := total_of_setWorker hsteady hdoes
    rw [show wr'.id = w from Keyed.key_of_find hf'] at hsame hpos
    refine ⟨.of_new hnew ?_, hsame⟩
    cases hw₀ : s.pool.workers.find w with
    | none => exact hpos hw₀
    | some wr₀ =>
      have hw := (hs w wr₀ hw₀).1
      have hcap := hw.capacity
      have := hw.covered.reserved_nonneg
      have := hw.running
      rw [hsame wr₀ hw₀]
      omega
  · exact h w wr' hf
  obtain ⟨hw, hsame⟩ := h w wr hf
  have hid : wr.id = w := Keyed.key_of_find hf
  cases hu with
  | reserve =>
    cases hdoes with
    | reserve hp => exact ⟨hw.takeBatch _ (Core.batchUnits_nonneg _ _) (hfits _ _ hp), hsame⟩
  | start => exact ⟨hw.startMember .., hsame⟩
  | finish | cancel | retry =>
    refine ⟨hw.leave _, ?_⟩
    rw [WorkerRecord.leave_registration]
    exact hsame
  | sweep => exact ⟨hw.sweep, hsame⟩
  | set hset hwork =>
    have htotal := (total_of_setWorker hsteady hdoes).1
    have hsome := isSome_of_setWorker hdoes
    rw [hset, hid] at htotal hsome
    obtain ⟨wr₀, hw₀⟩ := Option.isSome_iff_exists.1 (hsome (Option.isSome_iff_exists.2 ⟨wr, hf⟩))
    exact ⟨hw.of_sameWork hwork ((htotal wr₀ hw₀).trans (hsame wr₀ hw₀).symm), htotal⟩

/-- **No oversubscription.** In a run without a recovery, of steady workers and of
plans that reserve only what fits beside what runs, no worker ever has more units
reserved and running than its capacity. -/
theorem no_oversubscription {cfg : SchedulerConfig} {now : ClockTime} {salt : UInt64}
    {epoch : Option SchedulerEpoch} {ops : List Op}
    (hok : scheduler.Allowed (fun s op => FreshSubmit s op ∧ Steady s op ∧ FitsBeside s op)
      (Impl.init cfg now salt epoch) ops) :
    ∀ w wr, (scheduler.run (Impl.init cfg now salt epoch) ops).pool.workers.find w = some wr →
      wr.reservedUnits + wr.runningUnits ≤ wr.registration.capability.totalCapacityUnits := by
  intro w wr hf
  refine (run_invariant (m := scheduler) (I := fun s => Capped s s.core) ?_ ?_ hok w wr hf).1.capacity
  · intro s op ⟨hfresh, hsteady, hfits⟩ hs w wr hf
    have h := (step_leads hfresh).invariant (m := moves) (I := Capped s)
      (fun c m hstep hc => capped_act hs hsteady hfits hstep hc) hs
    refine ⟨(h w wr hf).1, fun wr₀ hw₀ => ?_⟩
    obtain rfl : wr = wr₀ := Option.some.inj (hf.symm.trans hw₀)
    rfl
  · intro w wr hf
    simp [Impl.core, Impl.init] at hf

/-- A worker of capacity 8 with one request running and one reserved. -/
theorem no_oversubscription_two :
    let s := scheduler.run (Impl.init {} 0 0x80000001 none) [.registerWorker (plainWorker 3),
      .submit plainSpec (some ⟨7⟩), .planDispatch ⟨7⟩ false, .confirmStart (firstReport 3 .succeeded),
      .submit plainSpec (some ⟨8⟩), .planDispatch ⟨8⟩ false]
    ∃ wr, s.pool.workers.find ⟨3⟩ = some wr ∧
      wr.reservedUnits + wr.runningUnits ≤ wr.registration.capability.totalCapacityUnits := by
  intro s
  have hsome : (s.pool.workers.find ⟨3⟩).isSome = true := by decide +kernel
  obtain ⟨wr, hf⟩ := Option.isSome_iff_exists.1 hsome
  exact ⟨wr, hf, no_oversubscription (by decide +kernel) ⟨3⟩ wr hf⟩

/-- On a worker of capacity 1, a request is reserved while another runs. -/
theorem running_oversubscribed :
    let one : WorkerRegistration :=
      { worker := ⟨3⟩, bootId := ⟨1⟩, capability := { totalCapacityUnits := 1, availableCapacityUnits := 1 } }
    let started := { firstReport 3 .succeeded with workerSnapshot := { availableCapacityUnits := 1 } }
    let ops : List Op := [.registerWorker one, .submit plainSpec (some ⟨7⟩), .planDispatch ⟨7⟩ false,
      .confirmStart started, .submit plainSpec (some ⟨8⟩), .planDispatch ⟨8⟩ false]
    scheduler.Allowed (fun s op => FreshSubmit s op ∧ Steady s op) (Impl.init {} 0 0x80000001 none) ops ∧
      ((scheduler.run (Impl.init {} 0 0x80000001 none) ops).pool.workers.find ⟨3⟩).map
        (fun wr => (wr.reservedUnits, wr.runningUnits, wr.registration.capability.totalCapacityUnits)) =
          some (1, 1, 1) := by
  decide +kernel

end InferenceScheduler
