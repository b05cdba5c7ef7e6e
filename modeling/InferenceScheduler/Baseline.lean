/-
The baseline of a worker's capacity. A worker that reports honestly is meant
to have all of its capacity to give again whenever nothing is reserved or runs
on it. The figure it is given work by is written when it registers, when it
updates its capability or its state, and when a request starts; a completion
report states it too, and there it is not read. A worker is thus back at its
baseline as long as no completion empties it while the figure is still the one
a start left behind.
-/
import InferenceScheduler.Accounting
import InferenceScheduler.Flight
import InferenceScheduler.Oversubscription
import InferenceScheduler.TenantCounters

namespace InferenceScheduler

open Machine

/-! ## The units of every worker are covered -/

/-- A move leaves a covered worker covered. -/
theorem Updates.covered {c : Core} {m : Move} {wr wr' : WorkerRecord} (hu : Updates c m wr wr') (h : wr.Covered) :
    wr'.Covered := by
  cases hu with
  | reserve => exact h.takeBatch _ (Core.batchUnits_nonneg _ _)
  | start => exact h.startMember ..
  | finish | cancel | retry => exact h.leave _
  | sweep => exact .sweep wr
  | set _ hwork => exact h.of_sameWork hwork

/-- Every worker is covered; nothing was ever reserved under the invalid id;
and a request that waits or is reserved has not started. -/
structure Grounded (c : Core) : Prop where
  covered : ∀ w wr, c.pool.workers.find w = some wr → wr.Covered
  unnamed : ∀ wr, c.pool.workers.find .invalid = some wr → wr.batchPending = ∅
  unstarted : ∀ r rec, c.requests.find r = some rec →
    rec.state = .queued ∨ rec.state = .admitted ∨ rec.state = .reserved → rec.lastWorker = .invalid

theorem Grounded.init (cfg : SchedulerConfig) (now : ClockTime) (salt : UInt64) (epoch : Option SchedulerEpoch) :
    Grounded (Impl.init cfg now salt epoch).core := by
  refine ⟨?_, ?_, ?_⟩ <;> simp [Impl.core, Impl.init]

/-- No batch is pending on a worker that had none, but the one it takes. -/
theorem Updates.pending {c : Core} {m : Move} {wr wr' : WorkerRecord} (hu : Updates c m wr wr') (hen : Enabled c m)
    (hid : wr.id.valid = false) (h : wr.batchPending = ∅) : wr'.batchPending = ∅ := by
  have hleave : ∀ rec, (wr.leave rec).batchPending = ∅ := by
    intro rec
    unfold WorkerRecord.leave WorkerRecord.leaveBatch
    simp only [h]
    split <;> rfl
  cases hu with
  | reserve => rw [hen.2.2.2.1] at hid; cases hid
  | start => exact h
  | finish | cancel | retry => exact hleave _
  | sweep => rfl
  | set _ hwork => rw [hwork.2.2.2.1, h]

theorem Grounded.act {c : Core} {m : Move} (h : Grounded c) (hen : Enabled c m) : Grounded (c.act m) := by
  refine ⟨fun w wr' hf' => ?_, fun wr' hf' => ?_, fun r rec' hf' hs => ?_⟩
  · rcases Core.find_worker_act hen hf' with ⟨_, _, hs⟩ | ⟨wr, hf, rfl | hu⟩
    · exact WorkerRecord.Covered.default.of_sameWork hs
    · exact h.covered w wr' hf
    · exact hu.covered (h.covered w wr hf)
  · rcases Core.find_worker_act hen hf' with ⟨_, _, hs⟩ | ⟨wr, hf, rfl | hu⟩
    · exact hs.2.2.2.1
    · exact h.unnamed wr' hf
    · refine hu.pending hen ?_ (h.unnamed wr hf)
      rw [show wr.id = .invalid from Keyed.key_of_find hf]
      rfl
  · rcases Core.find_act hen hf' with hst | ⟨rec, hf, rfl | hw⟩
    · cases hst with
      | refuse =>
        have ht := hen.2.1
        rcases hs with hs | hs | hs <;> rw [hs] at ht <;> cases ht
      | accept => rfl
    · exact h.unstarted r rec' hf hs
    · have hold := h.unstarted r rec hf
      cases hw with
      | expire | cancel | start => rcases hs with hs | hs | hs <;> cases hs
      | reserve hmem =>
        obtain ⟨rec₀, hf₀, hq⟩ := hen.2.2.2.2 _ hmem
        obtain rfl : rec = rec₀ := Option.some.inj ((Keyed.find_key hf).symm.trans hf₀)
        rw [← hold (hq.imp_right .inl)]
        exact lastWorker_onLast rfl fun _ => rfl
      | flag => exact hold hs
      | @finish _ w e =>
        cases e with
        | success => rcases hs with hs | hs | hs <;> simp [Ending.close, Ending.note, RequestRecord.succeed] at hs
        | failed | expired => rcases hs with hs | hs | hs <;> cases hs
        | stale =>
          rw [← hold (by simpa [Ending.close, Ending.note, RequestRecord.noteStale] using hs)]
          exact lastWorker_onLast (congrArg (onLast _) (c.pool.released_history w rec)) fun _ => rfl
      | retry => simp [RequestRecord.lastWorker, RequestRecord.retry]

/-! ## A worker at its baseline -/

namespace WorkerRecord

/-- With nothing reserved and nothing running, all of the `units` are there. -/
def AtBaseline (wr : WorkerRecord) (units : ℤ) : Prop :=
  wr.reservedUnits = 0 → wr.runningUnits = 0 → wr.resource.availableCapacityUnits = units

/-- A request is the last one of the only batch on a worker. -/
def LastOut (wr : WorkerRecord) (rec : RequestRecord) : Prop :=
  rec.inBatch = true ∧ rec.batchId.valid = true ∧
    (wr.batchPending.lookup rec.batchId).any (fun n => decide (n ≤ 1)) = true ∧
    wr.reservedUnits + wr.runningUnits ≤ wr.unitsOf rec.batchId

instance (wr : WorkerRecord) (rec : RequestRecord) : Decidable (wr.LastOut rec) :=
  inferInstanceAs (Decidable (_ ∧ _ ∧ _ ∧ _))

namespace AtBaseline

variable {wr : WorkerRecord} {units : ℤ}

theorem of_free (h : wr.resource.availableCapacityUnits = units - wr.runningUnits) : wr.AtBaseline units := by
  intro _ hrun
  rw [h, hrun, Int.sub_zero]

/-- A worker that takes a batch was idle before if it is idle now. -/
theorem takeBatch {b : BatchId} {u : ℤ} {members : List RequestId} (h : wr.AtBaseline units) (hc : wr.Covered)
    (hu : 0 ≤ u) : (wr.takeBatch b u members).AtBaseline units := by
  intro hres hrun
  have hn := hc.reserved_nonneg
  simp only [WorkerRecord.takeBatch] at hres hrun
  exact h (by omega) hrun

/-- A start that states what is then free; a figure below zero is not read,
and with it the worker cannot be idle unless it was before. -/
theorem startMember {b : BatchId} {rid : RequestId} {att : AttemptId} {snap : ResourceSnapshot}
    (h : wr.AtBaseline units) (hc : wr.Covered)
    (hsnap : snap.availableCapacityUnits = units - (wr.startMember b rid att snap).runningUnits) :
    (wr.startMember b rid att snap).AtBaseline units := by
  intro hres hrun
  rw [hrun, Int.sub_zero] at hsnap
  have hs := hc.startingUnits_nonneg b
  have hr := hc.running
  simp only [WorkerRecord.startMember] at hres hrun ⊢
  split
  · exact hsnap
  · exact h (by omega) (by omega)

/-- A batch dropped that is not all there is leaves the worker busy. -/
theorem dropBatch {b : BatchId} (hc : wr.Covered)
    (h : wr.unitsOf b < wr.reservedUnits + wr.runningUnits) : (wr.dropBatch b).AtBaseline units := by
  intro hres hrun
  have hn := hc.reserved_nonneg
  have hr := hc.running
  exfalso
  cases hst : wr.started b <;>
    simp only [WorkerRecord.dropBatch, hst, clamp0, Bool.false_eq_true, ↓reduceIte] at hres hrun <;>
    split at hres <;> split at hrun <;> omega

theorem leave {rec : RequestRecord} (h : wr.AtBaseline units) (hc : wr.Covered)
    (hlast : wr.LastOut rec → wr.resource.availableCapacityUnits = units) : (wr.leave rec).AtBaseline units := by
  unfold WorkerRecord.leave WorkerRecord.leaveBatch
  simp only
  split
  next hin =>
    split
    · exact h
    next n hn =>
    split
    next hle =>
      rw [Bool.and_eq_true] at hin
      by_cases hfull : wr.reservedUnits + wr.runningUnits ≤ wr.unitsOf rec.batchId
      · -- The worker may be idle now, and then by its last batch.
        intro _ _
        refine hlast ⟨hin.1, hin.2, ?_, hfull⟩
        rw [hn]
        exact decide_eq_true (by omega)
      · exact dropBatch ⟨hc.reserved, hc.running, hc.units⟩ (Int.not_le.1 hfull)
    · exact h
  · exact h

end AtBaseline

end WorkerRecord

/-! ## Runs -/

/-- A figure states what is free on `w` in `s`, out of `units`. -/
def StatesFree (w : WorkerId) (units : ℤ) (s : Impl) (figure : ℤ) : Prop :=
  ∀ wr ∈ s.pool.workers.find w, figure = units - wr.runningUnits

instance (w : WorkerId) (units : ℤ) (s : Impl) (figure : ℤ) : Decidable (StatesFree w units s figure) :=
  inferInstanceAs (Decidable (∀ wr ∈ s.pool.workers.find w, figure = units - wr.runningUnits))

/-- The worker `w` registers with `units`, all of them available. Reports come
from the worker that holds the batch, and those of `w` state what is free there
after them. -/
def HonestUnits (w : WorkerId) (units : ℤ) (s : Impl) : Op → Prop
  | .registerWorker reg => reg.worker = w →
      reg.capability.totalCapacityUnits = units ∧ reg.capability.availableCapacityUnits = units
  | .confirmStart r => FromHolder s r ∧
      (r.worker = w → StatesFree w units (s.doConfirmStart r).1 r.workerSnapshot.availableCapacityUnits)
  | .complete r => FromHolder s r ∧
      (r.worker = w → StatesFree w units (s.doComplete r).1 r.workerSnapshot.availableCapacityUnits)
  | _ => True

/-- No completion report that is accepted empties `w` while the figure of `w`
is another than `units`, and updates of `w` that state a figure state what is
free. -/
def Restoring (w : WorkerId) (units : ℤ) (s : Impl) : Op → Prop
  | .complete r => r.worker = w → ∀ rec ∈ s.requests.find r.requestId,
      Matches s r rec → isTerminal rec.state = false → ∀ wr ∈ s.pool.workers.find w,
        wr.LastOut rec → wr.resource.availableCapacityUnits = units
  | .updateCapability w' cap => w' = w → StatesFree w units s cap.availableCapacityUnits
  | .setWorkerState w' _ snap => w' = w → ∀ sn ∈ snap, StatesFree w units s sn.availableCapacityUnits
  | _ => True

instance (w : WorkerId) (units : ℤ) (s : Impl) (op : Op) : Decidable (HonestUnits w units s op) := by
  apply @Op.casesOn _ op <;> (intros; dsimp only [HonestUnits]; infer_instance)

instance (w : WorkerId) (units : ℤ) (s : Impl) (op : Op) : Decidable (Restoring w units s op) := by
  apply @Op.casesOn _ op <;> (intros; dsimp only [Restoring]; infer_instance)

/-- The worker `w`, if it is known, is at its baseline. -/
def Rested (w : WorkerId) (units : ℤ) (c : Core) : Prop := ∀ wr ∈ c.pool.workers.find w, wr.AtBaseline units

/-- A move by which a request leaves its batch on a worker. -/
inductive Releases : Move → WorkerId → RequestRecord → Prop
  | finish {rec w e} : Releases (.finish rec w e) w rec
  | cancel {rec asked w reason} : Releases (.cancel rec asked w reason) w rec
  | retry {rec r} : Releases (.retry rec r) r.worker rec

/-- The report that makes a request leave a worker. -/
structure ReportedBy (s : Impl) (op : Op) (w : WorkerId) (rec : RequestRecord) (r : CompletionReport) : Prop where
  op : op = .complete r
  worker : r.worker = w
  matched : Matches s r rec
  held : s.core.Holds rec
  live : isTerminal rec.state = false

/-- A request leaves a worker that is not lost on a report of that worker. A
cancel of a request that has not started releases it on the invalid one. -/
theorem Releases.cause {s : Impl} {op : Op} {c : Core} {m : Move} {w : WorkerId} {rec : RequestRecord}
    (h : Releases m w rec) (hg : Grounded c) (hlost : ¬Loses s op w) (hstep : Step s op c m) :
    w = .invalid ∨ s.core = c ∧ ∃ r, ReportedBy s op w rec r := by
  obtain ⟨hen, hdoes⟩ := hstep
  cases h with
  | finish =>
    cases hdoes with
    | finish hm => exact .inr ⟨rfl, _, rfl, rfl, hm, hen.1, hen.2.1⟩
    | recoverFail hl => exact absurd hl hlost
  | cancel =>
    cases hdoes with
    | finishCancelled hm => exact .inr ⟨rfl, _, rfl, rfl, hm, hen.1, hen.2⟩
    | cancelQueued => exact .inl rfl
    | cancel =>
      left
      split
      · next hres => exact hg.unstarted _ rec hen.1 (.inr (.inr hres))
      · rfl
  | retry =>
    cases hdoes with
    | retry hm => exact .inr ⟨rfl, _, rfl, rfl, hm, hen.1, hen.2.1⟩
    | recoverRetry hl => exact absurd hl hlost

/-- A worker record written by no registration of the worker states what is
free, or keeps its figure. -/
theorem baseline_of_set {w : WorkerId} {units : ℤ} {s : Impl} {op : Op} {c : Core} {wr' : WorkerRecord}
    (hrest : Restoring w units s op) (hreg : ∀ reg, op = .registerWorker reg → reg.worker ≠ w)
    (hdoes : Does s op c (.setWorker wr')) (hid : wr'.id = w) (h : Rested w units c) : wr'.AtBaseline units := by
  cases hdoes with
  | reregister | register => exact absurd hid (hreg _ rfl)
  | @capability w' cap wr hw =>
    have hw' : w' = w := (Keyed.key_of_find hw).symm.trans hid
    exact .of_free (hrest hw' wr (hw' ▸ hw))
  | @workerState w' state snap wr hw =>
    have hw' : w' = w := (Keyed.key_of_find hw).symm.trans hid
    cases snap with
    | none => exact fun hres hrun => h wr (hw' ▸ hw) hres hrun
    | some sn => exact .of_free (hrest hw' sn rfl wr (hw' ▸ hw))

/-- Starts apart, the moves of an operation that neither registers the worker
nor gives it up. -/
theorem rested_act {w : WorkerId} {units : ℤ} {s : Impl} {op : Op} {c : Core} {m : Move} (hg : Grounded c)
    (hrest : Restoring w units s op) (hreg : ∀ reg, op = .registerWorker reg → reg.worker ≠ w)
    (hun : op ≠ .unregisterWorker w) (hstart : ∀ r, op ≠ .confirmStart r) (hstep : Step s op c m)
    (h : Rested w units c) : Rested w units (c.act m) := by
  have hlost : ¬Loses s op w := by
    intro hl
    cases hl with
    | unregister => exact hun rfl
    | restart reg => exact hreg reg rfl rfl
  intro wr' hf'
  rcases Core.find_worker_act hstep.1 hf' with ⟨_, rfl, _⟩ | ⟨wr, hf, rfl | hu⟩
  · exact baseline_of_set hrest hreg hstep.2 (Keyed.key_of_find hf') h
  · exact h wr' hf
  have hid : wr.id = w := Keyed.key_of_find hf
  have hc := hg.covered w wr hf
  have hbase := h wr hf
  have hleave : ∀ {rec}, Releases m wr.id rec → (wr.leave rec).AtBaseline units := by
    intro rec hrel
    refine hbase.leave hc fun hlast => ?_
    rw [hid] at hrel
    rcases hrel.cause hg hlost hstep with hinv | ⟨rfl, r, hop, hw, hm, hr, ht⟩
    · -- Nothing was ever pending there.
      have hany := hlast.2.2.1
      rw [hg.unnamed wr (hinv ▸ hf)] at hany
      cases hany
    · subst hop
      exact hrest hw rec (by rw [← hm.request]; exact hr) hm ht wr hf hlast
  cases hu with
  | reserve => exact hbase.takeBatch hc (Core.batchUnits_nonneg _ _)
  | start =>
    cases hstep.2 with
    | start => exact absurd rfl (hstart _)
  | finish => exact hleave .finish
  | cancel => exact hleave .cancel
  | retry hw => exact hleave (hw ▸ .retry)
  | sweep =>
    have hdoes := hstep.2
    rw [hid] at hdoes
    cases hdoes with
    | sweep hl => exact absurd hl hlost
  | set hset => exact baseline_of_set hrest hreg hstep.2 (hset.trans hid) h

/-- A worker that registers honestly is at its baseline, whatever it was
doing. -/
theorem rested_register {w : WorkerId} {units : ℤ} {s : Impl} {reg : WorkerRegistration} (hw : reg.worker = w)
    (h : reg.capability.availableCapacityUnits = units) : Rested w units (s.doRegisterWorker reg).core := by
  intro wr hf _ _
  have hput := (Pool.find_putWorker _ _ w).symm.trans hf
  obtain rfl := Option.some.inj ((if_pos hw).symm.trans hput)
  exact h

/-- A worker that is given up is not known afterwards. -/
theorem rested_unregister (w : WorkerId) (units : ℤ) (s : Impl) : Rested w units (s.doUnregisterWorker w).1.core := by
  unfold Impl.doUnregisterWorker
  split
  · next hf =>
    intro wr hw
    cases hf.symm.trans hw
  · intro wr hw
    have herase := (Keyed.find_erase _ w w).symm.trans hw
    cases (if_pos rfl).symm.trans herase

/-- A start that `w` reports honestly, or that another worker reports. -/
theorem rested_start {w : WorkerId} {units : ℤ} {s : Impl} {r : CompletionReport} (hg : Grounded s.core)
    (hhonest : HonestUnits w units s (.confirmStart r)) (h : Rested w units s.core) :
    Rested w units (s.doConfirmStart r).1.core := by
  rcases s.doConfirmStart_cases r with ⟨he, _⟩ | ⟨rec, wr, _, hid, hen, henters, _⟩
  · rw [he]
    exact h
  · have hpool : (s.doConfirmStart r).1.pool =
        s.pool.start wr rec.batchId rec.requestId rec.currentAttempt r.workerSnapshot :=
      congrArg Core.pool henters.core
    intro wr' hf'
    have hfind := hf'
    rw [show (s.doConfirmStart r).1.core.pool = _ from hpool, Pool.find_start] at hfind
    split at hfind
    · next hw =>
      obtain rfl := Option.some.inj hfind
      have hwr : s.core.pool.workers.find w = some wr := hw ▸ hen.2.2.1
      exact (h wr hwr).startMember (hg.covered w wr hwr) (hhonest.2 (hid.symm.trans hw) _ hf')
    · exact h wr' hfind

theorem rested_next {w : WorkerId} {units : ℤ} {s : Impl} {op : Op} (hfresh : FreshSubmit s op)
    (hhonest : HonestUnits w units s op) (hrest : Restoring w units s op) (hg : Grounded s.core)
    (h : Rested w units s.core) : Rested w units (scheduler.next s op).core := by
  have hmoves (hreg : ∀ reg, op = .registerWorker reg → reg.worker ≠ w) (hun : op ≠ .unregisterWorker w)
      (hstart : ∀ r, op ≠ .confirmStart r) : Rested w units (scheduler.next s op).core :=
    ((step_leads hfresh).invariant (m := moves) (I := fun c => Grounded c ∧ Rested w units c)
      (fun c m hstep hc => ⟨hc.1.act hstep.1, rested_act hc.1 hrest hreg hun hstart hstep hc.2⟩) ⟨hg, h⟩).2
  cases op with
  | registerWorker reg =>
    by_cases hw : reg.worker = w
    · exact rested_register hw (hhonest hw).2
    · exact hmoves (fun reg' he => by cases he; exact hw) (by simp) (by simp)
  | unregisterWorker w' =>
    by_cases hw : w' = w
    · subst hw
      exact rested_unregister w' units s
    · exact hmoves (by simp) (by simpa using hw) (by simp)
  | confirmStart r => exact rested_start hg hhonest h
  | _ => exact hmoves (by simp) (by simp) (by simp)

/-- A report on the first request of a run, which states that `free` units are
free. -/
def freeReport (free : ℤ) : CompletionReport :=
  { firstReport 3 .succeeded with workerSnapshot := { availableCapacityUnits := free } }

end InferenceScheduler
