/-
Capacity accounting over whole runs. As long as no request is cancelled
between its reservation and its start, the scheduler leaks nothing and its
five records of who runs what agree.
-/
import InferenceScheduler.Members
import InferenceScheduler.Frozen

namespace InferenceScheduler

open Machine

/-! ## Queued requests are on no worker -/

/-- No request of the queued set is on a worker. -/
def QueuedOff (c : Core) : Prop :=
  ∀ r rec, r ∈ c.ready.queued → c.requests.find r = some rec → rec.onWorker = false

theorem onWorker_of_terminal {rec : RequestRecord} (h : isTerminal rec.state = true) : rec.onWorker = false := by
  revert h
  cases hs : rec.state <;> simp [isTerminal, RequestRecord.onWorker, hs]

theorem QueuedOff.act {c : Core} {m : Move} (h : QueuedOff c) (hen : Enabled c m) : QueuedOff (c.act m) := by
  intro r rec' hq hf'
  rcases Core.find_act hen hf' with hs | ⟨rec, hf, rfl | hw⟩
  · cases hs with
    | refuse => exact onWorker_of_terminal hen.2.1
    | accept => rfl
  · -- The record stays: it was queued before, unless the move enqueues it.
    cases m with
    | accept spec rid =>
      rcases USet.mem_insert.1 hq with he | hq
      · obtain rfl : r = rid := he
        exact absurd (hen.symm.trans hf) (by simp)
      · exact h r rec' hq hf
    | expire | cancel => exact h r rec' (USet.mem_erase.1 hq).2 hf
    | reserve wr members => exact h r rec' ((Core.act_reserve_queued hen r).1 hq).1 hf
    | retry old rep =>
      rcases USet.mem_insert.1 hq with he | hq
      · have hnew := Core.find_of_writes .retry hen hen.1
        have hr : r = old.requestId := he.trans (c.pool.released_requestId rep.worker (old.noteFailure rep))
        rw [← hr, hf'] at hnew
        cases hnew
        rfl
      · exact h r rec' hq hf
    | _ => exact h r rec' hq hf
  · cases hw with
    | reserve hmem =>
      rw [show rec.requestId = r from Keyed.key_of_find hf] at hmem
      exact absurd hmem ((Core.act_reserve_queued hen r).1 hq).2
    | start =>
      have := h r rec hq hf
      simp [RequestRecord.onWorker, hen.2.1] at this
    | @finish _ w e =>
      have hoff := h r rec hq hf
      cases e with
      | stale => simpa [RequestRecord.onWorker, Ending.close, Ending.note, RequestRecord.noteStale] using hoff
      | success r => simp [RequestRecord.onWorker, Ending.close, Ending.note, RequestRecord.succeed]
      | failed r | expired => rfl
    | flag => exact h r rec hq hf
    | expire | cancel | retry => rfl

/-! ## Runs that leak nothing -/

/-- A report comes from the worker that holds the batch of its request. -/
def FromHolder (s : Impl) (r : CompletionReport) : Prop :=
  ∀ rec ∈ s.requests.find r.requestId, rec.inBatch = true → s.pool.Holds r.worker rec.batchId

instance (s : Impl) (r : CompletionReport) : Decidable (FromHolder s r) :=
  inferInstanceAs (Decidable (∀ rec ∈ s.requests.find r.requestId,
    rec.inBatch = true → s.pool.Holds r.worker rec.batchId))

/-- Reports come from the worker holding the batch, no worker is lost, and no
cancel meets a request that is reserved in a batch. -/
def LeakFree (s : Impl) : Op → Prop
  | .confirmStart r => FromHolder s r
  | .complete r => FromHolder s r
  | .cancel req _ _ => ∀ rec ∈ s.requests.find req, ¬(rec.state = .reserved ∧ rec.inBatch = true)
  | .registerWorker reg => s.bootChanged reg = false
  | .unregisterWorker _ => False
  | _ => True

instance (s : Impl) (op : Op) : Decidable (LeakFree s op) := by
  apply @Op.casesOn _ op <;> (intros; dsimp only [LeakFree]; infer_instance)

/-- In such a run members leave through the worker that holds their batch. -/
theorem kept_of_leakFree {s : Impl} {op : Op} {c : Core} {m : Move} (hop : LeakFree s op) (hstep : Step s op c m)
    (hb : Batched c) (hq : QueuedOff c) : Kept c m := by
  obtain ⟨hen, hdoes⟩ := hstep
  have hreport : ∀ {r : CompletionReport} {rec}, FromHolder s r → Matches s r rec → s.core.Holds rec →
      rec.inBatch = true → s.core.pool.Holds r.worker rec.batchId := by
    intro r rec hfrom hm hf hi
    refine hfrom rec ?_ hi
    rw [← hm.request]
    exact hf
  have hlost : ∀ {w}, ¬Loses s op w := by
    intro w hx
    rcases hx with _ | ⟨reg, hboot⟩
    · exact hop
    · rw [LeakFree, hboot] at hop
      cases hop
  cases hdoes with
  | start hm hid =>
    intro hi
    obtain ⟨wr', hf', hb'⟩ := hreport hop hm hen.1 hi
    rw [← hid, hen.2.2.1] at hf'
    cases hf'
    exact hb'
  | finish hm => exact hreport hop hm hen.1
  | finishCancelled hm => exact hreport hop hm hen.1
  | retry hm => exact hreport hop hm hen.1
  | @cancel req reason detail rec text hid hd hr =>
    intro hi
    have hon := (hb.member _ rec hen.1 hi).1
    simp only [RequestRecord.onWorker, Bool.or_eq_true, beq_iff_eq] at hon
    refine absurd ⟨?_, hi⟩ (hop rec (hid ▸ hen.1))
    tauto
  | @cancelQueued detail c rec reason hmem =>
    intro hi
    have hon := (hb.member _ rec hen.1 hi).1
    rw [hq _ rec hmem hen.1] at hon
    cases hon
  | recoverRetry hl | recoverFail hl | sweep hl => exact absurd hl hlost
  | dropWorker => exact hop
  | _ => trivial

theorem Batched.init (cfg : SchedulerConfig) (now : ClockTime) (salt : UInt64) (epoch : Option SchedulerEpoch) :
    Batched (Impl.init cfg now salt epoch).core := by
  refine ⟨.init, ?_, ?_, ?_, ?_, ?_, ?_⟩ <;> simp [Impl.core, Impl.init, Pool.Holds]

theorem batched_of_leakFree {cfg : SchedulerConfig} {now : ClockTime} {salt : UInt64}
    {epoch : Option SchedulerEpoch} {ops : List Op}
    (hok : scheduler.Allowed (fun s op => FreshSubmit s op ∧ LeakFree s op) (Impl.init cfg now salt epoch) ops)
    (hids : (scheduler.run (Impl.init cfg now salt epoch) ops).idFactory.Sound) :
    Batched (scheduler.run (Impl.init cfg now salt epoch) ops).core := by
  have h := scheduler_invariant (I := fun c => c.ids.Sound → Batched c ∧ QueuedOff c) ?_ ?_ hok hids
  · exact h.1
  · intro s op c m hop hstep hc hsound
    obtain ⟨hb, hq⟩ := hc (hsound.of_extends (c.act_ids_extends m))
    exact ⟨hb.act hstep.1 (kept_of_leakFree hop hstep hb hq) hsound.distinct hsound.allValid, hq.act hstep.1⟩
  · exact fun _ => ⟨.init cfg now salt epoch, by simp [QueuedOff, Impl.core, Impl.init]⟩

/-- No worker holds a batch and no unit is in use. -/
structure NothingHeld (p : Pool) : Prop where
  workers : ∀ w wr, p.workers.find w = some wr → wr.reservedUnits = 0 ∧ wr.runningUnits = 0 ∧
    wr.batchUnits = ∅ ∧ wr.batchPending = ∅ ∧ wr.startedBatches = ∅
  reserved : p.globalReservedUnits = 0
  running : p.globalRunningUnits = 0

/-- With no request in a batch, nothing is held. -/
theorem Batched.nothingHeld {c : Core} (h : Batched c)
    (hidle : ∀ r rec, c.requests.find r = some rec → rec.onWorker = false) : NothingHeld c.pool := by
  have hmembers : ∀ b, c.members b = 0 := by
    intro b
    by_contra hpos
    obtain ⟨r, rec, hf, hm⟩ := Keyed.count_pos_iff.1 (Nat.pos_of_ne_zero hpos)
    simp only [Bool.and_eq_true] at hm
    have hon := (h.member r rec hf hm.1).1
    rw [hidle r rec hf] at hon
    cases hon
  have hworkers : ∀ w wr, c.pool.workers.find w = some wr → wr.reservedUnits = 0 ∧ wr.runningUnits = 0 ∧
      wr.batchUnits = ∅ ∧ wr.batchPending = ∅ ∧ wr.startedBatches = ∅ := by
    intro w wr hw
    have hpend : ∀ b, wr.batchPending.lookup b = none := by
      intro b
      cases hn : wr.batchPending.lookup b with
      | none => rfl
      | some n =>
        obtain ⟨h₁, h₂⟩ := h.pending w wr b n hw hn
        rw [hmembers] at h₁
        omega
    have hunits : wr.batchUnits = ∅ := by
      refine Table.eq_empty_of_lookup fun b => AList.lookup_eq_none.2 fun hb => ?_
      exact AList.lookup_eq_none.1 (hpend b) ((h.tidy w wr hw b).1.2 hb)
    have hstarted : wr.startedBatches = ∅ := by
      refine USet.eq_empty fun b hb => ?_
      have := (h.tidy w wr hw b).2 hb
      rw [hunits] at this
      simp at this
    have hbal := h.balanced.workers w wr hw
    refine ⟨?_, ?_, hunits, Table.eq_empty_of_lookup hpend, hstarted⟩
    · rw [hbal.reserved, WorkerRecord.unitsWhere, hunits, Table.sum_empty]
    · rw [hbal.running, WorkerRecord.unitsWhere, hunits, Table.sum_empty]
  refine ⟨hworkers, ?_, ?_⟩
  · rw [h.balanced.reserved]
    exact Keyed.sum_eq_zero fun w wr hw => (hworkers w wr hw).1
  · rw [h.balanced.running]
    exact Keyed.sum_eq_zero fun w wr hw => (hworkers w wr hw).2.1

end InferenceScheduler
