/-
The ready structures over runs with recoveries. `deserialize_locked` empties
them and, once the file is read to its end, enqueues the requests that wait.
So what holds of the buckets in every run of the operations holds with
recoveries in between, and what holds of the flows does unless a recovery stops
halfway: then requests are left queued that no index knows.
-/
import InferenceScheduler.Compatibility
import InferenceScheduler.Tenancy

namespace InferenceScheduler

open Machine Binary

/-! ## Requests enqueued in a row -/

namespace Ready

variable (cfg : SchedulerConfig) (now : ClockTime)

theorem mem_pending_enqueueAll (l : List RequestRecord) (q : Ready) (k : FlowKey) (e : ReadyEntry) :
    e ∈ ((q.enqueueAll cfg now l).flow k).pending.entries ↔
      (∃ rec ∈ l, flowKey rec.spec = k ∧ e = readyEntry now rec) ∨ e ∈ (q.flow k).pending.entries := by
  induction l generalizing q with
  | nil => simp [enqueueAll]
  | cons rec l ih =>
    rw [show q.enqueueAll cfg now (rec :: l) = (q.enqueue cfg now rec).enqueueAll cfg now l from rfl, ih,
      pending_enqueue]
    simp only [List.mem_cons, exists_eq_or_imp]
    by_cases hk : flowKey rec.spec = k
    · rw [if_pos hk, Heap.mem_push, and_iff_right hk, or_assoc, or_left_comm]
    · simp only [hk, ↓reduceIte, false_and, false_or]

theorem mem_bucket_enqueueAll (l : List RequestRecord) (q : Ready) (k : CompatKey) (r : RequestId) :
    r ∈ (q.enqueueAll cfg now l).bucket k ↔
      (∃ rec ∈ l, compatKey cfg rec.spec = k ∧ rec.requestId = r) ∨ r ∈ q.bucket k := by
  induction l generalizing q with
  | nil => simp [enqueueAll]
  | cons rec l ih =>
    rw [show q.enqueueAll cfg now (rec :: l) = (q.enqueue cfg now rec).enqueueAll cfg now l from rfl, ih,
      mem_bucket_enqueue, eq_comm (a := k), eq_comm (a := r)]
    simp only [List.mem_cons, exists_eq_or_imp, or_assoc, or_left_comm]

theorem mem_queued_enqueueAll (l : List RequestRecord) (q : Ready) (r : RequestId) :
    r ∈ (q.enqueueAll cfg now l).queued ↔ (∃ rec ∈ l, rec.requestId = r) ∨ r ∈ q.queued := by
  induction l generalizing q with
  | nil => simp [enqueueAll]
  | cons rec l ih =>
    rw [show q.enqueueAll cfg now (rec :: l) = (q.enqueue cfg now rec).enqueueAll cfg now l from rfl, ih,
      show (q.enqueue cfg now rec).queued = q.queued.insert rec.requestId from rfl, USet.mem_insert,
      eq_comm (a := r)]
    simp only [List.mem_cons, exists_eq_or_imp, or_assoc, or_left_comm]

theorem active_enqueueAll (l : List RequestRecord) (q : Ready)
    (h : ∀ k, (q.flow k).pending.entries ≠ [] → k ∈ q.activeFlows) (k : FlowKey)
    (hk : ((q.enqueueAll cfg now l).flow k).pending.entries ≠ []) : k ∈ (q.enqueueAll cfg now l).activeFlows := by
  induction l generalizing q with
  | nil => exact h k hk
  | cons rec l ih => exact ih _ (q.active_enqueue cfg now rec h) hk

theorem weight_enqueueAll (l : List RequestRecord) (q : Ready)
    (h : ∀ k, (q.flow k).pending.entries ≠ [] → (q.flow k).weight = keyWeight cfg k) (k : FlowKey)
    (hk : ((q.enqueueAll cfg now l).flow k).pending.entries ≠ []) :
    ((q.enqueueAll cfg now l).flow k).weight = keyWeight cfg k := by
  induction l generalizing q with
  | nil => exact h k hk
  | cons rec l ih =>
    refine ih (q.enqueue cfg now rec) (fun j hj => ?_) hk
    rw [flow_enqueue] at hj ⊢
    split
    · rfl
    · next hne =>
      rw [if_neg hne] at hj
      exact h j hj

end Ready

/-! ## What a recovery leaves -/

namespace Impl

/-- The requests that wait are those that are put into the queue. -/
theorem waits_rebuildReady {s : Impl} {r : RequestId} {rec : RequestRecord} :
    s.rebuildReady.core.Waits r rec ↔ ∃ old ∈ s.requests.records.filter waiting, old.requestId = r ∧ old.requeue = rec := by
  have hmem : ∀ old, old ∈ s.requests.records.filter waiting ∧ old.requestId = r ↔
      s.requests.find r = some old ∧ waiting old = true := by
    intro old
    rw [List.mem_filter, Keyed.mem_records]
    constructor
    · intro h
      exact ⟨h.2 ▸ h.1.1, h.1.2⟩
    · intro h
      exact ⟨⟨Keyed.find_key h.1, h.2⟩, Keyed.key_of_find h.1⟩
  unfold Core.Waits
  rw [find_rebuildReady, Option.map_eq_some_iff]
  constructor
  · intro h
    obtain ⟨⟨old, hold, rfl⟩, hstate⟩ := h
    by_cases hw : waiting old = true
    · obtain ⟨hin, hid⟩ := (hmem old).2 ⟨hold, hw⟩
      exact ⟨old, hin, hid, (if_pos hw).symm⟩
    · rw [if_neg hw] at hstate
      simp [waiting, hstate] at hw
  · intro h
    obtain ⟨old, hin, hid, rfl⟩ := h
    obtain ⟨hold, hw⟩ := (hmem old).1 ⟨hin, hid⟩
    exact ⟨⟨old, hold, if_pos hw⟩, rfl⟩

end Impl

/-! ## The buckets, over every run -/

theorem Bucketed.of_empty {c : Core} (h : c.ready.compat = ∅) : Bucketed c := by
  intro k r hr
  rw [Ready.bucket, h] at hr
  exact absurd hr (USet.notMem_empty r)

theorem Bucketed.rebuildReady {s : Impl} (h : s.ready.compat = ∅) : Bucketed s.rebuildReady.core := by
  intro k r hr
  rw [Impl.rebuildReady_core] at hr
  rcases (Ready.mem_bucket_enqueueAll s.cfg s.now _ _ k r).1 hr with ⟨old, hold, hk, hid⟩ | hr
  · exact ⟨old.requeue, (Impl.waits_rebuildReady.2 ⟨old, hold, hid, rfl⟩).1, by rw [Impl.rebuildReady_core]; exact hk⟩
  · exact absurd (show r ∈ s.ready.bucket k from hr) (by rw [Ready.bucket, h]; exact USet.notMem_empty r)

theorem Bucketed.serve {s : Impl} (h : Bucketed s.core) (op : ServiceOp) : Bucketed (recoverable.next s op).core := by
  cases op with
  | op op => exact posts_invariant (I := fun b => Bucketed b.core) (fun _ _ he hb => hb.post he) h
  | recover file =>
    show Bucketed (s.doRecover file).1.core
    rcases s.doRecover_cases file with ⟨mode, heq⟩ | ⟨_, img, _, _, ⟨heq, _⟩ | heq⟩ <;> rw [heq, Impl.mode_core]
    · exact h
    · exact Bucketed.of_empty rfl
    · exact Bucketed.rebuildReady rfl

/-- Buckets hold requests of their key in every state of every run, with
recoveries from any files. -/
theorem Bucketed.served (cfg : SchedulerConfig) (now : ClockTime) (salt : UInt64) (epoch : Option SchedulerEpoch)
    (ops : List ServiceOp) : Bucketed (recoverable.run (Impl.init cfg now salt epoch) ops).core := by
  have hok : recoverable.Allowed (fun _ _ => True) (Impl.init cfg now salt epoch) ops :=
    allowed_of_forall fun _ _ _ => trivial
  exact run_invariant (I := fun s => Bucketed s.core) (fun _ op _ h => h.serve op) (Bucketed.of_empty rfl) hok

/-! ## The flows -/

theorem Lined.rebuildReady {s : Impl} (h : s.ready.flows = ∅) : Lined s.rebuildReady.core := by
  have hempty : ∀ k, ({ s.ready with globalQueued := 0 }.flow k).pending.entries = [] := by
    intro k
    rw [Ready.flow, h]
    rfl
  have hready : s.rebuildReady.core.ready =
      { s.ready with globalQueued := 0 }.enqueueAll s.cfg s.now (s.requests.records.filter Impl.waiting) := by
    rw [Impl.rebuildReady_core]
  have hcfg : s.rebuildReady.core.cfg = s.cfg := by rw [Impl.rebuildReady_core]; rfl
  refine ⟨fun k e he => ?_, fun k hk => ?_, fun k hk => ?_, fun r rec hr => ?_, fun r rec hf => ?_⟩
  · rw [hready, Ready.mem_pending_enqueueAll, hempty] at he
    obtain ⟨old, hold, hk, rfl⟩ := he.resolve_right List.not_mem_nil
    have hwaits : s.rebuildReady.core.Waits old.requestId old.requeue :=
      Impl.waits_rebuildReady.2 ⟨old, hold, rfl, rfl⟩
    exact ⟨old.requeue, hwaits.1, hk⟩
  · rw [hready] at hk ⊢
    exact Ready.active_enqueueAll s.cfg s.now _ _ (fun j hj => absurd (hempty j) hj) k hk
  · rw [hready] at hk ⊢
    rw [hcfg]
    exact Ready.weight_enqueueAll s.cfg s.now _ _ (fun j hj => absurd (hempty j) hj) k hk
  · obtain ⟨old, hold, hid, rfl⟩ := Impl.waits_rebuildReady.1 hr
    rw [hready, hcfg]
    exact ⟨(Ready.mem_queued_enqueueAll s.cfg s.now _ _ r).2 (.inl ⟨old, hold, hid⟩),
      (Ready.mem_bucket_enqueueAll s.cfg s.now _ _ _ r).2 (.inl ⟨old, hold, rfl, hid⟩), readyEntry s.now old,
      (Ready.mem_pending_enqueueAll s.cfg s.now _ _ _ _).2 (.inl ⟨old, hold, rfl, rfl⟩), hid, rfl⟩
  · rw [Impl.find_rebuildReady, Option.map_eq_some_iff] at hf
    obtain ⟨old, _, rfl⟩ := hf
    split
    · simp [RequestRecord.requeue]
    · next hw =>
      intro hstate
      simp [Impl.waiting, hstate] at hw

theorem Lined.serve {s : Impl} {op : ServiceOp} (h : Lined s.core) (hop : RecoversWhole s op) :
    Lined (recoverable.next s op).core := by
  cases op with
  | op op => exact posts_invariant (I := fun b => Lined b.core) (fun _ _ he hb => hb.post he) h
  | recover file =>
    show Lined (s.doRecover file).1.core
    rcases s.doRecover_cases file with ⟨mode, heq⟩ | ⟨payload, img, hfile, hread, ⟨heq, hcut⟩ | heq⟩ <;>
      rw [heq, Impl.mode_core]
    · exact h
    · -- The file is not one that is read halfway.
      obtain ⟨img', rest, hd⟩ := hop payload hfile (readable_isSome_iff.1 (by rw [hread]; rfl))
      exact absurd hd (hcut img' rest)
    · exact Lined.rebuildReady rfl

/-- The flows are right in every run in which no recovery stops halfway. -/
theorem Lined.served {cfg : SchedulerConfig} {now : ClockTime} {salt : UInt64} {epoch : Option SchedulerEpoch}
    {ops : List ServiceOp} (hok : recoverable.Allowed RecoversWhole (Impl.init cfg now salt epoch) ops) :
    Lined (recoverable.run (Impl.init cfg now salt epoch) ops).core :=
  run_invariant (I := fun s => Lined s.core) (fun _ _ hop h => h.serve hop) (.init cfg now salt epoch) hok

/-! ## The queued set -/

/-- The queued set has only requests that wait. -/
def Faithful (c : Core) : Prop := ∀ r ∈ c.ready.queued, ∃ rec, c.Waits r rec

namespace Faithful

variable {c : Core}

theorem put (h : Faithful c) (fin : RequestRecord) (hold : ∀ rec, ¬c.Waits fin.requestId rec) :
    Faithful (c.put fin) := by
  intro r hr
  obtain ⟨rec, hwaits⟩ := h r hr
  have hne : fin.requestId ≠ r := fun he => hold rec (he ▸ hwaits)
  exact ⟨rec, (Keyed.find_put_ne c.requests (v := fin) hne).trans hwaits.1, hwaits.2⟩

theorem dequeue (h : Faithful c) (out fin : RequestRecord) (hid : fin.requestId = out.requestId) :
    Faithful ({ c with ready := c.ready.dequeue c.cfg out }.put fin) := by
  intro r hr
  obtain ⟨hne, hr⟩ := USet.mem_erase.1 (show r ∈ c.ready.queued.erase out.requestId from hr)
  obtain ⟨rec, hwaits⟩ := h r hr
  exact ⟨rec, (Keyed.find_put_ne c.requests (v := fin) (hid ▸ hne.symm)).trans hwaits.1, hwaits.2⟩

theorem enqueue (h : Faithful c) (new : RequestRecord) : Faithful (c.enqueue new) := by
  intro r hr
  by_cases he : r = new.requestId
  · exact ⟨_, (c.waits_enqueue new r _).2 (.inl ⟨he, rfl⟩)⟩
  · obtain ⟨rec, hwaits⟩ := h r ((USet.mem_insert.1 hr).resolve_left he)
    exact ⟨rec, (c.waits_enqueue new r rec).2 (.inr ⟨he, hwaits⟩)⟩

theorem act {m : Move} (h : Faithful c) (hen : Enabled c m) (hm : Unqueued m) : Faithful (c.act m) := by
  have hframe : ∀ ids pool, Faithful { c with ids := ids, pool := pool } := fun _ _ => h
  -- The record written over does not wait.
  have hout : ∀ {rec fin : RequestRecord}, c.Holds rec → rec.state ≠ .queued → fin.requestId = rec.requestId →
      ∀ rec', ¬c.Waits fin.requestId rec' := by
    intro rec fin hf hs hid rec' hr
    rw [hid] at hr
    obtain rfl : rec = rec' := Option.some.inj (hf.symm.trans hr.1)
    exact hs hr.2
  cases m with
  | advance | draw | pop | sleep | sweep | setWorker | dropWorker => exact h
  | refuse rec => exact h.put rec fun rec' hr => absurd (hen.1.symm.trans hr.1) (by simp)
  | accept spec rid => exact (hframe c.ids.tick.tick c.pool).enqueue _
  | expire rec => exact h.dequeue rec rec.expire rfl
  | reserve wr members =>
    intro r hr
    obtain ⟨hr, hnot⟩ := (Core.act_reserve_queued hen r).1 hr
    obtain ⟨rec, hwaits⟩ := h r hr
    exact ⟨rec, (Core.act_reserve_find hen.1 r).trans ((if_neg hnot).trans hwaits.1), hwaits.2⟩
  | start rec wr snap =>
    exact (hframe c.ids (c.pool.start wr rec.batchId rec.requestId rec.currentAttempt snap)).put
      (rec.start wr.id c.now) (hout hen.1 (by simp [hen.2.1]) rfl)
  | finish rec w e =>
    refine (hframe c.ids (c.pool.releaseMember w rec)).put _ (hout hen.1 hm ?_)
    rw [Ending.close_requestId, Pool.released_requestId, Ending.note_requestId]
  | cancel rec asked w reason =>
    exact (hframe c.ids (if rec.onWorker then c.pool.releaseMember w rec else c.pool)).dequeue
      (c.unworked w { rec with cancelReason := asked })
      ((c.unworked w { rec with cancelReason := asked }).cancel reason) rfl
  | flag rec asked =>
    have hs : rec.state ≠ .queued := by rcases hen.2 with hs | hs <;> simp [hs]
    exact h.put { rec with cancelReason := asked, cancellationRequested := true } (hout hen.1 hs rfl)
  | retry rec r => exact (hframe c.ids.tick.tick (c.pool.releaseMember r.worker rec)).enqueue _

theorem rebuildReady {s : Impl} (h : s.ready.queued = ∅) : Faithful s.rebuildReady.core := by
  intro r hr
  rw [Impl.rebuildReady_core] at hr
  rcases (Ready.mem_queued_enqueueAll s.cfg s.now _ _ r).1 hr with ⟨old, hold, hid⟩ | hr
  · exact ⟨old.requeue, Impl.waits_rebuildReady.2 ⟨old, hold, hid, rfl⟩⟩
  · exact absurd (show r ∈ s.ready.queued from hr) (by rw [h]; exact USet.notMem_empty r)

end Faithful

/-! ## The labels of the heap entries -/

/-- An entry carries the priority of its flow and the number of its request. -/
def Labelled (c : Core) : Prop :=
  ∀ k, ∀ e ∈ (c.ready.flow k).pending.entries, e.prio = k.priority ∧ e.idv = e.id.value

namespace Labelled

variable {c : Core}

theorem enqueue (h : Labelled c) (new : RequestRecord) : Labelled (c.enqueue new) := by
  intro k e he
  rw [show (c.enqueue new).ready = c.ready.enqueue c.cfg c.now new from rfl, Ready.pending_enqueue] at he
  split at he
  · next hk =>
    rcases Heap.mem_push.1 he with rfl | he
    · exact ⟨hk ▸ rfl, rfl⟩
    · exact h k e he
  · exact h k e he

theorem reserveMember (h : Labelled c) (bid : BatchId) (id : RequestId) : Labelled (c.reserveMember bid id) := by
  unfold Core.reserveMember
  split
  · exact h
  · intro k e he
    rw [Ready.pending_accountFlow] at he
    exact h k e he

theorem foldl_reserveMember (bid : BatchId) : ∀ (ids : List RequestId) {c : Core}, Labelled c →
    Labelled (ids.foldl (Core.reserveMember bid) c)
  | [], _, h => h
  | id :: ids, _, h => foldl_reserveMember bid ids (h.reserveMember bid id)

theorem act (h : Labelled c) (m : Move) : Labelled (c.act m) := by
  have hframe : ∀ ids pool, Labelled { c with ids := ids, pool := pool } := fun _ _ => h
  cases m with
  | advance | draw | sleep | sweep | setWorker | dropWorker | refuse | expire | start | finish | cancel | flag => exact h
  | accept spec rid => exact (hframe c.ids.tick.tick c.pool).enqueue _
  | pop k n =>
    intro k' e he
    rw [Core.flow_pop] at he
    split at he
    · exact h k' e (List.mem_of_mem_drop he)
    · exact h k' e he
  | reserve wr members => exact foldl_reserveMember _ members (hframe _ _)
  | retry rec r => exact (hframe c.ids.tick.tick (c.pool.releaseMember r.worker rec)).enqueue _

theorem rebuildReady {s : Impl} (h : s.ready.flows = ∅) : Labelled s.rebuildReady.core := by
  intro k e he
  rw [Impl.rebuildReady_core] at he
  rcases (Ready.mem_pending_enqueueAll s.cfg s.now _ _ k e).1 he with ⟨rec, _, hk, rfl⟩ | he
  · exact ⟨hk ▸ rfl, rfl⟩
  · rw [show ({ s.ready with globalQueued := 0 } : Ready).flow k = s.ready.flow k from rfl, Ready.flow, h] at he
    cases he

end Labelled

/-! ## Runs in which the queue is right -/

/-- What a recovery of this file reads has an attempt for every request that is
not over. -/
def Attended (file : Option Bytes) : Prop :=
  ∀ payload img, readPersistenceFile file = .ok payload → readable payload = some img →
    ∀ r ∈ img.requests, r.live = true → r.history ≠ []

theorem Flighted.recovered {s : Impl} {img : SavedState} {c : Core} (hc : s.Recovered img c)
    (h : ∀ r ∈ img.requests, r.live = true → r.history ≠ []) : Flighted c := by
  refine ⟨fun w wr hw r hr => ?_, fun r rec hf => ?_⟩
  · obtain ⟨saved, _, rfl⟩ := hc.worker hw
    exact absurd hr (AList.notMem_empty r)
  · obtain ⟨saved, hsaved, hlive, hrec⟩ := hc.saved hf
    cases hend : isTerminal rec.state with
    | true => exact .inl rfl
    | false =>
      right
      rcases hrec with rfl | rfl <;> exact fun hnil => h saved hsaved (hlive hend) (List.map_eq_nil_iff.1 hnil)

/-- Submissions use new ids, reports come from the worker that holds the
request, and a recovery is of a file that is read to its end and has the
attempts of its requests. -/
def Regular (s : Impl) : ServiceOp → Prop
  | .op op => FreshSubmit s op ∧ OnHolder s op
  | .recover file => Whole file ∧ Attended file

/-- The queue, the flows and the workers are in order. -/
structure InOrder (c : Core) : Prop where
  lined : Lined c
  faithful : Faithful c
  labelled : Labelled c
  flighted : Flighted c

theorem InOrder.serve {s : Impl} {op : ServiceOp} (h : InOrder s.core) (hop : Regular s op) :
    InOrder (recoverable.next s op).core := by
  cases op with
  | op op =>
    refine (step_leads hop.1).invariant (fun c m hstep hc => ?_) h
    obtain ⟨hu, hr⟩ := unqueued_of_onHolder hop.2 hstep hc.flighted
    exact ⟨hc.lined.act hstep.1, hc.faithful.act hstep.1 hu, hc.labelled.act m, hc.flighted.act hstep.1 hr⟩
  | recover file =>
    show InOrder (s.doRecover file).1.core
    rcases s.doRecover_cases file with ⟨mode, heq⟩ | ⟨payload, img, hfile, hread, ⟨heq, hcut⟩ | heq⟩ <;>
      rw [heq, Impl.mode_core]
    · exact h
    · -- The file is not one that is read halfway.
      obtain ⟨img', rest, hd⟩ := hop.1 payload hfile (readable_isSome_iff.1 (by rw [hread]; rfl))
      exact absurd hd (hcut img' rest)
    · exact ⟨Lined.rebuildReady rfl, Faithful.rebuildReady rfl, Labelled.rebuildReady rfl,
        .recovered (Impl.recovered_rebuildReady _ img) (hop.2 payload img hfile hread)⟩

theorem InOrder.served {cfg : SchedulerConfig} {now : ClockTime} {salt : UInt64} {epoch : Option SchedulerEpoch}
    {ops : List ServiceOp} (hok : recoverable.Allowed Regular (Impl.init cfg now salt epoch) ops) :
    InOrder (recoverable.run (Impl.init cfg now salt epoch) ops).core :=
  run_invariant (I := fun s => InOrder s.core) (fun _ _ hop h => h.serve hop)
    ⟨.init cfg now salt epoch, fun r hr => absurd hr (USet.notMem_empty r), fun _ _ he => (List.not_mem_nil he).elim,
      .init cfg now salt epoch⟩ hok

/-- Runs of the operations alone are among them. -/
theorem allowed_regular {s : Impl} {ops : List Op}
    (hok : scheduler.Allowed (fun s op => FreshSubmit s op ∧ OnHolder s op) s ops) :
    recoverable.Allowed Regular s (ops.map .op) := by
  induction ops generalizing s with
  | nil => trivial
  | cons op ops ih => exact ⟨hok.1, ih hok.2⟩

end InferenceScheduler
