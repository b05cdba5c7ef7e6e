/-
What a dispatch leaves. A planning call that answers `Dispatch` has moved the
members of the batch, all of them queued and in time, from the queue to the
worker it names, and has charged the worker and the scheduler the sum of their
rounded costs; nothing else changes, overdue requests apart. A planning call also
takes a request that is admitted and not queued; there is none, unless a recovery
has stopped halfway.
-/
import InferenceScheduler.Placing
import InferenceScheduler.Restart

namespace InferenceScheduler

open Binary

/-- The postcondition of a dispatch from `s` to `s'`. -/
structure DispatchPost (s s' : Impl) (out : DispatchOutcome) : Prop where
  first : out.batchMembers.head? = some out.requestId
  nodup : out.batchMembers.Nodup
  before : ∀ id ∈ out.batchMembers, ∃ rec, s.requests.find id = some rec ∧ rec.state = .queued ∧
    rec.spec.deadline.expired s.now = false
  after : ∀ id ∈ out.batchMembers, ∃ rec, s'.requests.find id = some rec ∧ rec.state = .reserved ∧
    rec.inBatch = true ∧ rec.batchId = out.batchId
  unindexed : ∀ id ∈ out.batchMembers, id ∉ s'.ready.queued ∧ ∀ k, id ∉ s'.ready.bucket k
  worker : ∃ wr wr', s.pool.workers.find out.workerId = some wr ∧ s'.pool.workers.find out.workerId = some wr' ∧
    (wr.state = .online ∨ wr.state = .busy) ∧ wr'.reservedUnits = wr.reservedUnits + s.batchUnits out.batchMembers ∧
    0 ≤ wr'.resource.availableCapacityUnits - wr'.reservedUnits
  global : s'.pool.globalReservedUnits = s.pool.globalReservedUnits + s.batchUnits out.batchMembers
  others : ∀ id ∉ out.batchMembers, s'.requests.find id = s.requests.find id ∨
    ∃ rec, s.requests.find id = some rec ∧ rec.state = .queued ∧ rec.spec.deadline.expired s.now = true ∧
      s'.requests.find id = some rec.expire

/-! ## The members -/

theorem Core.notMem_bucket_foldl_reserveMember (bid : BatchId) (ids : List RequestId) (c : Core) {id : RequestId}
    {m : RequestRecord} (hid : id ∈ ids) (hf : c.requests.find id = some m) :
    id ∉ (ids.foldl (Core.reserveMember bid) c).ready.bucket (compatKey c.cfg m.spec) := by
  induction ids generalizing c with
  | nil => cases hid
  | cons a ids ih =>
    rw [List.foldl_cons]
    by_cases ha : a = id
    · subst ha
      intro hmem
      have hstep := Core.bucket_foldl_reserveMember bid ids (c.reserveMember bid a) hmem
      simp only [Core.reserveMember, hf] at hstep
      obtain ⟨_, hleft⟩ := (c.ready.mem_bucket_dequeue c.cfg m _ a).1 hstep
      exact hleft ⟨rfl, (Keyed.key_of_find hf).symm⟩
    · have hrest := ih (c.reserveMember bid a) ((List.mem_cons.1 hid).resolve_left (Ne.symm ha))
        (by rw [Core.reserveMember_find, if_neg ha]; exact hf)
      rwa [(Core.reserveMember_frame bid c a).1] at hrest

/-- A member leaves the bucket of its key. -/
theorem Core.notMem_bucket_act_reserve {c : Core} (wr : WorkerRecord) {members : List RequestId} {id : RequestId}
    {m : RequestRecord} (hid : id ∈ members) (hf : c.requests.find id = some m) :
    id ∉ (c.act (.reserve wr members)).ready.bucket (compatKey c.cfg m.spec) :=
  Core.notMem_bucket_foldl_reserveMember c.ids.peek members { c with ids := c.ids.tick, pool := _ } hid hf

/-- The members of a batch wait in time, if its seed does. -/
theorem Impl.planMembers_in_time {s : Impl} {r : RequestId} {rec : RequestRecord} (hr : s.core.Waits r rec)
    (hexp : rec.spec.deadline.expired s.now = false) {id : RequestId} (hid : id ∈ s.planMembers r s.now) :
    ∃ m, s.core.Waits id m ∧ m.spec.deadline.expired s.now = false := by
  obtain ⟨n, heq⟩ : ∃ n, s.planMembers r s.now = r :: _ := planMembers_cons hr.1
  rw [heq] at hid
  rcases List.mem_cons.1 hid with rfl | hid
  · exact ⟨rec, hr, hexp⟩
  · exact (mem_candidates.1 (List.mem_of_mem_take hid)).2.2.2

/-! ## The worker -/

/-- The worker of a batch has room for it. -/
theorem Dispatched.hasRoom {t s' : Impl} {r : RequestId} {wr : WorkerRecord} {out : DispatchOutcome}
    (h : Dispatched t s' r wr out) :
    wr.HasRoom (t.specOf r) (ceilCost (t.batchCost out.batchMembers)) ∧ t.batchUnits out.batchMembers ≤ wr.avail := by
  obtain ⟨rec, hf, _⟩ := h.planned.runnable
  obtain ⟨n, heq⟩ : ∃ n, t.planMembers r t.now = r :: _ := Impl.planMembers_cons hf
  have hchosen := h.planned.chosen
  have hroom : wr.HasRoom (t.specOf r) (ceilCost (t.batchCost out.batchMembers)) := by
    rcases t.selectWorker_spec r ((t.candidates r rec.spec t.now).take n) (t.batchCost out.batchMembers) t.now
      with ⟨hnone, _⟩ | ⟨wr', hwr', hid, hfit, _⟩
    · rw [← heq, ← h.planned.formed] at hnone
      rw [hnone] at hchosen
      have hvalid := h.planned.valid
      rw [Keyed.key_of_find hchosen] at hvalid
      cases hvalid
    · rw [← heq, ← h.planned.formed] at hid
      rw [hid, hwr'] at hchosen
      obtain rfl := Option.some.inj hchosen
      exact (rejectReason_eq_none.1 hfit).1
  refine ⟨hroom, not_lt.1 fun hlt => h.planned.fits ⟨?_, hlt⟩⟩
  have hone := ceilCost_pos (t.batchCost out.batchMembers)
  have htotal := hroom.total
  omega

theorem Impl.doPlanNext_requestId {s : Impl} {ex : Bool} {out : DispatchOutcome} (h : (s.doPlanNext ex).2 = .ok out)
    (hdispatch : out.decision = .dispatch) : s.planNextSeed.2 = some out.requestId := by
  unfold doPlanNext at h
  simp only at h
  split at h
  · obtain rfl := Except.ok.inj h
    cases hdispatch
  · next id hseed => rw [hseed, doPlanDispatch_requestId h]

section reserved

variable {s t s' : Impl} {r : RequestId} {wr : WorkerRecord} {out : DispatchOutcome}

/-- The members are taken from the indexes. -/
theorem Dispatched.unindexed (h : Dispatched t s' r wr out) (hlapsed : Lapsed s.now s.core t.core)
    (hbucket : Bucketed s.core) {id : RequestId} {m : RequestRecord} (hid : id ∈ out.batchMembers)
    (hm : s.core.Waits id m) (hexp : m.spec.deadline.expired s.now = false) :
    id ∉ s'.ready.queued ∧ ∀ k, id ∉ s'.ready.bucket k := by
  have hqueued := Core.act_reserve_queued h.enabled id
  refine ⟨fun hmem => ?_, fun k hk => ?_⟩
  · rw [← h.core] at hqueued
    exact (hqueued.1 hmem).2 hid
  · -- Only the bucket of its key could hold it.
    have hkeep : t.core.requests.find id = some m := hlapsed.keeps hm.1 fun _ => hexp
    rw [show s'.ready = s'.core.ready from rfl, h.core] at hk
    have hold := t.core.bucket_act_reserve wr out.batchMembers hk
    obtain ⟨m', hf', hkey⟩ := hbucket k id (((hlapsed.index id (hkeep.trans hm.1.symm)).2 k).1 hold)
    obtain rfl := Option.some.inj (hm.1.symm.trans hf')
    rw [← hkey, ← hlapsed.cfg] at hk
    exact Core.notMem_bucket_act_reserve wr hid hkeep hk

theorem Dispatched.pool_eq (h : Dispatched t s' r wr out) (hlapsed : Lapsed s.now s.core t.core) :
    s'.pool = s.pool.reserve wr.id t.idFactory.peek (s.batchUnits out.batchMembers) out.batchMembers := by
  have hunits : t.core.batchUnits out.batchMembers = s.batchUnits out.batchMembers :=
    congrFun (Impl.batchUnits_congr (Impl.specOf_congr hlapsed.spec)) out.batchMembers
  have hframe := (t.core.act_reserve_frame wr out.batchMembers).2.2.2
  rw [← h.core, hunits, hlapsed.pool] at hframe
  exact hframe

end reserved

/-- A dispatch from a state whose structures agree meets its postcondition. -/
theorem Plans.dispatchPost {s s' : Impl} (hlined : Lined s.core) (hbucket : Bucketed s.core) {out : DispatchOutcome}
    (hplan : Plans s (s', .ok out)) (hdispatch : out.decision = .dispatch) : DispatchPost s s' out := by
  obtain ⟨t, wr, hlapsed, hd, hmembers, rec, hf, hstate, hexp⟩ := hplan.reserves hdispatch
  have hseed : s.core.Waits out.requestId rec := ⟨hf, hstate.resolve_right (hlined.admitted _ rec hf)⟩
  obtain ⟨n, hcons⟩ : ∃ n, s.planMembers out.requestId s.now = out.requestId :: _ := Impl.planMembers_cons hf
  have hin : ∀ id ∈ out.batchMembers, ∃ m, s.core.Waits id m ∧ m.spec.deadline.expired s.now = false :=
    fun id hid => Impl.planMembers_in_time hseed hexp (hmembers ▸ hid)
  have hfind : ∀ id, s'.core.requests.find id = if id ∈ out.batchMembers then
      (t.core.requests.find id).map (·.reserve t.idFactory.peek t.now) else t.core.requests.find id := by
    intro id
    rw [hd.core, Core.act_reserve_find hd.enabled.1]
    rfl
  have hpool := hd.pool_eq hlapsed
  have hwr : s.pool.workers.find wr.id = some wr := by
    have h := hd.enabled.2.2.1
    rw [hlapsed.pool] at h
    exact h
  obtain ⟨hroom, havail⟩ := hd.hasRoom
  rw [Impl.batchUnits_congr (Impl.specOf_congr hlapsed.spec)] at havail
  exact
    { first := by rw [hmembers, hcons, List.head?_cons]
      nodup := hd.enabled.1
      before := fun id hid => by
        obtain ⟨m, hm, hm'⟩ := hin id hid
        exact ⟨m, hm.1, hm.2, hm'⟩
      after := fun id hid => by
        obtain ⟨m, hm, hm'⟩ := hin id hid
        refine ⟨m.reserve t.idFactory.peek t.now, ?_, rfl, rfl, hd.batch.symm⟩
        rw [show s'.requests.find id = _ from hfind id, if_pos hid, hlapsed.keeps hm.1 fun _ => hm', Option.map_some]
      unindexed := fun id hid => by
        obtain ⟨m, hm, hm'⟩ := hin id hid
        exact hd.unindexed hlapsed hbucket hid hm hm'
      worker := by
        rw [hd.worker, hpool, Pool.find_reserve hwr, if_pos rfl]
        refine ⟨wr, _, hwr, rfl, hroom.up, rfl, ?_⟩
        simp only [WorkerRecord.takeBatch]
        unfold WorkerRecord.avail at havail
        omega
      global := by rw [hpool, Pool.reserve, hwr]
      others := fun id hid => by
        rw [show s'.requests.find id = _ from hfind id, if_neg hid]
        rcases hlapsed.record id with hsame | ⟨old, hold, hexp, hnew⟩
        · exact .inl hsame
        · exact .inr ⟨old, hold.1, hold.2, hexp, hnew⟩ }

/-- An image that breaks off behind its only request, which is admitted. -/
def brokenOffAdmitted : Bytes :=
  let r := ({ requestId := ⟨7⟩, state := .admitted, spec := plainSpec } : RequestRecord).save 0
  putU32 0x49534348 ++ (putU32 1 ++ (Impl.durable.saveHeader.pieces.flatten ++ (putCount [r] ++ r.pieces.flatten)))

end InferenceScheduler
