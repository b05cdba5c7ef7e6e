/-
Plans that dispatch nothing. `plan_dispatch` and `plan_next_dispatch` begin with
an expiry scan, so a call that ends without a dispatch still expires every
overdue request and counts it out. `fruitless_plan`: that, thinner heaps and the
event log are all it leaves behind.
-/
import InferenceScheduler.Conservation
import InferenceScheduler.Expiry
import InferenceScheduler.Restart

namespace InferenceScheduler

/-! ## Counting out -/

namespace Impl

/-- What is left of the state without the parts that expiry writes to. -/
def settled (s : Impl) : Impl :=
  { s with
    requests := ∅, tenants := ∅, ready := {}, globalAdmitted := 0, eventLog := [], eventSeq := 0, stats := {} }

/-- `s'` is `s` once the requests `ids` have expired: each has left the queue
and has been counted out, and nothing else changes but the tenants' queued
counters and the event log. -/
structure Sheds (s : Impl) (ids : List RequestId) (s' : Impl) : Prop where
  settled : s'.settled = s.settled
  queued : ∀ r, r ∈ s'.ready.queued ↔ r ∈ s.ready.queued ∧ r ∉ ids
  bucket : ∀ k r, r ∈ s'.ready.bucket k ↔ r ∈ s.ready.bucket k ∧ ¬(k = compatKey s.cfg (s.specOf r) ∧ r ∈ ids)
  globalQueued : s'.ready.globalQueued = s.ready.globalQueued - ids.length
  virtualTime : s'.ready.virtualTime = s.ready.virtualTime
  admitted : s'.globalAdmitted = s.globalAdmitted - ids.length
  tenant : ∀ t, ∃ q, s'.tenants.find t = (s.tenants.find t).map fun tr =>
    { tr with admitted := tr.admitted - ids.countP (fun id => (s.specOf id).tenant == t), queued := q }
  stats : s'.stats = { s.stats with requestsExpired := s.stats.requestsExpired + ids.length }

variable {s s' : Impl} {ids : List RequestId} {id : RequestId} {rec : RequestRecord}

theorem expireId_eq (hr : s.core.Waits id rec) :
    ∃ log seq, s.expireId id = { s.expireQueued rec with eventLog := log, eventSeq := seq } := by
  rw [expireId, show s.requests.find id = some rec from hr.1]
  simp only
  rw [expireRequest_eq s hr.2]
  split
  · exact ⟨_, _, rfl⟩
  · exact ⟨_, _, rfl⟩

theorem find_expireQueued_tenants {tr : TenantRecord} (htenant : s.tenants.find rec.spec.tenant = some tr) (t : TenantId) :
    (s.expireQueued rec).tenants.find t =
      if rec.spec.tenant = t then some { tr with admitted := decPos tr.admitted, queued := decPos tr.queued }
      else s.tenants.find t := by
  have hdequeue : ∀ t, (s.dequeueRequest rec).tenants.find t =
      if rec.spec.tenant = t then (s.tenants.find t).map fun t => { t with queued := decPos t.queued }
      else s.tenants.find t :=
    find_onTenantIfAny { s with ready := s.ready.dequeue s.cfg rec } rec.spec.tenant fun _ => rfl
  have hcount := (s.dequeueRequest rec).find_onTenant rec.spec.tenant
    (f := fun t => { t with admitted := decPos t.admitted }) (fun _ => rfl) t
  rw [expireQueued, hcount, hdequeue]
  split
  · rw [tenantOf, hdequeue, if_pos rfl, htenant]
    rfl
  · rfl

theorem Sheds.expireId (h : s.Sheds ids s') (hnot : id ∉ ids) (hr : s.core.Waits id rec)
    (hr' : s'.core.Waits id rec) (hqueued : id ∈ s.ready.queued) (hhome : (s.tenants.find rec.spec.tenant).isSome = true)
    (hglobal : (ids.length : ℤ) < s.globalAdmitted)
    (htenant : (ids.countP (fun id => (s.specOf id).tenant == rec.spec.tenant) : ℤ) <
      (s.tenantOf rec.spec.tenant).admitted) :
    s.Sheds (ids ++ [id]) (s'.expireId id) := by
  obtain ⟨log, seq, heq⟩ := expireId_eq hr'
  have hspec : s.specOf id = rec.spec := specOf_of_find hr.1
  have hid : rec.requestId = id := Keyed.key_of_find hr.1
  have hmem : rec.requestId ∈ s'.ready.queued := hid ▸ (h.queued id).2 ⟨hqueued, hnot⟩
  have hcfg : s'.cfg = s.cfg := by
    show s'.settled.cfg = s.settled.cfg
    rw [h.settled]
  obtain ⟨tr, htr⟩ := Option.isSome_iff_exists.1 hhome
  rw [tenantOf, htr, Option.getD_some] at htenant
  rw [heq]
  refine ⟨h.settled, fun r => ?_, fun k r => ?_, ?_, h.virtualTime, ?_, fun t => ?_, ?_⟩
  · rw [List.mem_append, List.mem_singleton, not_or, ← and_assoc, ← h.queued r, and_comm, ← hid]
    exact USet.mem_erase
  · rw [List.mem_append, List.mem_singleton]
    refine (s'.ready.mem_bucket_dequeue s'.cfg rec k r).trans ?_
    rw [h.bucket k r, hcfg, hid]
    constructor
    · intro hr
      obtain ⟨⟨hr, hold⟩, hnew⟩ := hr
      refine ⟨hr, fun hleft => ?_⟩
      rcases hleft with ⟨hk, hr | rfl⟩
      · exact hold ⟨hk, hr⟩
      · exact hnew ⟨by rw [hk, hspec], rfl⟩
    · intro hr
      refine ⟨⟨hr.1, fun hleft => hr.2 ⟨hleft.1, .inl hleft.2⟩⟩, fun hleft => ?_⟩
      obtain ⟨hk, rfl⟩ := hleft
      exact hr.2 ⟨by rw [hk, hspec], .inr rfl⟩
  · show (if rec.requestId ∈ s'.ready.queued then s'.ready.globalQueued - 1 else s'.ready.globalQueued) = _
    rw [if_pos hmem, h.globalQueued, List.length_append, List.length_singleton]
    push_cast
    omega
  · show decPos s'.globalAdmitted = _
    rw [h.admitted, decPos, if_pos (by omega), List.length_append, List.length_singleton]
    push_cast
    omega
  · obtain ⟨q, hq⟩ := h.tenant t
    obtain ⟨q', hq'⟩ := h.tenant rec.spec.tenant
    rw [htr, Option.map_some] at hq'
    simp only [find_expireQueued_tenants hq' t, List.countP_append, List.countP_singleton, hspec, beq_iff_eq]
    by_cases ht : rec.spec.tenant = t
    · subst ht
      refine ⟨decPos q', ?_⟩
      rw [if_pos rfl, if_pos rfl, htr, Option.map_some, decPos, if_pos (by omega), Nat.cast_add, Nat.cast_one, sub_sub]
    · exact ⟨q, by rw [if_neg ht, if_neg ht, hq, Nat.add_zero]⟩
  · show { s'.stats with requestsExpired := s'.stats.requestsExpired + 1 } = _
    rw [h.stats, List.length_append, List.length_singleton]
    rfl

end Impl

/-! ## The expiry scan -/

/-- What counts requests and tenants is right. -/
structure Impl.Counted (s : Impl) : Prop where
  lined : Lined s.core
  bucketed : Bucketed s.core
  conserved : Conserved s.book
  housed : s.Housed

theorem Impl.Counted.run {cfg : SchedulerConfig} {now : ClockTime} {salt : UInt64} {epoch : Option SchedulerEpoch}
    {ops : List Op} (hfresh : scheduler.Allowed FreshSubmit (Impl.init cfg now salt epoch) ops) :
    (scheduler.run (Impl.init cfg now salt epoch) ops).Counted := by
  have hhoused : (scheduler.run (Impl.init cfg now salt epoch) ops).Housed := by
    refine Machine.run_invariant (I := Impl.Housed) (fun s op _ hs => ?_) (housed_init cfg now salt epoch) hfresh
    exact hs.step op
  exact ⟨.run cfg now salt epoch ops, .run cfg now salt epoch ops, conserved_run hfresh, hhoused⟩

/-- A queued request whose deadline has passed. -/
def RequestRecord.overdue (now : ClockTime) (rec : RequestRecord) : Bool :=
  rec.state == .queued && rec.spec.deadline.expired now

namespace Impl

variable {s : Impl} {ids : List RequestId}

theorem Sheds.refl (s : Impl) : s.Sheds [] s := by
  refine ⟨rfl, by simp, by simp, by simp, rfl, by simp, fun t => ?_, rfl⟩
  cases hf : s.tenants.find t with
  | none => exact ⟨0, rfl⟩
  | some tr => exact ⟨tr.queued, by simp⟩

/-- Queued requests are counted out as they expire. -/
theorem Counted.sheds (h : s.Counted) (hnodup : ids.Nodup) (hids : ∀ id ∈ ids, ∃ rec, s.core.Waits id rec) :
    s.Sheds ids (s.expireAll ids) := by
  induction ids using List.reverseRecOn with
  | nil => exact Sheds.refl s
  | append_singleton ids id ih =>
    obtain ⟨hfront, _, hnew⟩ := List.nodup_append.1 hnodup
    have hnot : id ∉ ids := fun hmem => hnew id hmem id (by simp) rfl
    obtain ⟨rec, hr⟩ := hids id (by simp)
    have hr' : (s.expireAll ids).core.Waits id rec := by
      refine ⟨?_, hr.2⟩
      show (s.expireAll ids).requests.find id = some rec
      rw [find_expireAll, if_neg hnot]
      exact hr.1
    have hlive : ∀ j ∈ ids ++ [id], ∃ rec, s.requests.find j = some rec ∧ rec.live = true ∧ s.specOf j = rec.spec := by
      intro j hj
      obtain ⟨rec, hf, hs⟩ := hids j hj
      exact ⟨rec, hf, by simp [RequestRecord.live, hs, isTerminal], specOf_of_find hf⟩
    -- The requests still to be counted out are among those counted in.
    have hglobal : ((ids ++ [id]).length : ℤ) ≤ s.globalAdmitted := by
      rw [show s.globalAdmitted = _ from h.conserved.global]
      refine Nat.cast_le.2 (Keyed.length_le_count hnodup fun j hj => ?_)
      obtain ⟨rec, hf, hlive, _⟩ := hlive j hj
      exact ⟨rec, hf, hlive⟩
    have htenant : ((ids ++ [id]).countP (fun j => (s.specOf j).tenant == rec.spec.tenant) : ℤ) ≤
        (s.tenantOf rec.spec.tenant).admitted := by
      rw [show (s.tenantOf rec.spec.tenant).admitted = _ from h.conserved.tenant rec.spec.tenant,
        List.countP_eq_length_filter]
      refine Nat.cast_le.2 (Keyed.length_le_count (hnodup.filter _) fun j hj => ?_)
      obtain ⟨hj, ht⟩ := List.mem_filter.1 hj
      obtain ⟨rec', hf, hlive, hspec⟩ := hlive j hj
      rw [hspec] at ht
      exact ⟨rec', hf, by simp only [RequestRecord.liveOf, ht, hlive, Bool.and_self]⟩
    have hspec : s.specOf id = rec.spec := specOf_of_find hr.1
    rw [List.length_append, List.length_singleton, Nat.cast_add, Nat.cast_one] at hglobal
    rw [List.countP_append, List.countP_singleton, hspec, if_pos (beq_self_eq_true _), Nat.cast_add,
      Nat.cast_one] at htenant
    rw [expireAll_append]
    exact (ih hfront fun j hj => hids j (List.mem_append_left _ hj)).expireId hnot hr hr' (h.lined.queued id rec hr).1
      (h.housed id rec hr.1 (by simp [waiting, hr.2])) (by omega) (by omega)

/-! ## Planning -/

/-- No queued request is overdue. -/
def Current (s : Impl) : Prop := ∀ r rec, s.core.Waits r rec → rec.spec.deadline.expired s.now = false

theorem overdue_iff (s : Impl) (now : ClockTime) (r : RequestId) :
    s.overdue now r = true ↔ ∃ rec, s.requests.find r = some rec ∧ rec.overdue now = true := by
  cases hf : s.requests.find r with
  | none => simp [overdue, hf]
  | some rec =>
    simp only [overdue, hf, RequestRecord.overdue, Option.some.injEq, exists_eq_left', Bool.and_eq_true, beq_iff_eq]
    exact ⟨fun h => ⟨h.1.1, h.2⟩, fun h => ⟨⟨h.1, Deadline.valid_of_expired h.2⟩, h.2⟩⟩

/-- The requests of the expiry scan are the overdue ones. -/
theorem mem_overdue (h : Lined s.core) (now : ClockTime) (id : RequestId) :
    id ∈ s.ready.queued.elems.filter (s.overdue now) ↔ ∃ rec, s.requests.find id = some rec ∧ rec.overdue now = true := by
  rw [List.mem_filter, ← overdue_iff, and_iff_right_iff_imp]
  intro hover
  obtain ⟨rec, hf, hover⟩ := (s.overdue_iff now id).1 hover
  exact (h.queued id rec ⟨hf, by simpa using (Bool.and_eq_true_iff.1 hover).1⟩).1

theorem find_expireScan (h : Lined s.core) (now : ClockTime) (r : RequestId) : (s.expireScan now).requests.find r =
    (s.requests.find r).map fun rec => if rec.overdue now then rec.expire else rec := by
  refine (find_expireAll _ s r).trans ?_
  cases hf : s.requests.find r with
  | none => simp
  | some rec =>
    by_cases hover : rec.overdue now = true
    · have hq : rec.state = .queued := by simpa using (Bool.and_eq_true_iff.1 hover).1
      rw [if_pos ((mem_overdue h now r).2 ⟨rec, hf, hover⟩), Option.map_some, Option.map_some, if_pos hq, if_pos hover]
    · rw [if_neg fun hmem => ?_, Option.map_some, if_neg hover]
      obtain ⟨rec', hf', hover'⟩ := (mem_overdue h now r).1 hmem
      obtain rfl := Option.some.inj (hf.symm.trans hf')
      exact hover hover'

theorem current_expireScan (h : Lined s.core) : (s.expireScan s.now).Current := by
  intro r rec hr
  have hf : (s.expireScan s.now).requests.find r = some rec := hr.1
  rw [find_expireScan h, Option.map_eq_some_iff] at hf
  obtain ⟨old, _, hrec⟩ := hf
  rw [expireScan_now]
  split at hrec
  · subst hrec
    cases hr.2
  · next hover =>
    subst hrec
    simpa [RequestRecord.overdue, hr.2] using hover

theorem Current.expireScan (h : s.Current) : s.expireScan s.now = s := by
  have hnone : s.ready.queued.elems.filter (s.overdue s.now) = [] := by
    refine List.filter_eq_nil_iff.2 fun id _ => ?_
    unfold overdue
    cases hf : s.requests.find id with
    | none => simp
    | some rec =>
      intro hover
      simp only [Bool.and_eq_true, beq_iff_eq] at hover
      rw [h id rec ⟨hf, hover.1.1⟩] at hover
      cases hover.2
  rw [Impl.expireScan, hnone]
  rfl

theorem doPlanDispatch_scanned (h : Lined s.core) (r : RequestId) (ex : Bool) :
    s.doPlanDispatch r ex = (s.expireScan s.now).doPlanDispatch r ex := by
  have hidle := (current_expireScan h).expireScan
  rw [expireScan_now] at hidle
  unfold Impl.doPlanDispatch
  simp only [expireScan_now, hidle]

/-- With nothing to expire, `pick_seed` only thins the heaps. -/
theorem Current.pickSeed (h : s.Current) :
    (s.pickSeed s.now).1 = s.withFlows (s.pickSeed s.now).1.ready.flows (s.pickSeed s.now).1.ready.activeFlows ∧
      Thinned (fun e => s.core.alive s.now e = false) s.ready (s.pickSeed s.now).1.ready := by
  obtain ⟨ids, htidied⟩ := s.tidied_pickSeed s.now
  have hnone : ids = [] := by
    refine List.eq_nil_iff_forall_not_mem.2 fun id hid => ?_
    obtain ⟨rec, hr, hexp⟩ := htidied.overdue id hid
    rw [h id rec hr] at hexp
    cases hexp
  subst hnone
  exact ⟨htidied.state, htidied.ready⟩

theorem planRunnable_fruitless {rec : RequestRecord} {now : ClockTime} {ex : Bool}
    (h : (s.planRunnable rec now ex).2.decision ≠ .dispatch) : (s.planRunnable rec now ex).1 = s := by
  unfold planRunnable at h ⊢
  simp only at h ⊢
  split
  · rfl
  · next hvalid =>
    rw [if_neg hvalid] at h
    split
    · rfl
    · split
      · rfl
      · next wr hw hroom =>
        simp only [hw, if_neg hroom] at h
        exact absurd rfl h

/-- With nothing to expire, a plan that dispatches nothing changes nothing. -/
theorem Current.doPlanDispatch (h : s.Current) {r : RequestId} {ex : Bool}
    (hdispatch : ∀ out, (s.doPlanDispatch r ex).2 = .ok out → out.decision ≠ .dispatch) :
    (s.doPlanDispatch r ex).1 = s := by
  unfold Impl.doPlanDispatch at hdispatch ⊢
  simp only [h.expireScan] at hdispatch ⊢
  cases hf : s.requests.find r with
  | none => rfl
  | some rec =>
    simp only [hf] at hdispatch ⊢
    split
    · next hover =>
      have hq : rec.state ≠ .queued := by
        intro hq
        rw [h r rec ⟨hf, hq⟩, Bool.and_false] at hover
        cases hover
      rw [expireRequest, if_pos hq]
    · next hover =>
      rw [if_neg hover] at hdispatch
      split
      · rfl
      · next hrun =>
        rw [if_neg hrun] at hdispatch
        exact planRunnable_fruitless (hdispatch _ rfl)

end Impl

/-- All that happens from `s` to `s'` is that the overdue requests expire: each
leaves the queue and its bucket and is counted out by one. Beside that, dead
heap entries and drained flows go, and the tenants' queued counters and the
event log may change. -/
structure OnlyExpires (s s' : Impl) : Prop where
  settled : s'.settled = s.settled
  request : ∀ r, s'.requests.find r =
    (s.requests.find r).map fun rec => if rec.overdue s.now then rec.expire else rec
  queued : ∀ r, r ∈ s'.ready.queued ↔ r ∈ s.ready.queued ∧ s.overdue s.now r = false
  bucket : ∀ k r, r ∈ s'.ready.bucket k ↔ r ∈ s.ready.bucket k ∧ s.overdue s.now r = false
  heaps : Thinned (fun e => s.core.alive s.now e = false) s.ready s'.ready
  virtualTime : s'.ready.virtualTime = s.ready.virtualTime
  globalQueued : s'.ready.globalQueued = s.ready.globalQueued - s.requests.count (·.overdue s.now)
  admitted : s'.globalAdmitted = s.globalAdmitted - s.requests.count (·.overdue s.now)
  tenant : ∀ t, ∃ q, s'.tenants.find t = (s.tenants.find t).map fun tr =>
    { tr with
      admitted := tr.admitted - s.requests.count (fun rec => rec.spec.tenant == t && rec.overdue s.now)
      queued := q }
  stats : s'.stats =
    { s.stats with requestsExpired := s.stats.requestsExpired + s.requests.count (·.overdue s.now) }

namespace Impl

variable {s s' : Impl}

theorem expireAll_flows (ids : List RequestId) (s : Impl) : (s.expireAll ids).ready.flows = s.ready.flows := by
  have h := expireAll_withFlows ids s s.ready.flows s.ready.activeFlows
  rw [show s.withFlows s.ready.flows s.ready.activeFlows = s from rfl] at h
  rw [h]
  rfl

/-- The expiry scan, and heaps thinned after it. -/
theorem Counted.onlyExpires (h : s.Counted)
    (hstate : s' = (s.expireScan s.now).withFlows s'.ready.flows s'.ready.activeFlows)
    (hready : Thinned (fun e => (s.expireScan s.now).core.alive s.now e = false) (s.expireScan s.now).ready s'.ready) :
    OnlyExpires s s' := by
  have hmem := mem_overdue h.lined s.now
  have hnodup : (s.ready.queued.elems.filter (s.overdue s.now)).Nodup := s.ready.queued.nodup.filter _
  have hsheds : s.Sheds _ (s.expireScan s.now) := h.sheds hnodup fun id hid => by
    obtain ⟨rec, hf, hover⟩ := (hmem id).1 hid
    exact ⟨rec, hf, by simpa using (Bool.and_eq_true_iff.1 hover).1⟩
  have hcount := Keyed.length_eq_count hnodup hmem
  have htenant : ∀ t, (s.ready.queued.elems.filter (s.overdue s.now)).countP (fun id => (s.specOf id).tenant == t) =
      s.requests.count fun rec => rec.spec.tenant == t && rec.overdue s.now := by
    intro t
    rw [List.countP_eq_length_filter]
    refine Keyed.length_eq_count (hnodup.filter _) fun id => ?_
    rw [List.mem_filter, hmem, specOf]
    cases hf : s.requests.find id with
    | none => simp
    | some rec => simp [and_comm]
  have hleft : ∀ r, r ∉ s.ready.queued.elems.filter (s.overdue s.now) ↔ s.overdue s.now r = false := by
    intro r
    rw [hmem, ← overdue_iff, Bool.not_eq_true]
  obtain ⟨hscan, hactive⟩ := s.expireScan_heads s.now
  rw [hscan.alive] at hready
  have hheaps : Thinned (fun e => s.core.alive s.now e = false) s.ready (s.expireScan s.now).ready :=
    .of_eq (expireAll_flows _ s) hactive
  -- Everything but the heaps is as the scan left it.
  have hqueued : s'.ready.queued = (s.expireScan s.now).ready.queued := by rw [hstate]; rfl
  have hbucket : ∀ k, s'.ready.bucket k = (s.expireScan s.now).ready.bucket k := fun k => by rw [hstate]; rfl
  refine ⟨?_, fun r => ?_, fun r => ?_, fun k r => ?_, hheaps.trans hready, ?_, ?_, ?_, fun t => ?_, ?_⟩
  · rw [hstate]
    exact hsheds.settled
  · rw [hstate]
    exact find_expireScan h.lined s.now r
  · rw [hqueued, hsheds.queued, hleft]
  · rw [hbucket, hsheds.bucket, ← hleft]
    refine and_congr_right fun hr => not_congr (and_iff_right ?_)
    obtain ⟨rec, hf, hk⟩ := h.bucketed k r hr
    rw [specOf_of_find hf]
    exact hk.symm
  · rw [hstate]
    exact hsheds.virtualTime
  · rw [← hcount, hstate]
    exact hsheds.globalQueued
  · rw [← hcount, hstate]
    exact hsheds.admitted
  · rw [← htenant, hstate]
    exact hsheds.tenant t
  · rw [← hcount, hstate]
    exact hsheds.stats

end Impl

/-- **A plan that dispatches nothing only expires.** In every state of a run with
fresh ids, a planning call that answers an error or another decision than
`Dispatch` expires the overdue requests and does nothing else. -/
theorem fruitless_plan {cfg : SchedulerConfig} {now : ClockTime} {salt : UInt64} {epoch : Option SchedulerEpoch}
    {ops : List Op} (hfresh : scheduler.Allowed FreshSubmit (Impl.init cfg now salt epoch) ops) {s s' : Impl}
    (hs : s = scheduler.run (Impl.init cfg now salt epoch) ops) {result : Result DispatchOutcome}
    (hplan : Plans s (s', result)) (hdispatch : ∀ out, result = .ok out → out.decision ≠ .dispatch) :
    OnlyExpires s s' := by
  have h : s.Counted := hs ▸ .run hfresh
  have hcurrent := Impl.current_expireScan h.lined
  generalize hp : (s', result) = p at hplan
  cases hplan with
  | request r ex =>
    rw [Impl.doPlanDispatch_scanned h.lined] at hp
    obtain rfl : s' = s.expireScan s.now := by
      rw [show s' = _ from congrArg Prod.fst hp]
      refine hcurrent.doPlanDispatch fun out hout => hdispatch out ?_
      rw [← hout, ← hp]
    exact h.onlyExpires rfl (.refl _ _)
  | next ex =>
    have hpick := hcurrent.pickSeed
    rw [Impl.expireScan_now] at hpick
    -- The seed is planned in a state with nothing to expire.
    have hseed : s.planNextSeed.1.Current := by
      rw [show s.planNextSeed.1 = _ from hpick.1]
      exact hcurrent
    have hstate : s' = s.planNextSeed.1 := by
      unfold Impl.doPlanNext at hp
      simp only at hp
      split at hp
      · exact congrArg Prod.fst hp
      · rw [show s' = _ from congrArg Prod.fst hp]
        refine hseed.doPlanDispatch fun out hout => hdispatch out ?_
        rw [← hout, ← hp]
    subst hstate
    exact h.onlyExpires hpick.1 hpick.2

/-- Without a worker nothing can be dispatched, and request 7 is overdue. -/
theorem fruitless_plan_overdue :
    let s := scheduler.run (Impl.init {} 0 0x80000001 none)
      [.submit { plainSpec with deadline := .after 5 0 } (some ⟨7⟩), .submit plainSpec (some ⟨8⟩), .advance 6000000]
    ∃ s' out, Plans s (s', .ok out) ∧ out.decision = .noEligibleWorker ∧ s.overdue s.now ⟨7⟩ = true ∧ OnlyExpires s s' := by
  intro s
  have hout : (s.doPlanNext false).2.toOption.map (·.decision) = some .noEligibleWorker := by decide +kernel
  obtain ⟨s', out, hplan, hdecision⟩ := (Plans.next false).exists_ok hout
  refine ⟨s', out, hplan, hdecision, by decide +kernel, fruitless_plan (by decide +kernel) rfl hplan fun out' hok => ?_⟩
  obtain rfl := Except.ok.inj hok
  rw [hdecision]
  decide

end InferenceScheduler
