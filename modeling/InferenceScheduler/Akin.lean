/-
States that differ in nothing that decides.

The list order of an unordered container stands for its hash order, and the
event log records the order in which things were done. `Akin v s t` leaves
both out of account: the containers of `s` and `t` hold the same, and all else
is equal. What of a specification is compared is up to the view `v`, which
keeps at least what a submit message carries; admission, the queue and expiry
read no more than that. The operations here take states that are akin to
states that are akin.
-/
import InferenceScheduler.Effects

namespace InferenceScheduler

/-! ## Views of a specification -/

/-- What a submit message has of a specification. -/
def RequestSpec.carried (s : RequestSpec) : RequestSpec :=
  { tenant := s.tenant, session := s.session, sequence := s.sequence, model := s.model, revision := s.revision,
    adapter := s.adapter, phase := s.phase, priority := s.priority, latencyClass := s.latencyClass,
    tokens := s.tokens, demand := { costUnits := s.demand.costUnits }, deadline := s.deadline,
    estimatedMemoryBytes := s.estimatedMemoryBytes, payload := s.payload, maxBatchSize := s.maxBatchSize }

/-- What can be told from the message is the same for specifications with the same message. -/
theorem RequestSpec.congr_carried {α : Type} (f : RequestSpec → α) (hf : ∀ s, f s.carried = f s) {a b : RequestSpec}
    (h : a.carried = b.carried) : f a = f b := by
  rw [← hf a, h, hf b]

structure View where
  of : RequestSpec → RequestSpec
  carries : ∀ s, (of s).carried = s.carried

theorem View.carried_eq (v : View) {a b : RequestSpec} (h : v.of a = v.of b) : a.carried = b.carried := by
  rw [← v.carries a, ← v.carries b, h]

/-- All of a specification. -/
def View.full : View := ⟨id, fun _ => rfl⟩

/-- What a submit message has. -/
def View.wire : View := ⟨RequestSpec.carried, fun _ => rfl⟩

/-- A record with as much of its specification as is compared. -/
def RequestRecord.seen (v : View) (rec : RequestRecord) : RequestRecord := { rec with spec := v.of rec.spec }

/-- Records that look the same. -/
structure SameRecord (v : View) (a b : RequestRecord) : Prop where
  seen : a.seen v = b.seen v

namespace SameRecord

variable {v : View} {a b : RequestRecord}

@[refl] theorem refl (v : View) (a : RequestRecord) : SameRecord v a a := ⟨rfl⟩

/-- What does not read the specification reads the same. -/
theorem congr (h : SameRecord v a b) {β : Type} (f : RequestRecord → β) (hf : ∀ rec, f (rec.seen v) = f rec) :
    f a = f b := by
  rw [← hf a, h.seen, hf]

theorem requestId (h : SameRecord v a b) : a.requestId = b.requestId := h.congr _ fun _ => rfl

theorem view (h : SameRecord v a b) : v.of a.spec = v.of b.spec := congrArg RequestRecord.spec h.seen

theorem carried (h : SameRecord v a b) : a.spec.carried = b.spec.carried := v.carried_eq h.view

/-- All but the specification is the same. -/
theorem exists_spec (h : SameRecord v a b) :
    ∃ spec, b = { a with spec := spec } ∧ a.spec.carried = spec.carried := by
  refine ⟨b.spec, ?_, h.carried⟩
  have hseen := h.seen
  cases a
  cases b
  simp only [RequestRecord.seen, RequestRecord.mk.injEq] at hseen ⊢
  simp only [hseen, true_and]

/-- What is written over both records, apart from the specification, leaves them the same. -/
theorem with_spec {spec : RequestSpec} (h : v.of a.spec = v.of spec) : SameRecord v a { a with spec := spec } :=
  ⟨by rw [RequestRecord.seen, h, RequestRecord.seen]⟩

end SameRecord

/-! ## States that are akin -/

structure Akin (v : View) (s t : Impl) : Prop where
  cfg : s.cfg = t.cfg
  now : s.now = t.now
  epochValue : s.epochValue = t.epochValue
  idFactory : s.idFactory = t.idFactory
  globalAdmitted : s.globalAdmitted = t.globalAdmitted
  globalTokens : s.globalTokens = t.globalTokens
  draining : s.draining = t.draining
  drainReason : s.drainReason = t.drainReason
  recoveryMode : s.recoveryMode = t.recoveryMode
  eventSeq : s.eventSeq = t.eventSeq
  stats : s.stats = t.stats
  reservedUnits : s.pool.globalReservedUnits = t.pool.globalReservedUnits
  runningUnits : s.pool.globalRunningUnits = t.pool.globalRunningUnits
  virtualTime : s.ready.virtualTime = t.ready.virtualTime
  flows : s.ready.flows = t.ready.flows
  activeFlows : s.ready.activeFlows = t.ready.activeFlows
  globalQueued : s.ready.globalQueued = t.ready.globalQueued
  requests : ∀ id, (s.requests.find id).map (·.seen v) = (t.requests.find id).map (·.seen v)
  workers : ∀ id, s.pool.workers.find id = t.pool.workers.find id
  tenants : ∀ id, s.tenants.find id = t.tenants.find id
  queued : s.ready.queued.toFinset = t.ready.queued.toFinset
  compat : ∀ k, (s.ready.compat.lookup k).map USet.toFinset = (t.ready.compat.lookup k).map USet.toFinset

namespace Akin

variable {v : View} {s t u : Impl}

@[refl] theorem refl (v : View) (s : Impl) : Akin v s s := by constructor <;> intros <;> rfl

theorem trans (h : Akin v s t) (h' : Akin v t u) : Akin v s u where
  cfg := h.cfg.trans h'.cfg
  now := h.now.trans h'.now
  epochValue := h.epochValue.trans h'.epochValue
  idFactory := h.idFactory.trans h'.idFactory
  globalAdmitted := h.globalAdmitted.trans h'.globalAdmitted
  globalTokens := h.globalTokens.trans h'.globalTokens
  draining := h.draining.trans h'.draining
  drainReason := h.drainReason.trans h'.drainReason
  recoveryMode := h.recoveryMode.trans h'.recoveryMode
  eventSeq := h.eventSeq.trans h'.eventSeq
  stats := h.stats.trans h'.stats
  reservedUnits := h.reservedUnits.trans h'.reservedUnits
  runningUnits := h.runningUnits.trans h'.runningUnits
  virtualTime := h.virtualTime.trans h'.virtualTime
  flows := h.flows.trans h'.flows
  activeFlows := h.activeFlows.trans h'.activeFlows
  globalQueued := h.globalQueued.trans h'.globalQueued
  requests id := (h.requests id).trans (h'.requests id)
  workers id := (h.workers id).trans (h'.workers id)
  tenants id := (h.tenants id).trans (h'.tenants id)
  queued := h.queued.trans h'.queued
  compat k := (h.compat k).trans (h'.compat k)

theorem find_some (h : Akin v s t) {id : RequestId} {a : RequestRecord} (ha : s.requests.find id = some a) :
    ∃ b, t.requests.find id = some b ∧ SameRecord v a b := by
  have hreq := h.requests id
  rw [ha, Option.map_some] at hreq
  obtain ⟨b, hb, hseen⟩ := Option.map_eq_some_iff.1 hreq.symm
  exact ⟨b, hb, ⟨hseen.symm⟩⟩

theorem find_none (h : Akin v s t) {id : RequestId} (ha : s.requests.find id = none) :
    t.requests.find id = none := by
  have hreq := h.requests id
  rw [ha, Option.map_none] at hreq
  exact Option.map_eq_none_iff.1 hreq.symm

theorem mem_queued (h : Akin v s t) {id : RequestId} : id ∈ s.ready.queued ↔ id ∈ t.ready.queued := by
  rw [← USet.mem_toFinset, h.queued, USet.mem_toFinset]

theorem flow (h : Akin v s t) (k : FlowKey) : s.ready.flow k = t.ready.flow k := by
  rw [Ready.flow, Ready.flow, h.flows]

theorem bucket (h : Akin v s t) (k : CompatKey) : (s.ready.bucket k).toFinset = (t.ready.bucket k).toFinset := by
  have hk := h.compat k
  rw [Ready.bucket, Ready.bucket]
  cases hs : s.ready.compat.lookup k with
  | none =>
    rw [hs, Option.map_none] at hk
    rw [Option.map_eq_none_iff.1 hk.symm]
  | some b =>
    rw [hs, Option.map_some] at hk
    obtain ⟨b', hb', heq⟩ := Option.map_eq_some_iff.1 hk.symm
    rw [hb']
    exact heq.symm

theorem ite {p q : Prop} [Decidable p] [Decidable q] {s' t' : Impl} (hpq : p ↔ q) (h : Akin v s t)
    (h' : Akin v s' t') : Akin v (if p then s else s') (if q then t else t') := by
  by_cases hp : p
  · rw [if_pos hp, if_pos (hpq.1 hp)]
    exact h
  · rw [if_neg hp, if_neg (mt hpq.2 hp)]
    exact h'

/-! ## The writes of the operations -/

theorem put (h : Akin v s t) {a b : RequestRecord} (hab : SameRecord v a b) : Akin v (s.put a) (t.put b) :=
  { h with
    requests := by
      intro id
      simp only [Impl.put, Keyed.find_put, hab.requestId]
      split
      · exact congrArg some hab.seen
      · exact h.requests id }

theorem emitEvent (h : Akin v s t) (type : String) (rid : RequestId) (aid : AttemptId) (wid : WorkerId)
    (bid : BatchId) (detail : String) :
    Akin v (s.emitEvent type rid aid wid bid detail) (t.emitEvent type rid aid wid bid detail) :=
  { h with eventSeq := congrArg (· + 1) h.eventSeq }

theorem drawId (h : Akin v s t) : Akin v s.drawId t.drawId :=
  { h with idFactory := congrArg IdFactory.tick h.idFactory }

theorem onStats (h : Akin v s t) (f : SchedulerStats → SchedulerStats) :
    Akin v { s with stats := f s.stats } { t with stats := f t.stats } :=
  { h with stats := congrArg f h.stats }

theorem onAdmitted (h : Akin v s t) (f : ℤ → ℤ) :
    Akin v { s with globalAdmitted := f s.globalAdmitted } { t with globalAdmitted := f t.globalAdmitted } :=
  { h with globalAdmitted := congrArg f h.globalAdmitted }

theorem onTenant (h : Akin v s t) (id : TenantId) (f : TenantRecord → TenantRecord) :
    Akin v (s.onTenant id f) (t.onTenant id f) :=
  { h with
    tenants := by
      intro id'
      simp only [Impl.onTenant, Impl.tenantOf, Keyed.find_put, h.tenants, h.cfg] }

theorem onTenantIfAny (h : Akin v s t) (id : TenantId) (f : TenantRecord → TenantRecord) :
    Akin v (s.onTenantIfAny id f) (t.onTenantIfAny id f) :=
  { h with
    tenants := by
      intro id'
      simp only [Impl.onTenantIfAny, h.tenants id]
      cases t.tenants.find id with
      | none => exact h.tenants id'
      | some tr => simp only [Keyed.find_put, h.tenants] }

end Akin

/-! ## Queueing -/

section queueing

variable {v : View} {s t : Impl}

/-- What becomes of a bucket, or of none, when a request leaves it. -/
def without (rid : RequestId) : Option (Finset RequestId) → Option (Finset RequestId)
  | none => none
  | some b => if b.erase rid = ∅ then none else some (b.erase rid)

theorem lookup_leaveBucket (q : Ready) (ck k : CompatKey) (rid : RequestId) :
    ((q.leaveBucket ck rid).lookup k).map USet.toFinset =
      if ck = k then without rid ((q.compat.lookup k).map USet.toFinset) else (q.compat.lookup k).map USet.toFinset := by
  unfold Ready.leaveBucket
  split
  · next hck =>
    split
    · next heq => rw [← heq, hck]; rfl
    · rfl
  · next b hck =>
    simp only [USet.isEmpty_iff_toFinset, USet.toFinset_erase]
    split
    · next hempty =>
      rw [Table.lookup_erase_eq]
      split
      · next heq =>
        rw [← heq, hck, Option.map_some, without, if_pos hempty]
        rfl
      · rfl
    · next hempty =>
      rw [Table.lookup_insert_eq]
      split
      · next heq => rw [← heq, hck, Option.map_some, Option.map_some, without, if_neg hempty, USet.toFinset_erase]
      · rfl

namespace Akin

theorem enqueueRequest (h : Akin v s t) {a b : RequestRecord} (hab : SameRecord v a b) :
    Akin v (s.enqueueRequest a) (t.enqueueRequest b) := by
  have hview := hab.view
  obtain ⟨spec, rfl, hspec⟩ := hab.exists_spec
  have htenant : a.spec.tenant = spec.tenant := RequestSpec.congr_carried _ (fun _ => rfl) hspec
  have hflow : flowKey a.spec = flowKey spec := RequestSpec.congr_carried _ (fun _ => rfl) hspec
  have hkey : compatKey t.cfg a.spec = compatKey t.cfg spec := RequestSpec.congr_carried _ (fun _ => rfl) hspec
  have hweight : flowWeight t.cfg a.spec = flowWeight t.cfg spec := RequestSpec.congr_carried _ (fun _ => rfl) hspec
  have hentry : readyEntry t.now a = readyEntry t.now { a with spec := spec } :=
    RequestSpec.congr_carried (fun sp => readyEntry t.now { a with spec := sp }) (fun _ => rfl) hspec
  have hready : Akin v { s with ready := s.ready.enqueue s.cfg s.now a }
      { t with ready := t.ready.enqueue t.cfg t.now { a with spec := spec } } :=
    { h with
      flows := by
        simp only [Ready.enqueue, h.flow, h.flows, h.cfg, h.now, h.virtualTime, hflow, hweight, hentry]
      activeFlows := by
        simp only [Ready.enqueue, h.flow, h.activeFlows, hflow]
      globalQueued := congrArg (· + 1) h.globalQueued
      queued := by
        simp only [Ready.enqueue, USet.toFinset_insert, h.queued]
      compat := by
        intro k
        simp only [Ready.enqueue, h.cfg, hkey, Table.lookup_insert_eq]
        split
        · simp only [Option.map_some, USet.toFinset_insert, h.bucket]
        · exact h.compat k }
  rw [Impl.enqueueRequest, Impl.enqueueRequest, htenant]
  have hqueued : SameRecord v { a with state := .queued, queuedAt := s.now }
      { a with spec := spec, state := .queued, queuedAt := t.now } := by
    rw [h.now]
    exact SameRecord.with_spec (a := { a with state := .queued, queuedAt := t.now }) hview
  exact (hready.put hqueued).onTenant _ _

theorem dequeueRequest (h : Akin v s t) {a b : RequestRecord} (hab : SameRecord v a b) :
    Akin v (s.dequeueRequest a) (t.dequeueRequest b) := by
  obtain ⟨spec, rfl, hspec⟩ := hab.exists_spec
  have htenant : a.spec.tenant = spec.tenant := RequestSpec.congr_carried _ (fun _ => rfl) hspec
  have hkey : compatKey t.cfg a.spec = compatKey t.cfg spec := RequestSpec.congr_carried _ (fun _ => rfl) hspec
  have hleft : Akin v { s with ready := s.ready.dequeue s.cfg a }
      { t with ready := t.ready.dequeue t.cfg { a with spec := spec } } :=
    { h with
      globalQueued := by
        simp only [Ready.dequeue, h.mem_queued, h.globalQueued]
      queued := by
        simp only [Ready.dequeue, USet.toFinset_erase, h.queued]
      compat := by
        intro k
        simp only [Ready.dequeue, lookup_leaveBucket, h.compat, h.cfg, hkey] }
  rw [Impl.dequeueRequest, Impl.dequeueRequest, htenant]
  exact hleft.onTenantIfAny _ _

/-! ## Expiry -/

theorem expireRequest (h : Akin v s t) {a b : RequestRecord} (hab : SameRecord v a b) :
    Akin v (s.expireRequest a) (t.expireRequest b) := by
  have hview := hab.view
  have hdequeued := h.dequeueRequest hab
  obtain ⟨spec, rfl, hspec⟩ := hab.exists_spec
  have htenant : a.spec.tenant = spec.tenant := RequestSpec.congr_carried _ (fun _ => rfl) hspec
  have hdeadline : a.spec.deadline = spec.deadline := RequestSpec.congr_carried _ (fun _ => rfl) hspec
  rw [Impl.expireRequest, Impl.expireRequest]
  dsimp only
  split
  · exact h
  · have hexpired : SameRecord v a.expire ({ a with spec := spec } : RequestRecord).expire :=
      SameRecord.with_spec (a := a.expire) hview
    have hcounted := (((hdequeued.put hexpired).onAdmitted decPos).onTenant a.spec.tenant
      fun tr => { tr with admitted := decPos tr.admitted }).onStats
      fun st => { st with requestsExpired := st.requestsExpired + 1 }
    rw [← htenant, ← hdeadline]
    have hlogged : s.cfg.batch.maxWait ≥ 0 ∧ a.spec.deadline.valid = true ↔
        t.cfg.batch.maxWait ≥ 0 ∧ a.spec.deadline.valid = true := by rw [h.cfg]
    exact ite hlogged (hcounted.emitEvent _ _ _ _ _ _) hcounted

theorem expireId (h : Akin v s t) (id : RequestId) : Akin v (s.expireId id) (t.expireId id) := by
  rw [Impl.expireId, Impl.expireId]
  cases hs : s.requests.find id with
  | none =>
    rw [h.find_none hs]
    exact h
  | some a =>
    obtain ⟨b, hb, hab⟩ := h.find_some hs
    rw [hb]
    exact h.expireRequest hab

end Akin

/-- The tenant's record once a request of it has expired. -/
def expiredTenant (cfg : SchedulerConfig) (id : TenantId) (tr : Option TenantRecord) : TenantRecord :=
  let tr := (tr.map fun tr => { tr with queued := decPos tr.queued }).getD
    { tenant := id, weight := Impl.tenantWeight cfg id }
  { tr with admitted := decPos tr.admitted }

/-- Everything an expiry changes. -/
theorem expireRequest_eq {rec : RequestRecord} (hqueued : rec.state = .queued) (s : Impl) : ∃ log ts,
    s.expireRequest rec =
      { s with
        ready := s.ready.dequeue s.cfg rec
        requests := s.requests.put rec.expire
        tenants := ts
        globalAdmitted := decPos s.globalAdmitted
        stats := { s.stats with requestsExpired := s.stats.requestsExpired + 1 }
        eventSeq := if logsExpiry s.cfg rec then s.eventSeq + 1 else s.eventSeq
        eventLog := log } ∧
      ∀ id, ts.find id = if rec.spec.tenant = id then some (expiredTenant s.cfg id (s.tenants.find id))
        else s.tenants.find id := by
  have htenants : ∀ id, (s.expireRequest rec).tenants.find id =
      if rec.spec.tenant = id then some (expiredTenant s.cfg id (s.tenants.find id)) else s.tenants.find id := by
    intro id
    have hts : (s.expireRequest rec).tenants =
        ((s.dequeueRequest rec).onTenant rec.spec.tenant fun t => { t with admitted := decPos t.admitted }).tenants := by
      rw [Impl.expireRequest, if_neg (not_not.2 hqueued)]
      dsimp only
      split <;> rfl
    have hqueue : ∀ id, (s.dequeueRequest rec).tenants.find id = if rec.spec.tenant = id then
        (s.tenants.find id).map fun tr => { tr with queued := decPos tr.queued } else s.tenants.find id :=
      fun id => Impl.find_onTenantIfAny _ _ (by intro; rfl) id
    rw [hts]
    refine (Impl.find_onTenant _ _ (by intro; rfl) id).trans ?_
    split
    · next heq =>
      rw [Impl.tenantOf, hqueue, if_pos rfl, heq]
      rfl
    · next hne => rw [hqueue, if_neg hne]
  refine ⟨(s.expireRequest rec).eventLog, (s.expireRequest rec).tenants, ?_, htenants⟩
  rw [Impl.expireRequest, if_neg (not_not.2 hqueued)]
  dsimp only
  split
  · next h =>
    have hlogs : logsExpiry s.cfg rec = true := logsExpiry_iff.2 h
    rw [hlogs]
    rfl
  · next h =>
    have hlogs : logsExpiry s.cfg rec = false := Bool.eq_false_iff.2 fun hlogs => h (logsExpiry_iff.1 hlogs)
    rw [hlogs]
    rfl

theorem without_comm (a b : RequestId) (o : Option (Finset RequestId)) :
    without a (without b o) = without b (without a o) := by
  cases o with
  | none => rfl
  | some X =>
    have hboth : ∀ c d, without c (without d (some X)) =
        if (X.erase d).erase c = ∅ then none else some ((X.erase d).erase c) := by
      intro c d
      rw [without]
      split
      · next hempty => rw [hempty, Finset.erase_empty, if_pos rfl]; rfl
      · rfl
    rw [hboth, hboth, Finset.erase_right_comm]

/-- Two requests expire in either order. -/
theorem expireRequest_comm {a b : RequestRecord} (hab : a.requestId ≠ b.requestId) (ha : a.state = .queued)
    (hb : b.state = .queued) (s : Impl) :
    Akin v ((s.expireRequest a).expireRequest b) ((s.expireRequest b).expireRequest a) := by
  obtain ⟨log, ts, hs, hts⟩ := expireRequest_eq ha s
  obtain ⟨log', ts', hs', hts'⟩ := expireRequest_eq hb s
  obtain ⟨logb, tsb, hsb, htsb⟩ := expireRequest_eq hb (s.expireRequest a)
  obtain ⟨loga, tsa, hsa, htsa⟩ := expireRequest_eq ha (s.expireRequest b)
  rw [hsb, hsa]
  rw [hs] at htsb ⊢
  rw [hs'] at htsa ⊢
  have hmem : b.requestId ∈ s.ready.queued.erase a.requestId ↔ b.requestId ∈ s.ready.queued := by
    rw [USet.mem_erase, and_iff_right hab.symm]
  have hmem' : a.requestId ∈ s.ready.queued.erase b.requestId ↔ a.requestId ∈ s.ready.queued := by
    rw [USet.mem_erase, and_iff_right hab]
  constructor
  case requests =>
    intro id
    have hfind : ∀ c d : RequestRecord, ((s.requests.put c.expire).put d.expire).find id =
        if d.requestId = id then some d.expire else if c.requestId = id then some c.expire else s.requests.find id := by
      intro c d
      rw [Keyed.find_put, Keyed.find_put]
      rfl
    rw [hfind, hfind]
    by_cases hida : a.requestId = id
    · rw [if_pos hida, if_pos hida, if_neg fun h => hab (hida.trans h.symm)]
    · rw [if_neg hida, if_neg hida]
  case tenants =>
    intro id
    simp only [htsb, htsa, hts, hts']
    split_ifs <;> rfl
  case queued => simp only [Ready.dequeue, USet.toFinset_erase, Finset.erase_right_comm]
  case compat =>
    intro k
    simp only [Ready.dequeue, lookup_leaveBucket]
    split_ifs
    · exact without_comm ..
    all_goals rfl
  case globalQueued =>
    simp only [Ready.dequeue, hmem, hmem']
    split_ifs <;> omega
  case eventSeq =>
    dsimp only
    split_ifs <;> rfl
  all_goals intros; rfl

theorem expireId_of_find {id : RequestId} {rec : RequestRecord} (h : s.requests.find id = some rec) :
    s.expireId id = s.expireRequest rec := by
  rw [Impl.expireId, h]

theorem expireId_of_none {id : RequestId} (h : s.requests.find id = none) : s.expireId id = s := by
  rw [Impl.expireId, h]

theorem expireRequest_of_ne {rec : RequestRecord} (h : rec.state ≠ .queued) (s : Impl) : s.expireRequest rec = s :=
  if_pos h

theorem find_expireId_ne (s : Impl) {id id' : RequestId} (hne : id ≠ id') :
    (s.expireId id).requests.find id' = s.requests.find id' := by
  cases hfind : s.requests.find id with
  | none => rw [expireId_of_none hfind]
  | some rec =>
    rw [expireId_of_find hfind]
    by_cases hqueued : rec.state = .queued
    · obtain ⟨log, ts, heq, -⟩ := expireRequest_eq hqueued s
      have hid : rec.requestId = id := Keyed.key_of_find hfind
      rw [heq]
      exact Keyed.find_put_ne _ fun h => hne (hid.symm.trans h)
    · rw [expireRequest_of_ne hqueued]

theorem expireId_comm (s : Impl) (a b : RequestId) :
    Akin v ((s.expireId a).expireId b) ((s.expireId b).expireId a) := by
  by_cases hab : a = b
  · rw [hab]
  have hb := find_expireId_ne s hab
  have ha := find_expireId_ne s (Ne.symm hab)
  cases hfa : s.requests.find a with
  | none => rw [expireId_of_none hfa, expireId_of_none (ha.trans hfa)]
  | some ra =>
    cases hfb : s.requests.find b with
    | none => rw [expireId_of_none hfb, expireId_of_none (hb.trans hfb)]
    | some rb =>
      rw [expireId_of_find (hb.trans hfb), expireId_of_find (ha.trans hfa), expireId_of_find hfa, expireId_of_find hfb]
      by_cases hqa : ra.state = .queued
      · by_cases hqb : rb.state = .queued
        · refine expireRequest_comm ?_ hqa hqb s
          rw [Keyed.key_of_find hfa, Keyed.key_of_find hfb]
          exact hab
        · rw [expireRequest_of_ne hqb, expireRequest_of_ne hqb]
      · rw [expireRequest_of_ne hqa, expireRequest_of_ne hqa]

namespace Akin

theorem foldl_expireId (h : Akin v s t) (l : List RequestId) :
    Akin v (l.foldl Impl.expireId s) (l.foldl Impl.expireId t) := by
  induction l generalizing s t with
  | nil => exact h
  | cons id l ih => exact ih (h.expireId id)

theorem foldl_expireId_perm (h : Akin v s t) {l l' : List RequestId} (hp : l.Perm l') :
    Akin v (l.foldl Impl.expireId s) (l'.foldl Impl.expireId t) := by
  induction hp generalizing s t with
  | nil => exact h
  | cons id _ ih => exact ih (h.expireId id)
  | swap a b l => exact foldl_expireId ((expireId_comm s b a).trans ((h.expireId a).expireId b)) l
  | trans _ _ ih ih' => exact (ih h).trans (ih' (refl v t))

theorem overdue (h : Akin v s t) (now : ClockTime) (id : RequestId) : s.overdue now id = t.overdue now id := by
  rw [Impl.overdue, Impl.overdue]
  cases hs : s.requests.find id with
  | none => rw [h.find_none hs]
  | some a =>
    obtain ⟨b, hb, hab⟩ := h.find_some hs
    rw [hb]
    obtain ⟨spec, rfl, hspec⟩ := hab.exists_spec
    have hdeadline : a.spec.deadline = spec.deadline := RequestSpec.congr_carried _ (fun _ => rfl) hspec
    simp only [hdeadline]

/-- The scan expires the same requests in whatever order it meets them. -/
theorem expireScan (h : Akin v s t) (now : ClockTime) : Akin v (s.expireScan now) (t.expireScan now) := by
  refine h.foldl_expireId_perm ?_
  rw [show s.overdue now = t.overdue now from funext (h.overdue now)]
  exact (USet.perm_of_toFinset h.queued).filter _

/-! ## Submission -/

theorem workers_perm (h : Akin v s t) : s.pool.workers.records.Perm t.pool.workers.records := by
  have hfind : ∀ w, s.pool.workers.find w = (t.pool.workers.find w).map id := fun w => by
    rw [Option.map_id, id_eq, h.workers w]
  have hperm := Keyed.records_perm_map (fun _ => rfl) hfind
  rwa [List.map_id] at hperm

theorem makeAdmission (h : Akin v s t) {a b : RequestSpec} (hab : a.carried = b.carried) (now : ClockTime) :
    s.makeAdmission a now = t.makeAdmission b now := by
  have hsame : t.makeAdmission a now = t.makeAdmission b now :=
    RequestSpec.congr_carried (t.makeAdmission · now) (fun _ => rfl) hab
  rw [← hsame]
  have hworkers := h.workers_perm
  have hempty := hworkers.isEmpty_eq
  have hany : s.pool.workers.records.any (fun wr => compatible a wr.registration.capability) =
      t.pool.workers.records.any fun wr => compatible a wr.registration.capability := hworkers.any_eq
  simp only [Impl.makeAdmission, h.cfg, h.draining, h.recoveryMode, h.globalAdmitted, h.globalQueued, h.globalTokens,
    h.tenants, hempty, hany]

theorem insertRequest (h : Akin v s t) {a b : RequestRecord} (hab : SameRecord v a b) :
    Akin v (s.insertRequest a) (t.insertRequest b) := by
  rw [Impl.insertRequest, Impl.insertRequest, hab.requestId]
  cases hs : s.requests.find b.requestId with
  | none =>
    rw [h.find_none hs]
    exact h.put hab
  | some old =>
    obtain ⟨old', hold, -⟩ := h.find_some hs
    rw [hold]
    exact h

theorem enqueueNew (h : Akin v s t) {a b : RequestRecord} (hab : SameRecord v a b) (reason : String) :
    Akin v (s.enqueueNew a reason).1 (t.enqueueNew b reason).1 ∧
      (s.enqueueNew a reason).2 = (t.enqueueNew b reason).2 := by
  have hinserted := h.insertRequest hab
  have hstored : SameRecord v (((s.insertRequest a).requests.find a.requestId).getD a)
      (((t.insertRequest b).requests.find a.requestId).getD b) := by
    cases hs : (s.insertRequest a).requests.find a.requestId with
    | none =>
      rw [hinserted.find_none hs]
      exact hab
    | some old =>
      obtain ⟨old', hold, hsame⟩ := hinserted.find_some hs
      rw [hold]
      exact hsame
  have htenant : a.spec.tenant = b.spec.tenant := RequestSpec.congr_carried _ (fun _ => rfl) hab.carried
  have hqueued := ((hinserted.enqueueRequest hstored).onAdmitted (· + 1)).onTenant a.spec.tenant
    fun tr => { tr with admitted := tr.admitted + 1 }
  rw [Impl.enqueueNew, Impl.enqueueNew, ← hab.requestId, ← htenant]
  dsimp only
  rw [← hstored.congr RequestRecord.currentAttempt fun _ => rfl, ← hstored.congr RequestRecord.generation fun _ => rfl]
  exact ⟨(hqueued.emitEvent _ _ _ _ _ _).emitEvent _ _ _ _ _ _, rfl⟩

theorem admitAs (h : Akin v s t) {a b : RequestSpec} (hab : v.of a = v.of b) (rid : RequestId) (reason : String) :
    Akin v (s.admitAs a rid reason).1 (t.admitAs b rid reason).1 ∧
      (s.admitAs a rid reason).2 = (t.admitAs b rid reason).2 := by
  have hcarried := v.carried_eq hab
  have hclass : a.latencyClass = b.latencyClass := RequestSpec.congr_carried _ (fun _ => rfl) hcarried
  have hdeadline : a.deadline = b.deadline := RequestSpec.congr_carried _ (fun _ => rfl) hcarried
  have hcounted := h.drawId.onStats fun st =>
    { st with
      requestsSubmitted := st.requestsSubmitted + 1
      requestsAdmitted := st.requestsAdmitted + 1
      byLatency := onLatency st.byLatency (latencyInt a.latencyClass) fun c => { c with admitted := c.admitted + 1 } }
  rw [Impl.admitAs, Impl.admitAs, ← hclass, ← hdeadline, ← h.now, ← h.idFactory]
  dsimp only
  split
  · have hlate : SameRecord v (Impl.lateRecord a rid s.idFactory.peek s.now)
        (Impl.lateRecord b rid s.idFactory.peek s.now) :=
      SameRecord.with_spec (a := Impl.lateRecord a rid s.idFactory.peek s.now) hab
    have hcounted' := (hcounted.insertRequest hlate).onStats
      fun st => { st with requestsExpired := st.requestsExpired + 1 }
    exact ⟨hcounted'.emitEvent _ _ _ _ _ _, rfl⟩
  · have hcreated := hcounted.drawId.onStats fun st => { st with attemptsCreated := st.attemptsCreated + 1 }
    have hnew : SameRecord v (Impl.admittedRecord a rid s.idFactory.peek s.idFactory.tick.peek s.now)
        (Impl.admittedRecord b rid s.idFactory.peek t.idFactory.tick.peek s.now) := by
      rw [← h.idFactory]
      exact SameRecord.with_spec (a := Impl.admittedRecord a rid s.idFactory.peek s.idFactory.tick.peek s.now) hab
    exact hcreated.enqueueNew hnew reason

theorem reject (h : Akin v s t) {a b : RequestSpec} (hab : v.of a = v.of b) (rid : RequestId) (reason : String) :
    Akin v (s.reject a rid reason).1 (t.reject b rid reason).1 ∧
      (s.reject a rid reason).2 = (t.reject b rid reason).2 := by
  have hcounted := (h.onStats fun st =>
    { st with
      requestsSubmitted := st.requestsSubmitted + 1
      requestsRejected := st.requestsRejected + 1 }).drawId
  have hrejected : SameRecord v (Impl.rejectedRecord a rid s.idFactory.peek reason s.now)
      (Impl.rejectedRecord b rid t.idFactory.peek reason t.now) := by
    rw [h.idFactory, h.now]
    exact SameRecord.with_spec (a := Impl.rejectedRecord a rid t.idFactory.peek reason t.now) hab
  exact ⟨(hcounted.insertRequest hrejected).emitEvent _ _ _ _ _ _, rfl⟩

theorem defer (h : Akin v s t) (reason : String) :
    Akin v (s.defer reason).1 (t.defer reason).1 ∧ (s.defer reason).2 = (t.defer reason).2 :=
  ⟨h.onStats fun st =>
    { st with
      requestsSubmitted := st.requestsSubmitted + 1
      requestsDeferred := st.requestsDeferred + 1 }, rfl⟩

theorem submitAs (h : Akin v s t) {a b : RequestSpec} (hab : v.of a = v.of b) (rid : RequestId) :
    Akin v (s.submitAs a rid).1 (t.submitAs b rid).1 ∧ (s.submitAs a rid).2 = (t.submitAs b rid).2 := by
  rw [Impl.submitAs, Impl.submitAs, h.now, h.makeAdmission (v.carried_eq hab)]
  obtain ⟨decision, reason⟩ := t.makeAdmission b t.now
  cases decision with
  | admitted => exact h.admitAs hab rid reason
  | defer => exact h.defer reason
  | reject => exact h.reject hab rid reason

/-- A submission does the same for specifications of which the same is seen. -/
theorem doSubmit (h : Akin v s t) {a b : RequestSpec} (hab : v.of a = v.of b) (pre : Option RequestId) :
    Akin v (s.doSubmit a pre).1 (t.doSubmit b pre).1 ∧ (s.doSubmit a pre).2 = (t.doSubmit b pre).2 := by
  have hvalid : validateSpec a = validateSpec b :=
    RequestSpec.congr_carried validateSpec (fun _ => rfl) (v.carried_eq hab)
  unfold Impl.doSubmit
  rw [hvalid]
  cases validateSpec b with
  | error e => exact ⟨h, rfl⟩
  | ok =>
    cases pre with
    | none =>
      obtain ⟨hstate, hout⟩ := h.drawId.submitAs hab t.idFactory.peek
      dsimp only
      rw [h.idFactory]
      exact ⟨hstate, congrArg Except.ok hout⟩
    | some rid =>
      obtain ⟨hstate, hout⟩ := h.submitAs hab rid
      exact ⟨hstate, congrArg Except.ok hout⟩

end Akin

end queueing

end InferenceScheduler
