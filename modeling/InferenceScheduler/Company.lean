/-
What a batch means for the requests in it. `form_batch` goes by the
compatibility key and by the limits of the seed, and `select_worker` looks at
the seed only. The key takes adapter 0 for no adapter, so two requests that
differ in that may share a batch. A request taken along may be sent to a worker
that does not support it, where the key leaves out what workers tell apart: the
phase, when phases may mix, and whether an adapter is named at all, when it is
adapter 0. And it may come into a batch larger than it asked for.
-/
import InferenceScheduler.DispatchPost
import InferenceScheduler.Restart

namespace InferenceScheduler

/-- A request a plan may start from or take along: it waits, and in time. -/
structure Impl.Plannable (s : Impl) (r : RequestId) (rec : RequestRecord) : Prop where
  stored : s.requests.find r = some rec
  waits : Impl.waiting rec = true
  inTime : rec.spec.deadline.expired s.now = false

/-- The members of a batch can be planned, and have the key of its seed. -/
theorem Plans.Reserves.member {s s' t : Impl} {out : DispatchOutcome} {wr : WorkerRecord} {seed : RequestRecord}
    (h : Plans.Reserves s s' out t wr) (hbucket : Bucketed s.core) (hseed : s.Plannable out.requestId seed)
    {id : RequestId} (hid : id ∈ out.batchMembers) :
    ∃ rec, s.Plannable id rec ∧ compatKey s.cfg seed.spec = compatKey s.cfg rec.spec := by
  obtain ⟨n, hcons⟩ : ∃ n, s.planMembers out.requestId s.now = out.requestId :: _ := Impl.planMembers_cons hseed.stored
  rw [h.members, hcons] at hid
  rcases List.mem_cons.1 hid with rfl | hid
  · exact ⟨seed, hseed, rfl⟩
  · obtain ⟨hmem, _, _, rec, hwaits, hexp⟩ := Impl.mem_candidates.1 (List.mem_of_mem_take hid)
    obtain ⟨rec', hf, hkey⟩ := hbucket _ id hmem
    obtain rfl := Option.some.inj (hwaits.1.symm.trans hf)
    exact ⟨rec, ⟨hf, by simp [Impl.waiting, hwaits.2], hexp⟩, hkey.symm⟩

theorem Plans.Reserves.plannable {s s' t : Impl} {out : DispatchOutcome} {wr : WorkerRecord}
    (h : Plans.Reserves s s' out t wr) : ∃ seed, s.Plannable out.requestId seed := by
  obtain ⟨seed, hf, hstate, hexp⟩ := h.seed
  exact ⟨seed, hf, by simpa [Impl.waiting] using hstate, hexp⟩

/-! ## What they share -/

/-- **Incompatible requests share no batch.** In every reachable state in which
no request for adapter 0 that a plan may take stands beside one that differs from
it in naming no adapter, a batch that is dispatched is of one model, revision,
adapter, latency class and, unless phases may mix, phase. -/
theorem dispatch_shareable {cfg : SchedulerConfig} {now : ClockTime} {salt : UInt64} {epoch : Option SchedulerEpoch}
    {ops : List ServiceOp} {s s' : Impl} (hs : s = recoverable.run (Impl.init cfg now salt epoch) ops)
    {out : DispatchOutcome} (hplan : Plans s (s', .ok out)) (hdispatch : out.decision = .dispatch)
    (htold : ∀ a b ra rb, s.Plannable a ra → s.Plannable b rb → ¬Confusable s.cfg ra.spec rb.spec)
    {a b : RequestId} (ha : a ∈ out.batchMembers) (hb : b ∈ out.batchMembers) :
    ∃ ra rb, s.requests.find a = some ra ∧ s.requests.find b = some rb ∧ Shareable s.cfg ra.spec rb.spec := by
  have hbucket : Bucketed s.core := hs ▸ Bucketed.served cfg now salt epoch ops
  obtain ⟨t, wr, hplanned⟩ := hplan.reserves hdispatch
  obtain ⟨seed, hseed⟩ := hplanned.plannable
  obtain ⟨ra, hra, hka⟩ := hplanned.member hbucket hseed ha
  obtain ⟨rb, hrb, hkb⟩ := hplanned.member hbucket hseed hb
  exact ⟨ra, rb, hra.stored, hrb.stored, shareable_of_compatKey (hka.symm.trans hkb) (htold a b ra rb hra hrb)
    (htold b a rb ra hrb hra)⟩

/-- No two requests are confusable where every one names an adapter. -/
theorem Impl.not_confusable_of_adapters (s : Impl)
    (h : ∀ rec ∈ s.requests.records, rec.spec.adapter.valid = true) (a b : RequestId) (ra rb : RequestRecord)
    (_ : s.Plannable a ra) (hb : s.Plannable b rb) : ¬Confusable s.cfg ra.spec rb.spec :=
  fun hconf => Bool.false_ne_true (hconf.none.symm.trans (Keyed.forall_find h b rb hb.stored))

/-- Two requests for adapter 0 and one for adapter 5: the first two share a
batch. -/
theorem dispatch_shareable_adapters :
    let spec (a : UInt64) : RequestSpec := { plainSpec with adapter := ⟨a⟩ }
    let s := recoverable.run (Impl.init {} 0 0x80000001 none) [.op (.registerWorker (plainWorker 3)),
      .op (.submit (spec 0) (some ⟨7⟩)), .op (.submit (spec 5) (some ⟨8⟩)), .op (.submit (spec 0) (some ⟨9⟩))]
    ∃ s' out, Plans s (s', .ok out) ∧ out.batchMembers = [⟨7⟩, ⟨9⟩] ∧
      ∃ ra rb, s.requests.find ⟨7⟩ = some ra ∧ s.requests.find ⟨9⟩ = some rb ∧ Shareable s.cfg ra.spec rb.spec := by
  intro spec s
  have hplan : (s.doPlanNext false).2.toOption.map (fun out => (out.decision, out.batchMembers)) =
      some (.dispatch, [⟨7⟩, ⟨9⟩]) := by decide +kernel
  obtain ⟨s', out, hout, heq⟩ := (Plans.next false).exists_ok hplan
  obtain ⟨hdispatch, hmembers⟩ := Prod.mk.inj heq
  have htold := s.not_confusable_of_adapters (by decide +kernel)
  have hfst : (⟨7⟩ : RequestId) ∈ out.batchMembers := hmembers ▸ List.mem_cons_self
  have hsnd : (⟨9⟩ : RequestId) ∈ out.batchMembers := hmembers ▸ List.mem_cons_of_mem _ List.mem_cons_self
  exact ⟨s', out, hout, hmembers, dispatch_shareable rfl hout hdispatch htold hfst hsnd⟩

/-- A request for adapter 0 and one without an adapter are dispatched in one
batch. -/
theorem dispatch_mixes_adapters :
    let s := recoverable.run (Impl.init {} 0 0x80000001 none) [.op (.registerWorker (plainWorker 3)),
      .op (.submit { plainSpec with adapter := ⟨0⟩ } (some ⟨7⟩)), .op (.submit plainSpec (some ⟨8⟩))]
    ∃ s' out, Plans s (s', .ok out) ∧ out.decision = .dispatch ∧ out.batchMembers = [⟨7⟩, ⟨8⟩] ∧
      ∀ ra rb, s.requests.find ⟨7⟩ = some ra → s.requests.find ⟨8⟩ = some rb → ¬Shareable s.cfg ra.spec rb.spec := by
  intro s
  have hplan : (s.doPlanNext false).2.toOption.map (fun out => (out.decision, out.batchMembers)) =
      some (.dispatch, [⟨7⟩, ⟨8⟩]) := by decide +kernel
  obtain ⟨s', out, hout, heq⟩ := (Plans.next false).exists_ok hplan
  obtain ⟨hdispatch, hmembers⟩ := Prod.mk.inj heq
  refine ⟨s', out, hout, hdispatch, hmembers, fun ra rb hra hrb hshare => ?_⟩
  have hvalid : (s.requests.find ⟨7⟩).map (·.spec.adapter.valid) = some true ∧
      (s.requests.find ⟨8⟩).map (·.spec.adapter.valid) = some false := by decide +kernel
  rw [hra, hrb, Option.map_some, Option.map_some, Option.some.injEq, Option.some.injEq] at hvalid
  rcases hshare.adapter with ⟨ha, _⟩ | ⟨_, hb, _⟩
  · exact Bool.false_ne_true (ha.symm.trans hvalid.1)
  · exact Bool.false_ne_true (hvalid.2.symm.trans hb)

/-! ## Where it goes -/

/-- A worker that tells two requests of one key apart: by the phase, or by the
adapter that only the second names. -/
def WorkerCapability.Parts (cap : WorkerCapability) (a b : RequestSpec) : Prop :=
  supports cap.phases b.phase = false ∨
    a.adapter.valid = false ∧ b.adapter.valid = true ∧ supports cap.adapters b.adapter = false

instance (cap : WorkerCapability) (a b : RequestSpec) : Decidable (cap.Parts a b) := by
  unfold WorkerCapability.Parts
  infer_instance

/-- A worker for one request is one for every other of its key, unless it
parts them. -/
theorem compatible_of_key {cfg : SchedulerConfig} {cap : WorkerCapability} {a b : RequestSpec}
    (hkey : compatKey cfg a = compatKey cfg b) (hparts : ¬cap.Parts a b) (h : compatible a cap = true) :
    compatible b cap = true := by
  simp only [compatKey, CompatKey.mk.injEq] at hkey
  obtain ⟨hmodel, hrevision, hadapter, _, _⟩ := hkey
  have hmodel : a.model = b.model := Id.ext_value hmodel
  have hrevision : a.revision = b.revision := Id.ext_value hrevision
  simp only [WorkerCapability.Parts, not_or, not_and, Bool.not_eq_false] at hparts
  simp only [compatible, Bool.and_eq_true, Bool.or_eq_true, Bool.not_eq_true', decide_eq_true_eq] at h ⊢
  obtain ⟨⟨⟨⟨htotal, hm⟩, hr⟩, ha⟩, _⟩ := h
  refine ⟨⟨⟨⟨htotal, hmodel ▸ hm⟩, hrevision ▸ hr⟩, ?_⟩, hparts.1⟩
  cases hb : b.adapter.valid with
  | false => exact .inl rfl
  | true =>
    right
    cases hva : a.adapter.valid with
    | false => exact hparts.2 hva hb
    | true =>
      rw [hva, hb] at hadapter
      rw [← show a.adapter = b.adapter from Id.ext_value hadapter]
      exact ha.resolve_left (by simp [hva])

/-- **Every member can run where the batch goes.** In every reachable state in
which no worker that is up and can run one request parts it from another of its
key, each member of a batch that is dispatched is compatible with the worker. -/
theorem dispatch_compatible {cfg : SchedulerConfig} {now : ClockTime} {salt : UInt64} {epoch : Option SchedulerEpoch}
    {ops : List ServiceOp} {s s' : Impl} (hs : s = recoverable.run (Impl.init cfg now salt epoch) ops)
    {out : DispatchOutcome} (hplan : Plans s (s', .ok out)) (hdispatch : out.decision = .dispatch)
    (halike : ∀ a b ra rb w wr, s.Plannable a ra → s.Plannable b rb →
      compatKey s.cfg ra.spec = compatKey s.cfg rb.spec → s.pool.workers.find w = some wr →
      wr.state = .online ∨ wr.state = .busy → compatible ra.spec wr.registration.capability = true →
      ¬wr.registration.capability.Parts ra.spec rb.spec)
    {id : RequestId} (hid : id ∈ out.batchMembers) :
    ∃ rec wr, s.requests.find id = some rec ∧ s.pool.workers.find out.workerId = some wr ∧
      compatible rec.spec wr.registration.capability = true := by
  have hbucket : Bucketed s.core := hs ▸ Bucketed.served cfg now salt epoch ops
  obtain ⟨t, wr, hplanned⟩ := hplan.reserves hdispatch
  obtain ⟨seed, hseed⟩ := hplanned.plannable
  obtain ⟨rec, hrec, hkey⟩ := hplanned.member hbucket hseed hid
  have hwr : s.pool.workers.find wr.id = some wr := by
    have h := hplanned.dispatched.enabled.2.2.1
    rw [hplanned.lapsed.pool] at h
    exact h
  have hroom := hplanned.dispatched.hasRoom.1
  rw [Impl.specOf_congr hplanned.lapsed.spec, Impl.specOf_of_find hseed.stored] at hroom
  rw [hplanned.dispatched.worker]
  exact ⟨rec, wr, hrec.stored, hwr,
    compatible_of_key hkey (halike _ _ seed rec _ wr hseed hrec hkey hwr hroom.up hroom.fits) hroom.fits⟩

/-- Requests 7 and 8, a prefill and a decode of one model where phases may mix, and then
worker 3, for the given phases. -/
def mixedPhases (phases : List RequestPhase) : List ServiceOp :=
  [.op (.submit plainSpec (some ⟨7⟩)), .op (.submit { plainSpec with phase := .decode } (some ⟨8⟩)),
    .op (.registerWorker { plainWorker 3 with
      capability := { totalCapacityUnits := 8, availableCapacityUnits := 8, phases := phases } })]

/-- A worker for both phases gets the prefill and the decode in one batch. -/
theorem dispatch_compatible_decode :
    let s := recoverable.run (Impl.init { batch := { allowPhaseMix := true } } 0 0x80000001 none)
      (mixedPhases [.prefill, .decode])
    ∃ rec wr, s.requests.find ⟨8⟩ = some rec ∧ s.pool.workers.find ⟨3⟩ = some wr ∧
      compatible rec.spec wr.registration.capability = true := by
  intro s
  have hout : (s.doPlanDispatch ⟨7⟩ false).2.toOption.map (fun out => (out.decision, out.workerId, out.batchMembers)) =
      some (.dispatch, ⟨3⟩, [⟨7⟩, ⟨8⟩]) := by decide +kernel
  obtain ⟨s', out, hplan, hout⟩ := (Plans.request ⟨7⟩ false).exists_ok hout
  obtain ⟨hdispatch, hworker, hmembers⟩ : _ ∧ _ ∧ _ := by simpa only [Prod.mk.injEq] using hout
  have hnone : ∀ wr ∈ s.pool.workers.records, ∀ ra ∈ s.requests.records, ∀ rb ∈ s.requests.records,
      ¬wr.registration.capability.Parts ra.spec rb.spec := by decide +kernel
  rw [← hworker]
  exact dispatch_compatible rfl hplan hdispatch
    (fun a b ra rb w wr ha hb _ hw _ _ => hnone wr (Keyed.mem_records.2 (Keyed.find_key hw)) ra
      (Keyed.mem_records.2 (Keyed.find_key ha.stored)) rb (Keyed.mem_records.2 (Keyed.find_key hb.stored)))
    (by rw [hmembers]; decide)

/-- A worker for prefills alone is sent the decode too. -/
theorem prefill_worker_sent_decode :
    let s := recoverable.run (Impl.init { batch := { allowPhaseMix := true } } 0 0x80000001 none) (mixedPhases [.prefill])
    (s.doPlanDispatch ⟨7⟩ false).2.toOption.map (fun out => (out.decision, out.workerId, out.batchMembers)) =
        some (.dispatch, ⟨3⟩, [⟨7⟩, ⟨8⟩]) ∧
      (s.requests.find ⟨8⟩).any (fun rec => (s.pool.workers.find ⟨3⟩).any fun wr =>
        !compatible rec.spec wr.registration.capability) = true := by
  decide +kernel

/-! ## How many go -/

/-- The requests of a key that a plan may put together. -/
def Impl.peers (s : Impl) (k : CompatKey) : ℕ :=
  s.requests.count fun rec =>
    Impl.waiting rec && !rec.spec.deadline.expired s.now && compatKey s.cfg rec.spec == k

theorem Impl.length_le_peers {s : Impl} {k : CompatKey} {ids : List RequestId} (hnodup : ids.Nodup)
    (h : ∀ id ∈ ids, ∃ rec, s.Plannable id rec ∧ k = compatKey s.cfg rec.spec) : ids.length ≤ s.peers k := by
  refine Keyed.length_le_count hnodup fun id hid => ?_
  obtain ⟨rec, hrec, hkey⟩ := h id hid
  exact ⟨rec, hrec.stored, by simp [hrec.waits, hrec.inTime, hkey]⟩

/-- **The limit of every member.** In every reachable state in which a request with a
limit of its own has no more plannable requests of its key than that, or none of a
larger limit, no batch that is dispatched has more members than one of them allows. -/
theorem dispatch_within_limits {cfg : SchedulerConfig} {now : ClockTime} {salt : UInt64}
    {epoch : Option SchedulerEpoch} {ops : List ServiceOp} {s s' : Impl}
    (hs : s = recoverable.run (Impl.init cfg now salt epoch) ops)
    {out : DispatchOutcome} (hplan : Plans s (s', .ok out)) (hdispatch : out.decision = .dispatch)
    (hlimits : ∀ a b ra rb, s.Plannable a ra → s.Plannable b rb →
      compatKey s.cfg ra.spec = compatKey s.cfg rb.spec → 0 < rb.spec.maxBatchSize →
      Impl.batchLimit s.cfg ra.spec ≤ rb.spec.maxBatchSize ∨
        (s.peers (compatKey s.cfg rb.spec) : ℤ) ≤ rb.spec.maxBatchSize)
    {id : RequestId} (hid : id ∈ out.batchMembers) :
    ∃ rec, s.requests.find id = some rec ∧
      (0 < rec.spec.maxBatchSize → (out.batchMembers.length : ℤ) ≤ rec.spec.maxBatchSize) := by
  have hbucket : Bucketed s.core := hs ▸ Bucketed.served cfg now salt epoch ops
  obtain ⟨t, wr, hplanned⟩ := hplan.reserves hdispatch
  obtain ⟨seed, hseed⟩ := hplanned.plannable
  obtain ⟨rec, hrec, hkey⟩ := hplanned.member hbucket hseed hid
  refine ⟨rec, hrec.stored, fun hpos => ?_⟩
  rcases hlimits _ _ seed rec hseed hrec hkey hpos with hseedLimit | hpeers
  · have hlength := s.planMembers_length out.requestId s.now
    rw [← hplanned.members, Impl.specOf_of_find hseed.stored] at hlength
    exact hlength.trans hseedLimit
  · have hlength := Impl.length_le_peers (k := compatKey s.cfg rec.spec) hplanned.dispatched.enabled.1 fun id hid => by
      rw [← hkey]
      exact hplanned.member hbucket hseed hid
    exact (Nat.cast_le.2 hlength).trans hpeers

/-- Requests 7 and 8 of one key on worker 3; only 8 asks for a limit. -/
def limitedSecond (limit : ℤ) : Impl :=
  recoverable.run (Impl.init {} 0 0x80000001 none) [.op (.registerWorker (plainWorker 3)),
    .op (.submit plainSpec (some ⟨7⟩)), .op (.submit { plainSpec with maxBatchSize := limit } (some ⟨8⟩))]

/-- A limit of two leaves room for a batch of both. -/
theorem dispatch_within_limits_two :
    ∃ s' out, Plans (limitedSecond 2) (s', .ok out) ∧ out.batchMembers = [⟨7⟩, ⟨8⟩] ∧
      ∃ rec, (limitedSecond 2).requests.find ⟨8⟩ = some rec ∧
        (0 < rec.spec.maxBatchSize → (out.batchMembers.length : ℤ) ≤ rec.spec.maxBatchSize) := by
  have hout : ((limitedSecond 2).doPlanDispatch ⟨7⟩ false).2.toOption.map
      (fun out => (out.decision, out.batchMembers)) = some (.dispatch, [⟨7⟩, ⟨8⟩]) := by decide +kernel
  obtain ⟨s', out, hplan, hout⟩ := (Plans.request ⟨7⟩ false).exists_ok hout
  obtain ⟨hdispatch, hmembers⟩ : _ ∧ _ := by simpa only [Prod.mk.injEq] using hout
  have hlimits : ∀ rb ∈ (limitedSecond 2).requests.records, 0 < rb.spec.maxBatchSize →
      ((limitedSecond 2).peers (compatKey (limitedSecond 2).cfg rb.spec) : ℤ) ≤ rb.spec.maxBatchSize := by
    decide +kernel
  exact ⟨s', out, hplan, hmembers, dispatch_within_limits rfl hplan hdispatch
    (fun a b ra rb _ hb _ hpos => .inr (hlimits rb (Keyed.mem_records.2 (Keyed.find_key hb.stored)) hpos))
    (by rw [hmembers]; decide)⟩

/-- A request that asks to run alone is put in a batch of two. -/
theorem limit_of_one_in_pair :
    ((limitedSecond 1).doPlanDispatch ⟨7⟩ false).2.toOption.map (fun out => (out.decision, out.batchMembers)) =
        some (.dispatch, [⟨7⟩, ⟨8⟩]) ∧
      ((limitedSecond 1).requests.find ⟨8⟩).any (fun rec => rec.spec.maxBatchSize == 1) = true := by
  decide +kernel

end InferenceScheduler
