/-
The flows' side of the ready structures. `Lined` says what holds of the flow
heaps in every state, whatever ids and reports come in: an entry belongs to the
flow of its request, a flow with entries is active and has the weight of its
key, and a queued request has an entry under its generation. `Ready.fair` is
the view of the ready structures as a fair queue.
-/
import InferenceScheduler.Lib.FairQueue
import InferenceScheduler.ReadyIndex

namespace InferenceScheduler

/-- The weight of the flow of a key. -/
def keyWeight (cfg : SchedulerConfig) (k : FlowKey) : ℚ :=
  Impl.tenantWeight cfg k.tenant * tableAt cfg.scheduling.latencyWeight k.latency *
    tableAt cfg.scheduling.priorityWeight k.priority * tableAt cfg.scheduling.phaseWeight k.phase

/-- The weight of a request is that of its flow. -/
theorem flowWeight_eq (cfg : SchedulerConfig) (s : RequestSpec) : flowWeight cfg s = keyWeight cfg (flowKey s) := rfl

/-! ## The ready structures as a fair queue -/

namespace Ready

/-- The virtual times and the active flows. -/
def fair (q : Ready) : FairQueue FlowKey ℚ :=
  ⟨fun k => (q.flow k).virtualFinish, q.virtualTime, {k | k ∈ q.activeFlows}⟩

section

variable (q : Ready) (cfg : SchedulerConfig) (now : ClockTime) (rec : RequestRecord)

theorem flow_enqueue (k : FlowKey) : (q.enqueue cfg now rec).flow k =
    if flowKey rec.spec = k then
      { weight := keyWeight cfg k
        virtualFinish := if (q.flow k).pending.isEmpty then max (q.flow k).virtualFinish q.virtualTime
          else (q.flow k).virtualFinish
        pending := (q.flow k).pending.push (readyEntry now rec) }
    else q.flow k := by
  simp only [flow, enqueue, Table.lookup_insert_eq]
  split
  · next hk =>
    subst hk
    rfl
  · rfl

/-- A request enters the queue: its flow wakes up if it had no entry. -/
theorem fair_enqueue : (q.enqueue cfg now rec).fair =
    if (q.flow (flowKey rec.spec)).pending.isEmpty then q.fair.wake (flowKey rec.spec) else q.fair := by
  cases hempty : (q.flow (flowKey rec.spec)).pending.isEmpty with
  | true =>
    refine FairQueue.ext (funext fun k => ?_) rfl (Set.ext fun k => ?_)
    · simp only [fair, flow_enqueue, if_true, FairQueue.wake, Function.update_apply]
      by_cases hk : flowKey rec.spec = k
      · subst hk
        simp only [hempty, if_true]
      · simp only [if_neg hk, if_neg (Ne.symm hk)]
    · simp only [fair, enqueue, hempty, if_true, FairQueue.wake, Set.mem_ofPred_eq, USet.mem_insert,
        Set.mem_insert_iff]
  | false =>
    refine FairQueue.ext (funext fun k => ?_) rfl ?_
    · simp only [fair, flow_enqueue, Bool.false_eq_true, if_false]
      by_cases hk : flowKey rec.spec = k
      · subst hk
        simp only [hempty, if_true, Bool.false_eq_true, if_false]
      · simp only [if_neg hk]
    · simp only [fair, enqueue, hempty, Bool.false_eq_true, if_false]

/-- A request is accounted for: its flow is charged. -/
theorem fair_accountFlow (spec : RequestSpec) (cost : ℚ) (hw : 0 < (q.flow (flowKey spec)).weight) :
    (q.accountFlow spec cost).fair = q.fair.charge (flowKey spec) (cost / (q.flow (flowKey spec)).weight) := by
  simp only [fair, FairQueue.charge, accountFlow, gt_iff_lt, hw, if_true, FairQueue.mk.injEq, and_true]
  funext k
  simp only [flow, Table.lookup_insert_eq, Function.update_apply]
  by_cases hk : k = flowKey spec
  · subst hk
    simp
  · simp [hk, Ne.symm hk]

theorem weight_accountFlow (spec : RequestSpec) (cost : ℚ) (k : FlowKey) :
    ((q.accountFlow spec cost).flow k).weight = (q.flow k).weight := by
  simp only [flow, accountFlow, Table.lookup_insert_eq]
  split
  · next hk =>
    subst hk
    rfl
  · rfl

end

end Ready

/-! ## What always holds of the flows -/

/-- The heap entries, the flows and the queued requests fit together. -/
structure Lined (c : Core) : Prop where
  flow : ∀ k, ∀ e ∈ (c.ready.flow k).pending.entries, ∃ rec, c.requests.find e.id = some rec ∧ flowKey rec.spec = k
  active : ∀ k, (c.ready.flow k).pending.entries ≠ [] → k ∈ c.ready.activeFlows
  weight : ∀ k, (c.ready.flow k).pending.entries ≠ [] → (c.ready.flow k).weight = keyWeight c.cfg k
  queued : ∀ r rec, c.Waits r rec → r ∈ c.ready.queued ∧ r ∈ c.ready.bucket (compatKey c.cfg rec.spec) ∧
    ∃ e ∈ (c.ready.flow (flowKey rec.spec)).pending.entries, e.id = r ∧ e.generation = rec.generation
  admitted : ∀ r rec, c.requests.find r = some rec → rec.state ≠ .admitted

/-- A record is replaced by one with the same spec. -/
theorem Core.spec_put {c : Core} (fin : RequestRecord)
    (hspec : ∀ old, c.requests.find fin.requestId = some old → old.spec = fin.spec) {r : RequestId}
    {rec : RequestRecord} (hf : c.requests.find r = some rec) :
    ∃ rec', (c.put fin).requests.find r = some rec' ∧ rec'.spec = rec.spec := by
  by_cases hid : fin.requestId = r
  · subst hid
    exact ⟨fin, Keyed.find_put_self c.requests fin, (hspec rec hf).symm⟩
  · exact ⟨rec, (Keyed.find_put_ne c.requests (v := fin) hid).trans hf, rfl⟩

namespace Lined

variable {c : Core}

theorem frame {c' : Core} (h : Lined c) (hcfg : c'.cfg = c.cfg) (hreq : c'.requests = c.requests)
    (hready : c'.ready = c.ready) : Lined c' := by
  obtain ⟨cfg, now, ids, requests, ready, pool⟩ := c'
  obtain rfl : cfg = c.cfg := hcfg
  obtain rfl : requests = c.requests := hreq
  obtain rfl : ready = c.ready := hready
  exact ⟨h.flow, h.active, h.weight, h.queued, h.admitted⟩

theorem flow_put (h : Lined c) (fin : RequestRecord)
    (hspec : ∀ old, c.requests.find fin.requestId = some old → old.spec = fin.spec) (k : FlowKey) (e : ReadyEntry)
    (he : e ∈ (c.ready.flow k).pending.entries) :
    ∃ rec, (c.put fin).requests.find e.id = some rec ∧ flowKey rec.spec = k := by
  obtain ⟨rec, hf, hk⟩ := h.flow k e he
  obtain ⟨rec', hf', hs⟩ := Core.spec_put fin hspec hf
  exact ⟨rec', hf', hs ▸ hk⟩

theorem admitted_put (h : Lined c) (fin : RequestRecord) (hs : fin.state ≠ .admitted) (r : RequestId)
    (rec : RequestRecord) (hf : (c.put fin).requests.find r = some rec) : rec.state ≠ .admitted := by
  by_cases hid : fin.requestId = r
  · subst hid
    obtain rfl := Option.some.inj ((Keyed.find_put_self c.requests fin).symm.trans hf)
    exact hs
  · exact h.admitted r rec ((Keyed.find_put_ne c.requests (v := fin) hid).symm.trans hf)

/-- A record is written that waits only if the one before did. -/
theorem put (h : Lined c) (fin : RequestRecord)
    (hspec : ∀ old, c.requests.find fin.requestId = some old → old.spec = fin.spec)
    (hq : fin.state = .queued → ∃ old, c.Waits fin.requestId old ∧ old.generation = fin.generation)
    (hs : fin.state ≠ .admitted) : Lined (c.put fin) := by
  refine ⟨h.flow_put fin hspec, h.active, h.weight, fun r rec hr => ?_, h.admitted_put fin hs⟩
  by_cases hid : fin.requestId = r
  · subst hid
    obtain rfl : fin = rec := Option.some.inj ((Keyed.find_put_self c.requests fin).symm.trans hr.1)
    obtain ⟨old, hw, hgen⟩ := hq hr.2
    rw [← hspec old hw.1, ← hgen]
    exact h.queued _ old hw
  · exact h.queued r rec ⟨(Keyed.find_put_ne c.requests (v := fin) hid).symm.trans hr.1, hr.2⟩

/-- A stored request leaves the queue, if it is there. -/
theorem dequeue {rec : RequestRecord} (h : Lined c) (hf : c.Holds rec) (out fin : RequestRecord)
    (hspec : fin.spec = rec.spec) (hout : out.requestId = rec.requestId) (hid : fin.requestId = rec.requestId)
    (hq : fin.state ≠ .queued) (hs : fin.state ≠ .admitted) :
    Lined ({ c with ready := c.ready.dequeue c.cfg out }.put fin) := by
  have hsame : ∀ old, c.requests.find fin.requestId = some old → old.spec = fin.spec := by
    intro old hold
    obtain rfl : rec = old := Option.some.inj (hf.symm.trans (hid ▸ hold))
    exact hspec.symm
  refine ⟨h.flow_put fin hsame, h.active, h.weight, fun r rec' hr => ?_, h.admitted_put fin hs⟩
  obtain ⟨hne, hw⟩ := (Core.waits_put (c := { c with ready := c.ready.dequeue c.cfg out }) hq r rec').1 hr
  obtain ⟨hmem, hbucket, hentry⟩ := h.queued r rec' hw
  have hr : r ≠ out.requestId := by rw [hout, ← hid]; exact hne
  exact ⟨USet.mem_erase.2 ⟨hr, hmem⟩,
    (c.ready.mem_bucket_dequeue c.cfg out _ r).2 ⟨hbucket, fun hx => hr hx.2⟩, hentry⟩

/-- A request enters the queue, a new one or one stored before. -/
theorem enqueue (h : Lined c) (new : RequestRecord)
    (hspec : ∀ old, c.requests.find new.requestId = some old → old.spec = new.spec) : Lined (c.enqueue new) := by
  have hself : (c.enqueue new).requests.find new.requestId = some { new with state := .queued, queuedAt := c.now } :=
    Keyed.find_put_self c.requests { new with state := .queued, queuedAt := c.now }
  have hpush : ∀ k e, e ∈ ((c.enqueue new).ready.flow k).pending.entries ↔
      flowKey new.spec = k ∧ e = readyEntry c.now new ∨ e ∈ (c.ready.flow k).pending.entries := by
    intro k e
    rw [show (c.enqueue new).ready = c.ready.enqueue c.cfg c.now new from rfl, Ready.pending_enqueue]
    split
    · next hk => simp [hk]
    · next hk => simp [hk]
  refine ⟨fun k e he => ?_, c.ready.active_enqueue c.cfg c.now new h.active, fun k hk => ?_, fun r rec hr => ?_, ?_⟩
  · rcases (hpush k e).1 he with ⟨hk, rfl⟩ | he
    · exact ⟨_, hself, hk⟩
    · exact h.flow_put { new with state := .queued, queuedAt := c.now } hspec k e he
  · show ((c.ready.enqueue c.cfg c.now new).flow k).weight = _
    rw [Ready.flow_enqueue]
    split
    · rfl
    · next hne =>
      refine h.weight k fun hnil => hk (List.eq_nil_iff_forall_not_mem.2 fun e he => ?_)
      rcases (hpush k e).1 he with ⟨hk, _⟩ | he
      · exact hne hk
      · rw [hnil] at he
        cases he
  · rcases (c.waits_enqueue new r rec).1 hr with ⟨rfl, rfl⟩ | ⟨_, hw⟩
    · exact ⟨USet.mem_insert.2 (.inl rfl), (c.ready.mem_bucket_enqueue c.cfg c.now new _ _).2 (.inl ⟨rfl, rfl⟩),
        readyEntry c.now new, (hpush _ _).2 (.inl ⟨rfl, rfl⟩), rfl, rfl⟩
    · obtain ⟨hmem, hbucket, e, he, hlive⟩ := h.queued r rec hw
      exact ⟨USet.mem_insert.2 (.inr hmem), (c.ready.mem_bucket_enqueue c.cfg c.now new _ r).2 (.inr hbucket),
        e, (hpush _ e).2 (.inr he), hlive⟩
  · exact h.admitted_put { new with state := .queued, queuedAt := c.now } (by simp)

theorem account (h : Lined c) (spec : RequestSpec) (cost : ℚ) :
    Lined { c with ready := c.ready.accountFlow spec cost } := by
  refine ⟨fun k e he => ?_, fun k hk => ?_, fun k hk => ?_, fun r rec hr => ?_, h.admitted⟩
  · rw [Ready.pending_accountFlow] at he
    exact h.flow k e he
  · rw [Ready.pending_accountFlow] at hk
    exact h.active k hk
  · rw [Ready.pending_accountFlow] at hk
    rw [Ready.weight_accountFlow]
    exact h.weight k hk
  · rw [Ready.pending_accountFlow]
    exact h.queued r rec hr

theorem reserveMember (h : Lined c) (bid : BatchId) (id : RequestId) : Lined (c.reserveMember bid id) := by
  unfold Core.reserveMember
  split
  · exact h
  · next m hf =>
    have hdeq := h.dequeue (Keyed.find_key hf) m (m.reserve bid c.now) rfl rfl rfl
      (by simp [RequestRecord.reserve]) (by simp [RequestRecord.reserve])
    exact hdeq.account _ _

theorem foldl_reserveMember (bid : BatchId) : ∀ (ids : List RequestId) {c : Core}, Lined c →
    Lined (ids.foldl (Core.reserveMember bid) c)
  | [], _, h => h
  | id :: ids, _, h => foldl_reserveMember bid ids (h.reserveMember bid id)

theorem pop {k : FlowKey} {n : ℕ} (h : Lined c)
    (hdead : ∀ e ∈ (c.ready.flow k).pending.entries.take n, c.Dead e) : Lined (c.act (.pop k n)) := by
  have hsub : ∀ {k' e}, e ∈ ((c.act (.pop k n)).ready.flow k').pending.entries →
      e ∈ (c.ready.flow k').pending.entries := by
    intro k' e he
    rw [Core.flow_pop] at he
    split at he
    · exact List.mem_of_mem_drop he
    · exact he
  have hne : ∀ {k'}, ((c.act (.pop k n)).ready.flow k').pending.entries ≠ [] →
      (c.ready.flow k').pending.entries ≠ [] := by
    intro k' hk' hnil
    refine hk' (List.eq_nil_iff_forall_not_mem.2 fun e he => ?_)
    have := hsub he
    rw [hnil] at this
    cases this
  refine ⟨fun k' e he => h.flow k' e (hsub he), fun k' hk' => h.active k' (hne hk'), fun k' hk' => ?_,
    fun r rec hr => ?_, h.admitted⟩
  · rw [Core.flow_pop]
    split <;> exact h.weight k' (hne hk')
  · -- The entry of a queued request is not dead, so it is not among those popped.
    obtain ⟨hmem, hbucket, e, he, hid, hgen⟩ := h.queued r rec hr
    refine ⟨hmem, hbucket, e, ?_, hid, hgen⟩
    rw [Core.flow_pop]
    split
    · next hk =>
      subst hk
      rw [← List.take_append_drop n (c.ready.flow (flowKey rec.spec)).pending.entries] at he
      refine (List.mem_append.1 he).resolve_left fun htake => ?_
      rcases hdead e htake rec (hid ▸ hr.1) with hx | hx | hx
      · exact hx (hid ▸ hmem)
      · exact hx hgen.symm
      · exact hx hr.2
    · exact he

theorem sleep {k : FlowKey} (h : Lined c) (hk : (c.ready.flow k).pending.entries = []) :
    Lined (c.act (.sleep k)) := by
  refine ⟨h.flow, fun k' hk' => ?_, h.weight, h.queued, h.admitted⟩
  refine USet.mem_erase.2 ⟨?_, h.active k' hk'⟩
  intro heq
  subst heq
  exact hk' hk

theorem act {m : Move} (h : Lined c) (hen : Enabled c m) : Lined (c.act m) := by
  have hframe : ∀ ids pool, Lined { c with ids := ids, pool := pool } := fun ids pool => h.frame rfl rfl rfl
  -- The record written over is the one the move found.
  have hsame : ∀ {rec fin : RequestRecord}, c.Holds rec → fin.requestId = rec.requestId → fin.spec = rec.spec →
      ∀ old, c.requests.find fin.requestId = some old → old.spec = fin.spec := by
    intro rec fin hf hid hspec old hold
    obtain rfl : rec = old := Option.some.inj (hf.symm.trans (hid ▸ hold))
    exact hspec.symm
  have hnone : ∀ {r : RequestId} {spec : RequestSpec}, c.requests.find r = none →
      ∀ old, c.requests.find r = some old → old.spec = spec :=
    fun hf old hold => absurd (hf.symm.trans hold) (by simp)
  cases m with
  | advance | draw | sweep | setWorker | dropWorker => exact h.frame rfl rfl rfl
  | refuse rec =>
    have hs := hen.2.1
    refine h.put rec (hnone hen.1) (fun hq => ?_) fun ha => ?_
    · rw [hq] at hs
      cases hs
    · rw [ha] at hs
      cases hs
  | accept spec rid =>
    exact (hframe c.ids.tick.tick c.pool).enqueue
      (Impl.admittedRecord spec rid c.ids.peek c.ids.tick.peek c.now) (hnone hen)
  | expire rec =>
    exact h.dequeue hen.1 rec rec.expire rfl rfl rfl (by simp [RequestRecord.expire])
      (by simp [RequestRecord.expire])
  | pop k n => exact h.pop hen
  | sleep k => exact h.sleep hen
  | reserve wr members => exact foldl_reserveMember _ _ (hframe _ _)
  | start rec wr snap =>
    exact (hframe c.ids (c.pool.start wr rec.batchId rec.requestId rec.currentAttempt snap)).put
      (rec.start wr.id c.now) (hsame hen.1 rfl rfl) (by simp [RequestRecord.start])
      (by simp [RequestRecord.start])
  | finish rec w e =>
    have hid : (e.close (c.pool.released w (e.note c.now rec))).requestId = rec.requestId := by
      rw [Ending.close_requestId, Pool.released_requestId, Ending.note_requestId]
    have hadm := h.admitted _ rec hen.1
    refine (hframe c.ids (c.pool.releaseMember w rec)).put _ (hsame hen.1 hid ?_) (fun hq => ?_) ?_
    · cases e <;> simp [Ending.close, Ending.note, RequestRecord.succeed, RequestRecord.fail,
        RequestRecord.noteFailure, RequestRecord.noteExpired, RequestRecord.noteStale]
    · -- Only a report of `Stale` leaves a request queued.
      cases e with
      | success => simp [Ending.close, Ending.note, RequestRecord.succeed] at hq
      | failed => simp [Ending.close, RequestRecord.fail] at hq
      | expired => simp [Ending.close] at hq
      | stale =>
        simp only [Ending.close, Ending.note, RequestRecord.noteStale, Pool.released_state] at hq
        exact ⟨rec, ⟨hid ▸ hen.1, hq⟩, by simp [Ending.close, Ending.note, RequestRecord.noteStale]⟩
    · cases e with
      | success => simp [Ending.close, Ending.note, RequestRecord.succeed]
      | failed => simp [Ending.close, RequestRecord.fail]
      | expired => simp [Ending.close]
      | stale => simpa [Ending.close, Ending.note, RequestRecord.noteStale] using hadm
  | cancel rec asked w reason =>
    have hid := c.unworked_requestId w { rec with cancelReason := asked }
    have hspec : (c.unworked w { rec with cancelReason := asked }).spec = rec.spec := by
      rcases c.unworked_cases w { rec with cancelReason := asked } with he | he <;> rw [he]
    exact (hframe c.ids (if rec.onWorker then c.pool.releaseMember w rec else c.pool)).dequeue hen.1
      (c.unworked w { rec with cancelReason := asked })
      ((c.unworked w { rec with cancelReason := asked }).cancel reason) hspec hid hid
      (by simp [RequestRecord.cancel]) (by simp [RequestRecord.cancel])
  | flag rec asked =>
    have hs : rec.state ≠ .queued ∧ rec.state ≠ .admitted := by rcases hen.2 with hs | hs <;> simp [hs]
    exact h.put { rec with cancelReason := asked, cancellationRequested := true } (hsame hen.1 rfl rfl)
      (fun hq => absurd hq hs.1) hs.2
  | retry rec r =>
    exact (hframe c.ids.tick.tick (c.pool.releaseMember r.worker rec)).enqueue
      ((c.pool.released r.worker (rec.noteFailure r)).retry c.ids.peek c.ids.tick.peek c.now)
      (hsame hen.1 (c.pool.released_requestId r.worker (rec.noteFailure r))
        (c.pool.released_spec r.worker (rec.noteFailure r)))

/-- Every entry in the books keeps the flows in line. -/
theorem post {b : Book} {s : Impl} {op : Op} {e : Entry} (h : Lined b.core) (he : Posted s op b e) :
    Lined (b.act e).core := by
  cases e with
  | move m =>
    rw [show (b.act (.move m)).core = b.core.act m from b.move_core m]
    exact h.act he.1.1
  | turnAway | dismiss | settle => exact h
  | again rec spec =>
    have hids : Lined { b.core with ids := b.core.ids.tick.tick } := h.frame rfl rfl rfl
    refine hids.enqueue rec fun old hold => ?_
    obtain rfl : rec = old := Option.some.inj (he.2.1.symm.trans hold)
    rfl

theorem init (cfg : SchedulerConfig) (now : ClockTime) (salt : UInt64) (epoch : Option SchedulerEpoch) :
    Lined (Impl.init cfg now salt epoch).core := by
  constructor <;> simp [Impl.core, Impl.init, Core.Waits, Ready.flow]

/-- The flows are in line in every state of every run. -/
theorem run (cfg : SchedulerConfig) (now : ClockTime) (salt : UInt64) (epoch : Option SchedulerEpoch) (ops : List Op) :
    Lined (scheduler.run (Impl.init cfg now salt epoch) ops).core := by
  have hok : scheduler.Allowed (fun _ _ => True) (Impl.init cfg now salt epoch) ops :=
    Machine.allowed_of_forall fun _ _ _ => trivial
  exact books_invariant (I := fun b => Lined b.core) (fun _ _ _ _ _ he h => h.post he) (.init cfg now salt epoch) hok

end Lined

end InferenceScheduler
