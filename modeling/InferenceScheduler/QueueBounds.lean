/-
The limits on the queues, over all tenants and for each of them. A submission
is tested against them; `make_retry`, on a report or when a worker is lost,
enqueues without a test. The test itself reads counters, and
`finish_cancelled` takes a request on a worker off its tenant's queued ones.
-/
import InferenceScheduler.Loss
import InferenceScheduler.TenantCounters

namespace InferenceScheduler

open Machine

/-- The queues that have a limit. -/
inductive QueueOf
  | all
  | tenant (t : TenantId)

namespace QueueOf

def has : QueueOf → RequestSpec → Bool
  | .all, _ => true
  | .tenant t, spec => spec.tenant == t

/-- A request waits in the queue. -/
def waits (q : QueueOf) (rec : RequestRecord) : Bool := q.has rec.spec && rec.state == .queued

/-- What the scheduler counts. -/
def counter (b : Book) : QueueOf → ℤ
  | .all => b.core.ready.globalQueued
  | .tenant t => (b.tenants t).queued

def limit (cfg : SchedulerConfig) : QueueOf → ℤ
  | .all => cfg.admission.maxGlobalQueued
  | .tenant _ => cfg.admission.defaultTenantQueueDepth

end QueueOf

/-! ## The counters cover the queues -/

/-- The scheduler counts at least the requests that wait. -/
def Covers (b : Book) (q : QueueOf) : Prop := (b.core.requests.count q.waits : ℤ) ≤ q.counter b

theorem Core.waits_writes {c : Core} {m : Move} {rec rec' : RequestRecord} (hw : Writes c m rec rec')
    (hf : c.Holds rec) (hone : ∀ wr members, m ≠ .reserve wr members) (q : QueueOf) :
    ((c.act m).requests.count q.waits : ℤ) =
      c.requests.count q.waits + if q.has rec.spec then gain .queued rec.state rec'.state else 0 := by
  rw [count_writes _ hw hf hone]
  simp only [QueueOf.waits, hw.spec, Bool.and_eq_true, beq_iff_eq, gain]
  by_cases hq : q.has rec.spec = true
  · simp only [hq, true_and, if_true]
    omega
  · simp [hq]

/-- An accepted submission waits. -/
theorem Core.waits_accept {c : Core} {spec : RequestSpec} {rid : RequestId} (hen : Enabled c (.accept spec rid))
    (q : QueueOf) : ((c.act (.accept spec rid)).requests.count q.waits : ℤ) =
      c.requests.count q.waits + if q.has spec then 1 else 0 := by
  have hcount := Keyed.count_put_of_none (t := c.requests) (p := q.waits) (w := { Impl.admittedRecord spec rid
    c.ids.peek c.ids.tick.peek c.now with state := .queued, queuedAt := c.now }) hen
  refine hcount.trans ?_
  simp [QueueOf.waits, Impl.admittedRecord]

theorem le_decPos (n : ℤ) : n - 1 ≤ decPos n := by
  rw [decPos]
  split <;> omega

theorem Ready.le_globalQueued_dequeue (q : Ready) (cfg : SchedulerConfig) (rec : RequestRecord) :
    q.globalQueued - 1 ≤ (q.dequeue cfg rec).globalQueued := by
  simp only [dequeue]
  split <;> omega

section

variable {b : Book} {m : Move} {rec rec' : RequestRecord} {q : QueueOf}

/-- A move that writes one request keeps its queues covered if it counts the
request's change of state. -/
theorem Covers.writes (h : Covers b q) (hw : Writes b.core m rec rec') (hf : b.core.Holds rec)
    (hone : ∀ wr members, m ≠ .reserve wr members)
    (hcount : q.has rec.spec = true → q.counter b + gain .queued rec.state rec'.state ≤ q.counter (b.act (.move m)))
    (hothers : q.has rec.spec = false → q.counter b ≤ q.counter (b.act (.move m))) : Covers (b.act (.move m)) q := by
  have hcore : (b.act (.move m)).core = b.core.act m := b.move_core m
  have hle : (b.core.requests.count q.waits : ℤ) ≤ q.counter b := h
  rw [Covers, hcore, Core.waits_writes hw hf hone]
  by_cases hq : q.has rec.spec = true
  · have := hcount hq
    rw [if_pos hq]
    omega
  · rw [if_neg hq, add_zero]
    exact hle.trans (hothers (by simpa using hq))

/-- A move that counts no queue and puts no request in one. -/
theorem Covers.keep (h : Covers b q) (hw : Writes b.core m rec rec') (hf : b.core.Holds rec)
    (hone : ∀ wr members, m ≠ .reserve wr members) (hs : rec'.state = .queued → rec.state = .queued)
    (hcount : q.counter (b.act (.move m)) = q.counter b) : Covers (b.act (.move m)) q := by
  refine h.writes hw hf hone (fun _ => ?_) fun _ => hcount.ge
  rw [hcount, gain]
  split
  · next h' => simp [hs h']
  · split <;> omega

end

/-- The counters after a request leaves the queue by `dequeue_request`. -/
theorem QueueOf.counter_dequeue (q : QueueOf) (b b' : Book) (rec : RequestRecord)
    (hglobal : b.core.ready.globalQueued - 1 ≤ b'.core.ready.globalQueued)
    (htenant : ∀ t, (b'.tenants t).queued =
      if rec.spec.tenant = t then decPos (b.tenants t).queued else (b.tenants t).queued) :
    (q.has rec.spec = true → q.counter b - 1 ≤ q.counter b') ∧
      (q.has rec.spec = false → q.counter b ≤ q.counter b') := by
  cases q with
  | all => exact ⟨fun _ => hglobal, nofun⟩
  | tenant t =>
    simp only [has, counter, htenant t, beq_iff_eq, beq_eq_false_iff_ne]
    refine ⟨fun ht => ?_, fun ht => ?_⟩
    · rw [if_pos ht]
      exact le_decPos _
    · rw [if_neg ht]

/-- Leaving the queue and the admitted ones, in the counters of a tenant. -/
theorem Book.dequeue_leave_queued (b : Book) (t t' : TenantId) :
    (((b.on t .dequeue).leave t).tenants t').queued =
      if t = t' then decPos (b.tenants t').queued else (b.tenants t').queued := by
  by_cases ht : t = t'
  · subst ht
    simp [leave, on, Counts.leave, Counts.dequeue]
  · simp [leave, on, ht, Ne.symm ht]

/-- The end of an attempt leaves the queues' counters alone. -/
theorem QueueOf.counter_finish (q : QueueOf) (b : Book) (rec : RequestRecord) (w : WorkerId) (e : Ending) :
    q.counter (b.act (.move (.finish rec w e))) = q.counter b := by
  cases q with
  | all => rfl
  | tenant t =>
    have hleft : (((b.on rec.spec.tenant .stop).leave rec.spec.tenant).tenants t).queued = (b.tenants t).queued :=
      ((b.on rec.spec.tenant .stop).on_apply Counts.queued (f := .leave) (fun _ => rfl) rec.spec.tenant t).trans
        (b.on_apply Counts.queued (f := .stop) (fun _ => rfl) rec.spec.tenant t)
    cases e with
    | success | failed | expired => exact hleft
    | stale => rfl

theorem Covers.reserveMember {b : Book} {q : QueueOf} {bid : BatchId} {id : RequestId} {rec : RequestRecord}
    (h : Covers b q) (hf : b.core.requests.find id = some rec) (hs : rec.state = .queued) :
    Covers (b.reserveMember bid id) q := by
  have hle : (b.core.requests.count q.waits : ℤ) ≤ q.counter b := h
  have hcount : ((b.core.reserveMember bid id).requests.count q.waits : ℤ) =
      b.core.requests.count q.waits - if q.has rec.spec then 1 else 0 := by
    rw [b.core.count_reserveMember bid q.waits hf]
    simp [QueueOf.waits, hs, RequestRecord.reserve]
  have hcounter : q.counter b - (if q.has rec.spec then 1 else 0) ≤ q.counter (b.reserveMember bid id) := by
    simp only [Book.reserveMember, hf]
    cases q with
    | all =>
      simp only [QueueOf.has, QueueOf.counter, Core.reserveMember, hf, Ready.accountFlow, if_true]
      exact b.core.ready.le_globalQueued_dequeue b.core.cfg rec
    | tenant t =>
      by_cases ht : rec.spec.tenant = t
      · subst ht
        simp only [QueueOf.has, QueueOf.counter, Book.on, beq_self_eq_true, if_true, Function.update_self]
        exact le_decPos _
      · simp [QueueOf.has, QueueOf.counter, Book.on, ht, Ne.symm ht]
  rw [Covers, Book.reserveMember_core, hcount]
  omega

/-- The invariant of the counters. -/
structure Counted (b : Book) : Prop where
  covers : ∀ q, Covers b q
  staged : Staged b.core
  off : QueuedOff b.core

/-- A cancellation of a request on a worker leaves the counter of its tenant
at least at the number of its queued requests. -/
def StillCovers (b : Book) : Move → Prop
  | .cancel rec _ _ _ => rec.onWorker = true →
      (b.core.requests.count (RequestRecord.inState .queued rec.spec.tenant) : ℤ) ≤
        decPos (b.tenants rec.spec.tenant).queued
  | _ => True

/-- The counters after `enqueue_request`. -/
theorem QueueOf.counter_enqueue (q : QueueOf) (b b' : Book) (spec : RequestSpec)
    (hglobal : b'.core.ready.globalQueued = b.core.ready.globalQueued + 1)
    (htenant : ∀ t, (b'.tenants t).queued = (b.tenants t).queued + if spec.tenant = t then 1 else 0) :
    q.counter b' = q.counter b + if q.has spec then 1 else 0 := by
  cases q with
  | all => exact hglobal
  | tenant t => simp only [has, counter, htenant t, beq_iff_eq]

section moves

variable {b : Book} {rec : RequestRecord} {q : QueueOf}

theorem Covers.refuse (h : Covers b q) (hen : Enabled b.core (.refuse rec)) :
    Covers (b.act (.move (.refuse rec))) q := by
  have hne : rec.state ≠ .queued := by
    intro hs
    exact absurd hen.2.1 (by simp [hs, isTerminal])
  have hcount : ((b.core.requests.put rec).count q.waits : ℤ) = b.core.requests.count q.waits := by
    rw [Keyed.count_put_of_none hen.1]
    simp [QueueOf.waits, hne]
  cases q <;> exact hcount.trans_le h

theorem Covers.accept {spec : RequestSpec} {rid : RequestId} (h : Covers b q)
    (hen : Enabled b.core (.accept spec rid)) : Covers (b.act (.move (.accept spec rid))) q := by
  have hcounter := q.counter_enqueue b (b.act (.move (.accept spec rid))) spec rfl fun t => by
    by_cases ht : spec.tenant = t
    · subst ht
      simp [Book.act, Book.move, Book.post, Book.accept, Book.on, Counts.enter, Counts.enqueue]
    · simp [Book.act, Book.move, Book.post, Book.accept, Book.on, ht, Ne.symm ht]
  have hle : (b.core.requests.count q.waits : ℤ) ≤ q.counter b := h
  rw [Covers, hcounter]
  refine (Core.waits_accept hen q).trans_le ?_
  omega

theorem Covers.retry {r : CompletionReport} (h : Covers b q) (hen : Enabled b.core (.retry rec r)) :
    Covers (b.act (.move (.retry rec r))) q := by
  have hcounter := q.counter_enqueue b (b.act (.move (.retry rec r))) rec.spec rfl fun t => by
    by_cases ht : rec.spec.tenant = t
    · subst ht
      simp [Book.act, Book.move, Book.post, Book.on, Counts.stop, Counts.enqueue]
    · simp [Book.act, Book.move, Book.post, Book.on, ht, Ne.symm ht]
  refine h.writes .retry hen.1 (by simp) (fun hx => ?_) fun hx => ?_
  · rw [hcounter, if_pos hx, gain]
    split <;> split <;> omega
  · rw [hcounter, hx]
    simp

theorem Covers.expire (h : Covers b q) (hen : Enabled b.core (.expire rec)) :
    Covers (b.act (.move (.expire rec))) q := by
  obtain ⟨hhas, hothers⟩ := q.counter_dequeue b (b.act (.move (.expire rec))) rec
    (b.core.ready.le_globalQueued_dequeue b.core.cfg rec) (b.dequeue_leave_queued rec.spec.tenant)
  refine h.writes .expire hen.1 (by simp) (fun hx => ?_) hothers
  have := hhas hx
  simp only [gain, hen.2, RequestRecord.expire, reduceCtorEq, ↓reduceIte]
  omega

theorem Covers.finish {w : WorkerId} {e : Ending} (h : Covers b q) (hen : Enabled b.core (.finish rec w e)) :
    Covers (b.act (.move (.finish rec w e))) q := by
  refine h.keep .finish hen.1 (by simp) (fun hs => ?_) (q.counter_finish b rec w e)
  by_cases he : e = .stale
  · subst he
    simpa [Ending.close, Ending.note, RequestRecord.noteStale] using hs
  · have hend := Ending.isTerminal_close he b.core.pool w b.core.now rec
    simp [hs, isTerminal] at hend

variable {asked : CancellationReason} {w : WorkerId} {reason : String}

theorem Covers.cancel_queued (h : Covers b q) (hen : Enabled b.core (.cancel rec asked w reason))
    (hs : rec.state = .queued) : Covers (b.act (.move (.cancel rec asked w reason))) q := by
  have hon : rec.onWorker = false := by simp [RequestRecord.onWorker, hs]
  obtain ⟨hhas, hothers⟩ := q.counter_dequeue b (b.act (.move (.cancel rec asked w reason))) rec
    (b.core.ready.le_globalQueued_dequeue b.core.cfg _) (fun t => by
      simp only [Book.act, Book.move, Book.post, hon, Bool.false_eq_true, ↓reduceIte]
      exact b.dequeue_leave_queued rec.spec.tenant t)
  refine h.writes .cancel hen.1 (by simp) (fun hx => ?_) hothers
  have := hhas hx
  simp only [gain, hs, RequestRecord.cancel, reduceCtorEq, ↓reduceIte]
  omega

/-- A request on a worker is not in the queued set, but its tenant's counter is
counted down all the same. -/
theorem Counted.cancel_working (h : Counted b) (hen : Enabled b.core (.cancel rec asked w reason))
    (hon : rec.onWorker = true) (hm : StillCovers b (.cancel rec asked w reason)) (q : QueueOf) :
    Covers (b.act (.move (.cancel rec asked w reason))) q := by
  have hs : rec.state ≠ .queued := by
    intro hs
    simp [RequestRecord.onWorker, hs] at hon
  have hnot : rec.requestId ∉ b.core.ready.queued := by
    intro hmem
    have hoff := h.off _ rec hmem hen.1
    rw [hon] at hoff
    cases hoff
  have hcount : ((b.act (.move (.cancel rec asked w reason))).core.requests.count q.waits : ℤ) =
      b.core.requests.count q.waits := by
    rw [show (b.act (.move (.cancel rec asked w reason))).core = b.core.act _ from b.move_core _,
      Core.waits_writes .cancel hen.1 (by simp)]
    simp [gain, hs, RequestRecord.cancel]
  refine hcount.trans_le ?_
  cases q with
  | all =>
    have hid : (b.core.unworked w { rec with cancelReason := asked }).requestId = rec.requestId :=
      b.core.unworked_requestId w _
    refine le_trans (show _ ≤ b.core.ready.globalQueued from h.covers .all) (le_of_eq ?_)
    simp [QueueOf.counter, Book.act, Core.act, Core.put, Ready.dequeue, hid, hnot]
  | tenant t =>
    have hten : ((b.act (.move (.cancel rec asked w reason))).tenants t).queued =
        if rec.spec.tenant = t then decPos (b.tenants t).queued else (b.tenants t).queued := by
      simp only [Book.act, Book.move, Book.post, hon, ↓reduceIte]
      rw [Book.dequeue_leave_queued, b.on_apply Counts.queued (f := .stop) fun _ => rfl]
    refine le_of_le_of_eq ?_ hten.symm
    split
    · next ht =>
      subst ht
      exact hm hon
    · exact h.covers (.tenant t)

end moves

theorem Counted.act_covers {b : Book} {m : Move} (h : Counted b) (hen : Enabled b.core m) (hm : StillCovers b m)
    (q : QueueOf) : Covers (b.act (.move m)) q := by
  have hq := h.covers q
  cases m with
  | advance | draw | pop | sleep | sweep | setWorker | dropWorker => cases q <;> exact hq
  | refuse => exact hq.refuse hen
  | accept => exact hq.accept hen
  | expire => exact hq.expire hen
  | finish => exact hq.finish hen
  | retry => exact hq.retry hen
  | reserve wr members =>
    exact h.staged.reserve_invariant (I := fun b => Covers b q) (fun b' id rec hf hs hb' => hb'.reserveMember hf hs)
      (fun p => by cases q <;> exact hq) hen
  | start rec wr snap =>
    refine hq.keep .start hen.1 (by simp) (by simp [RequestRecord.start]) ?_
    cases q with
    | all => rfl
    | tenant t => exact b.on_apply Counts.queued (f := .start) (fun _ => rfl) rec.spec.tenant t
  | flag rec asked => exact hq.keep .flag hen.1 (by simp) (fun hs => hs) (by cases q <;> rfl)
  | cancel rec asked w reason =>
    by_cases hs : rec.state = .queued
    · exact hq.cancel_queued hen hs
    · have hon : rec.onWorker = true := by
        rcases h.staged.working hen.1 hen.2 hs with hw | hw <;> simp [RequestRecord.onWorker, hw]
      exact h.cancel_working hen hon hm q

/-! ## Room for what comes back -/

/-- A request that a lost worker gives back to the queue. -/
def RequestRecord.comesBack (cfg : SchedulerConfig) (now : ClockTime) (rec : RequestRecord) : Bool :=
  rec.live && rec.state != .queued && Impl.canRetry cfg rec now

/-- The request under an id, if any, comes back to the queue. -/
def Impl.comesBack (s : Impl) (q : QueueOf) (rid : RequestId) : Bool :=
  (s.requests.find rid).any fun rec => q.has rec.spec && rec.comesBack s.cfg s.now

/-- The queue tests of `make_admission` on a request of a tenant. -/
def QueueRoom (s : Impl) (t : TenantId) : Prop :=
  s.ready.globalQueued < s.cfg.admission.maxGlobalQueued ∧
    (s.tenantOf t).queued < s.cfg.admission.defaultTenantQueueDepth

/-- The same tests at a loss of `w`, for all that comes back at once. -/
def LossRoom (s : Impl) (w : WorkerId) : Prop :=
  ∀ wr ∈ s.pool.workers.find w, ∀ rid ∈ Impl.inFlightIds wr, ∀ rec ∈ s.requests.find rid,
    rec.comesBack s.cfg s.now = true →
      s.ready.globalQueued + (Impl.inFlightIds wr).countP (s.comesBack .all) ≤ s.cfg.admission.maxGlobalQueued ∧
      (s.tenantOf rec.spec.tenant).queued + (Impl.inFlightIds wr).countP (s.comesBack (.tenant rec.spec.tenant)) ≤
        s.cfg.admission.defaultTenantQueueDepth

/-- One request fewer in a tenant's counter still covers its queued ones. -/
def SpareCount (s : Impl) (t : TenantId) : Prop :=
  (s.requests.count (RequestRecord.inState .queued t) : ℤ) ≤ decPos (s.tenantOf t).queued

/-- A report has its request queued again. -/
def Requeues (s : Impl) (r : CompletionReport) (rec : RequestRecord) : Prop :=
  (r.status = .failed ∨ r.status = .ambiguous) ∧ Impl.retryable s.cfg r = true ∧
    Impl.canRetry s.cfg rec s.now = true ∧ rec.state ≠ .queued

/-- A report has its request cancelled, on a worker. -/
def CancelsWorking (r : CompletionReport) (rec : RequestRecord) : Prop :=
  (r.status = .cancelled ∨ r.status = .succeeded ∧ rec.cancellationRequested = true) ∧ rec.onWorker = true

/-- What comes back to the queue finds room by the tests of `make_admission`,
and a cancellation of a request on a worker counts out none that waits. -/
def QueueSafe (s : Impl) : Op → Prop
  | .complete r => ∀ rec ∈ s.requests.find r.requestId, Matches s r rec ∧ rec.live = true →
      (Requeues s r rec → QueueRoom s rec.spec.tenant) ∧ (CancelsWorking r rec → SpareCount s rec.spec.tenant)
  | .cancel req _ _ => ∀ rec ∈ s.requests.find req, rec.state = .reserved → SpareCount s rec.spec.tenant
  | .unregisterWorker w => LossRoom s w
  | .registerWorker reg => s.bootChanged reg = true → LossRoom s reg.worker
  | _ => True

instance (s : Impl) (t : TenantId) : Decidable (QueueRoom s t) := by unfold QueueRoom; infer_instance

instance (s : Impl) (w : WorkerId) : Decidable (LossRoom s w) := by unfold LossRoom; infer_instance

instance (s : Impl) (t : TenantId) : Decidable (SpareCount s t) := by unfold SpareCount; infer_instance

instance (s : Impl) (r : CompletionReport) (rec : RequestRecord) : Decidable (Requeues s r rec) := by
  unfold Requeues; infer_instance

instance (r : CompletionReport) (rec : RequestRecord) : Decidable (CancelsWorking r rec) := by
  unfold CancelsWorking; infer_instance

instance (s : Impl) (op : Op) : Decidable (QueueSafe s op) := by
  apply @Op.casesOn _ op <;> (intros; dsimp only [QueueSafe]; infer_instance)

theorem stillCovers_of_queueSafe {s : Impl} {op : Op} {b : Book} {m : Move} (h : Counted b) (hop : QueueSafe s op)
    (he : Posted s op b (.move m)) : StillCovers b m := by
  obtain ⟨⟨hen, hdoes⟩, hback⟩ := he
  generalize hc : b.core = c at hen hdoes
  cases hdoes with
  | @finishCancelled r rec reason hm =>
    obtain ⟨rfl, hasked⟩ := hback.1 r rfl
    have hl : rec.live = true := by simp [RequestRecord.live, hen.2]
    exact fun hon => (hop rec (hm.request ▸ hen.1) ⟨hm, hl⟩).2 ⟨hasked, hon⟩
  | @cancel req reason detail rec text hid hd hr =>
    obtain rfl := hback.2 _ _ _ rfl
    intro hon
    refine hop rec (hid ▸ hen.1) ?_
    simpa [RequestRecord.onWorker, hd, hr] using hon
  | @cancelQueued detail c rec reason hmem =>
    intro hon
    have hoff := h.off _ rec (hc ▸ hmem) (hc ▸ hen.1)
    rw [hon] at hoff
    cases hoff
  | _ => trivial

theorem Counted.act {s : Impl} {op : Op} {b : Book} {e : Entry} (h : Counted b) (hfresh : FreshSubmit s op)
    (hop : QueueSafe s op) (he : Posted s op b e) : Counted (b.act e) := by
  cases e with
  | turnAway => exact ⟨fun q => by cases q <;> exact h.covers _, h.staged, h.off⟩
  | dismiss late => exact absurd hfresh he
  | again rec spec => exact absurd hfresh he.1
  | settle t =>
    refine ⟨fun q => ?_, h.staged, h.off⟩
    cases q with
    | all => exact h.covers .all
    | tenant t' =>
      refine (h.covers (.tenant t')).trans_eq ?_
      exact (b.on_apply Counts.queued (f := .stop) (fun _ => rfl) t t').symm
  | move m =>
    have hcore : (b.act (.move m)).core = b.core.act m := b.move_core m
    refine ⟨h.act_covers he.1.1 (stillCovers_of_queueSafe h hop he), ?_, ?_⟩
    · rw [hcore]
      exact h.staged.act he.1.1
    · rw [hcore]
      exact h.off.act he.1.1

/-! ## The limits hold -/

/-- The queues are within the limits of the configuration. -/
structure Bounded (cfg : SchedulerConfig) (b : Book) : Prop where
  config : b.core.cfg = cfg
  le : ∀ q : QueueOf, (b.core.requests.count q.waits : ℤ) ≤ q.limit cfg

/-- A queue grows only by an accepted submission or a retry. -/
theorem Core.waits_act_le {c : Core} {m : Move} (hen : Enabled c m) (hacc : ∀ spec rid, m ≠ .accept spec rid)
    (hretry : ∀ rec r, m ≠ .retry rec r) (q : QueueOf) :
    ((c.act m).requests.count q.waits : ℤ) ≤ c.requests.count q.waits := by
  rw [Keyed.count_eq_sum, Keyed.count_eq_sum]
  refine sum_act_le hen (fun rec rec' _ hw => ?_) fun rec hs => ?_
  · by_cases hq : q.waits rec' = true
    · have hwait : q.waits rec = true := by
        simp only [QueueOf.waits, Bool.and_eq_true, beq_iff_eq, hw.spec] at hq ⊢
        exact ⟨hq.1, ((hw.waits (.inl hq.2)).resolve_right (not_exists.2 (hretry rec))).symm.trans hq.2⟩
      simp [hq, hwait]
    · rw [if_neg hq]
      split <;> omega
  · cases hs with
    | accept => exact absurd rfl (hacc _ _)
    | refuse =>
      have hne : rec.state ≠ .queued := by
        intro hs
        exact absurd hen.2.1 (by simp [hs, isTerminal])
      simp [QueueOf.waits, hne]

/-- Where a counter is below the limit there is room for one more request. -/
theorem Counted.lt_of_room {s : Impl} {b : Book} {t : TenantId} {cfg : SchedulerConfig} (h : Counted s.book)
    (hcfg : s.cfg = cfg) (hreq : b.core.requests = s.requests) (hroom : QueueRoom s t) {q : QueueOf}
    {spec : RequestSpec} (ht : spec.tenant = t) (hq : q.has spec = true) :
    (b.core.requests.count q.waits : ℤ) < q.limit cfg := by
  rw [hreq, ← hcfg]
  refine (h.covers q).trans_lt ?_
  cases q with
  | all => exact hroom.1
  | tenant t' =>
    simp only [QueueOf.has, beq_iff_eq] at hq
    subst hq
    subst ht
    exact hroom.2

theorem Bounded.act {cfg : SchedulerConfig} {s : Impl} {op : Op} {b : Book} {e : Entry} (h : Bounded cfg b)
    (hs : Counted s.book) (hdepth : 1 ≤ cfg.admission.defaultTenantQueueDepth) (hfresh : FreshSubmit s op)
    (hop : QueueSafe s op) (hno : ∀ w, ¬Loses s op w) (he : Posted s op b e) : Bounded cfg (b.act e) := by
  cases e with
  | turnAway => exact ⟨h.config, h.le⟩
  | dismiss late => exact absurd hfresh he
  | again rec spec => exact absurd hfresh he.1
  | settle t => exact ⟨h.config, h.le⟩
  | move m =>
    refine ⟨(b.act_cfg _).trans h.config, fun q => ?_⟩
    have hq := h.le q
    rw [show (b.act (.move m)).core = b.core.act m from b.move_core m]
    by_cases hacc : ∃ spec rid, m = .accept spec rid
    · obtain ⟨spec, rid, rfl⟩ := hacc
      obtain ⟨_, hadm, pre, rfl, rfl⟩ := he.2
      have hok := (makeAdmission_admitted_iff s spec).1 hadm
      have hcfg : s.cfg = cfg := (s.named_cfg pre).symm.trans h.config
      have hroom : QueueRoom s spec.tenant := ⟨hok.queuedRoom, hok.counts_lt.2 (hcfg ▸ hdepth)⟩
      rw [Core.waits_accept he.1.1]
      split
      · next hhas =>
        exact hs.lt_of_room (b := (s.named pre).book) hcfg (s.named_frame pre).1 hroom rfl hhas
      · rw [add_zero]
        exact hq
    by_cases hretry : ∃ rec r, m = .retry rec r
    · obtain ⟨rec, r, rfl⟩ := hretry
      obtain ⟨⟨hen, hdoes⟩, hback⟩ := he
      rw [Core.waits_writes .retry hen.1 (by simp)]
      split
      · next hhas =>
        by_cases hqueued : rec.state = .queued
        · simpa [gain, hqueued, RequestRecord.retry] using hq
        have hroom : b = s.book ∧ QueueRoom s rec.spec.tenant := by
          generalize hc : b.core = c at hen hdoes
          cases hdoes with
          | retry hm =>
            obtain ⟨hb, hst, hretry⟩ := hback r rfl
            have hl : rec.live = true := by simp [RequestRecord.live, hen.2.1]
            exact ⟨hb, (hop rec (hm.request ▸ hen.1) ⟨hm, hl⟩).1 ⟨hst, hretry, hen.2.2.2, hqueued⟩⟩
          | recoverRetry hl => exact absurd hl (hno _)
        obtain ⟨rfl, hroom⟩ := hroom
        have hlt := hs.lt_of_room (b := s.book) h.config rfl hroom rfl hhas
        simp only [gain, hqueued, RequestRecord.retry, ↓reduceIte]
        omega
      · rw [add_zero]
        exact hq
    · exact (Core.waits_act_le he.1.1 (fun spec rid h => hacc ⟨spec, rid, h⟩)
        (fun rec r h => hretry ⟨rec, r, h⟩) q).trans hq

/-! ## Losing a worker -/

/-- A round of the recovery adds at most its own request to a queue, and
leaves it to the other rounds which requests come back. -/
theorem recoverRequest_waits (w : WorkerId) (boot : WorkerBootId) (s : Impl) (rid : RequestId) (q : QueueOf) :
    ((Impl.recoverRequest w boot s rid).requests.count q.waits : ℤ) ≤
        s.requests.count q.waits + (if s.comesBack q rid then 1 else 0) ∧
      ∀ id, id ≠ rid → (Impl.recoverRequest w boot s rid).comesBack q id = s.comesBack q id := by
  rcases Impl.recoverRequest_cases w boot s rid with ⟨hs, _⟩ | ⟨rec, m, hf, ht, hcore, hm, _⟩
  · rw [hs]
    refine ⟨?_, fun _ _ => rfl⟩
    split <;> omega
  have hid : rec.requestId = rid := Keyed.key_of_find hf
  have hnow : (s.core.act m).now = s.core.now := by rcases hm with ⟨rfl, _⟩ | rfl <;> rfl
  obtain ⟨_, hothers⟩ := Impl.recover_frame (c := s.core) (hm.imp_left And.left)
  refine ⟨?_, fun id hne => ?_⟩
  · rw [show (Impl.recoverRequest w boot s rid).requests = (s.core.act m).requests from congrArg Core.requests hcore]
    rcases hm with ⟨rfl, hc⟩ | rfl
    · rw [Core.waits_writes .retry (Keyed.find_key hf) (by simp)]
      refine Int.add_le_add_left ?_ _
      simp only [Impl.comesBack, hf, Option.any_some, RequestRecord.comesBack, RequestRecord.live, ht, hc, gain,
        RequestRecord.retry]
      by_cases hq : q.has rec.spec = true <;> by_cases hs : rec.state = .queued <;> simp [hq, hs]
    · have hle : ((s.core.act (.finish rec w (.failed (Impl.restartReport w boot rec)))).requests.count q.waits : ℤ) ≤
          s.requests.count q.waits := by
        rw [Core.waits_writes .finish (Keyed.find_key hf) (by simp)]
        simp only [gain, Ending.close, RequestRecord.fail, reduceCtorEq, ↓reduceIte]
        split
        · split
          · show (s.requests.count q.waits : ℤ) + _ ≤ _
            omega
          · exact le_of_eq (add_zero _)
        · exact le_of_eq (add_zero _)
      split <;> omega
  · have hfind : (Impl.recoverRequest w boot s rid).requests.find id = s.requests.find id :=
      (congrArg (fun c : Core => c.requests.find id) hcore).trans (hothers id (hid ▸ hne))
    have hcfg : (Impl.recoverRequest w boot s rid).cfg = s.cfg :=
      (congrArg Core.cfg hcore).trans (Core.act_cfg s.core m)
    have hnow : (Impl.recoverRequest w boot s rid).now = s.now := (congrArg Core.now hcore).trans hnow
    simp only [Impl.comesBack, hfind, hcfg, hnow]

theorem foldl_recover_waits (w : WorkerId) (boot : WorkerBootId) (q : QueueOf) : ∀ (l : List RequestId) (s : Impl),
    l.Nodup → ((l.foldl (Impl.recoverRequest w boot) s).requests.count q.waits : ℤ) ≤
      s.requests.count q.waits + l.countP (s.comesBack q)
  | [], _, _ => by simp
  | a :: l, s, hn => by
    obtain ⟨ha, hn⟩ := List.nodup_cons.1 hn
    obtain ⟨hround, hkeep⟩ := recoverRequest_waits w boot s a q
    have hrest := foldl_recover_waits w boot q l (Impl.recoverRequest w boot s a) hn
    have hcount : l.countP ((Impl.recoverRequest w boot s a).comesBack q) = l.countP (s.comesBack q) := by
      refine List.countP_congr fun id hid => ?_
      rw [hkeep id (by rintro rfl; exact ha hid)]
    rw [List.foldl_cons, List.countP_cons, ← hcount]
    push_cast
    linarith

theorem Bounded.loss {cfg : SchedulerConfig} {s : Impl} {op : Op} {w : WorkerId} (h : Bounded cfg s.book)
    (hs : Counted s.book) (hl : Loses s op w) (hroom : LossRoom s w) : Bounded cfg (scheduler.next s op).book := by
  refine ⟨?_, fun q => ?_⟩
  · exact posts_invariant (I := fun b => b.core.cfg = cfg) (fun b e _ hb => (b.act_cfg e).trans hb) h.config
  cases hf : s.pool.workers.find w with
  | none =>
    rw [next_of_loses_unknown hl hf]
    exact h.le q
  | some wr =>
    have hn : (Impl.inFlightIds wr).Nodup := (List.perm_insertionSort _ _).nodup_iff.2 wr.inFlight.keys_nodup
    have hfold := foldl_recover_waits w wr.registration.bootId q (Impl.inFlightIds wr) s hn
    rw [← requests_of_loses hl hf] at hfold
    by_cases hback : ∃ rid ∈ Impl.inFlightIds wr, s.comesBack q rid = true
    · obtain ⟨rid, hmem, hrid⟩ := hback
      obtain ⟨rec, hrec, hcb⟩ := (Option.any_eq_true _ _).1 hrid
      simp only [Bool.and_eq_true] at hcb
      have hcover : (s.requests.count q.waits : ℤ) ≤ q.counter s.book := hs.covers q
      have hcfg : s.cfg = cfg := h.config
      obtain ⟨hall, hten⟩ := hroom wr hf rid hmem rec hrec hcb.2
      refine hfold.trans ((Int.add_le_add_right hcover _).trans ?_)
      cases q with
      | all => exact hcfg ▸ hall
      | tenant t =>
        obtain rfl : rec.spec.tenant = t := by simpa [QueueOf.has] using hcb.1
        exact hcfg ▸ hten
    · have hzero : (Impl.inFlightIds wr).countP (s.comesBack q) = 0 := by
        refine List.countP_eq_zero.2 fun rid hmem hrid => hback ⟨rid, hmem, hrid⟩
      rw [hzero, Nat.cast_zero, add_zero] at hfold
      exact hfold.trans (h.le q)

theorem step_bounded {cfg : SchedulerConfig} {s : Impl} {op : Op} (h : Bounded cfg s.book) (hs : Counted s.book)
    (hdepth : 1 ≤ cfg.admission.defaultTenantQueueDepth) (hfresh : FreshSubmit s op) (hop : QueueSafe s op) :
    Bounded cfg (scheduler.next s op).book := by
  by_cases hlost : ∃ w, Loses s op w
  · obtain ⟨w, hl⟩ := hlost
    refine h.loss hs hl ?_
    cases hl with
    | unregister => exact hop
    | restart reg hb => exact hop hb
  · have hno : ∀ w, ¬Loses s op w := fun w hw => hlost ⟨w, hw⟩
    exact posts_invariant (fun _ _ he hb => hb.act hs hdepth hfresh hop hno he) h

/-- **Queues are bounded.** In a run where what comes back to the queue finds
room, and no cancellation on a worker counts out a request that waits, the
queues stay within their limits. -/
theorem queues_bounded {cfg : SchedulerConfig} {now : ClockTime} {salt : UInt64} {epoch : Option SchedulerEpoch}
    {ops : List Op} (hglobal : 1 ≤ cfg.admission.maxGlobalQueued)
    (hdepth : 1 ≤ cfg.admission.defaultTenantQueueDepth)
    (hok : scheduler.Allowed (fun s op => FreshSubmit s op ∧ QueueSafe s op) (Impl.init cfg now salt epoch) ops) :
    ((scheduler.run (Impl.init cfg now salt epoch) ops).requests.count (fun rec => rec.state == .queued) : ℤ) ≤
        cfg.admission.maxGlobalQueued ∧
      ∀ t, ((scheduler.run (Impl.init cfg now salt epoch) ops).requests.count (RequestRecord.inState .queued t) : ℤ) ≤
        cfg.admission.defaultTenantQueueDepth := by
  have hcounted : Counted (Impl.init cfg now salt epoch).book := by
    refine ⟨fun q => ?_, ?_, ?_⟩
    · cases q <;> exact le_refl _
    · simp [Staged, Impl.book, Impl.core, Impl.init]
    · simp [QueuedOff, Impl.book, Impl.core, Impl.init]
  have hbounded : Bounded cfg (Impl.init cfg now salt epoch).book := by
    refine ⟨rfl, fun q => ?_⟩
    cases q with
    | all => exact le_trans (show (0 : ℤ) ≤ 1 by decide) hglobal
    | tenant t => exact le_trans (show (0 : ℤ) ≤ 1 by decide) hdepth
  have h := run_invariant (I := fun s => Counted s.book ∧ Bounded cfg s.book)
    (fun s op hop hs => ⟨posts_invariant (fun _ _ he hb => hb.act hop.1 hop.2 he) hs.1,
      step_bounded hs.2 hs.1 hdepth hop.1 hop.2⟩) ⟨hcounted, hbounded⟩ hok
  exact ⟨h.2.le .all, fun t => h.2.le (.tenant t)⟩

/-- A queue of one: the request that fails is queued again before the next one
is submitted. -/
theorem queues_bounded_retried :
    let cfg : SchedulerConfig := { admission := { maxGlobalQueued := 1 } }
    let s := scheduler.run (Impl.init cfg 0 0x80000001 none) [.registerWorker (plainWorker 3),
      .submit plainSpec (some ⟨7⟩), .planDispatch ⟨7⟩ false, .confirmStart (firstReport 3 .failed),
      .complete (firstReport 3 .failed), .submit plainSpec (some ⟨8⟩)]
    (s.requests.count (fun rec => rec.state == .queued) : ℤ) ≤ cfg.admission.maxGlobalQueued ∧
      ∀ t, (s.requests.count (RequestRecord.inState .queued t) : ℤ) ≤ cfg.admission.defaultTenantQueueDepth := by
  intro cfg s
  exact queues_bounded (by decide) (by decide) (by decide +kernel)

/-- A queue of one, with the next request submitted before the one that runs
fails. -/
theorem queue_overfilled :
    let cfg : SchedulerConfig := { admission := { maxGlobalQueued := 1 } }
    let ops : List Op := [.registerWorker (plainWorker 3), .submit plainSpec (some ⟨7⟩), .planDispatch ⟨7⟩ false,
      .confirmStart (firstReport 3 .failed), .submit plainSpec (some ⟨8⟩), .complete (firstReport 3 .failed)]
    scheduler.Allowed FreshSubmit (Impl.init cfg 0 0x80000001 none) ops ∧
      1 ≤ cfg.admission.maxGlobalQueued ∧ 1 ≤ cfg.admission.defaultTenantQueueDepth ∧
      cfg.admission.maxGlobalQueued < (scheduler.run (Impl.init cfg 0 0x80000001 none) ops).requests.count
        (fun rec => rec.state == .queued) := by
  decide +kernel

end InferenceScheduler
