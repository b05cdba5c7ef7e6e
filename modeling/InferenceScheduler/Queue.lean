/-
The queue side of the scheduler (`src/scheduler.cpp`, "queue / selection"):
enqueueing and dequeueing, expiry, the fair choice of the next request, and
the forming of a batch around it.
-/
import InferenceScheduler.State

namespace InferenceScheduler

/-- An entry of a weight table. Out of the table's bounds the source has no
value; 0 stands there. -/
def tableAt (l : List ℚ) (i : ℤ) : ℚ := if i < 0 then 0 else l.getD i.toNat 0

/-- `flow_weight`. -/
def flowWeight (cfg : SchedulerConfig) (s : RequestSpec) : ℚ :=
  Impl.tenantWeight cfg s.tenant * tableAt cfg.scheduling.latencyWeight (latencyInt s.latencyClass) *
    tableAt cfg.scheduling.priorityWeight (priorityInt s.priority) *
    tableAt cfg.scheduling.phaseWeight (phaseInt s.phase)

/-- `flow_key`. -/
def flowKey (s : RequestSpec) : FlowKey :=
  { tenant := s.tenant, latency := latencyInt s.latencyClass, phase := phaseInt s.phase,
    priority := priorityInt s.priority }

/-- `compat_key`. -/
def compatKey (cfg : SchedulerConfig) (s : RequestSpec) : CompatKey :=
  { model := s.model.value, revision := s.revision.value,
    adapter := if s.adapter.valid then s.adapter.value else 0,
    phase := if cfg.batch.allowPhaseMix then 256 else phaseInt s.phase,
    latency := latencyInt s.latencyClass }

/-- The heap entry of a request enqueued at `now`. -/
def readyEntry (now : ClockTime) (rec : RequestRecord) : ReadyEntry :=
  { id := rec.requestId, generation := rec.generation, slack := rec.spec.deadline.slack now,
    prio := priorityInt rec.spec.priority, idv := rec.requestId.value }

namespace Ready

/-- The flow of a key, `flows_[k]`. -/
def flow (q : Ready) (k : FlowKey) : Flow := (q.flows.lookup k).getD {}

/-- The bucket of a key, `compat_[k]`. -/
def bucket (q : Ready) (k : CompatKey) : USet RequestId := (q.compat.lookup k).getD ∅

/-- `enqueue_request` on the ready structures: the flow wakes up at the
current virtual time if its heap was empty. -/
def enqueue (q : Ready) (cfg : SchedulerConfig) (now : ClockTime) (rec : RequestRecord) : Ready :=
  let k := flowKey rec.spec
  let f := q.flow k
  let asleep := f.pending.isEmpty
  let f : Flow :=
    { weight := flowWeight cfg rec.spec
      virtualFinish := if asleep then max f.virtualFinish q.virtualTime else f.virtualFinish
      pending := f.pending.push (readyEntry now rec) }
  let ck := compatKey cfg rec.spec
  { q with
    flows := q.flows.insert k f
    activeFlows := if asleep then q.activeFlows.insert k else q.activeFlows
    queued := q.queued.insert rec.requestId
    compat := q.compat.insert ck ((q.bucket ck).insert rec.requestId)
    globalQueued := q.globalQueued + 1 }

/-- A request leaves its compatibility bucket, and an empty bucket goes. -/
def leaveBucket (q : Ready) (ck : CompatKey) (rid : RequestId) : Table CompatKey (USet RequestId) :=
  match q.compat.lookup ck with
  | none => q.compat
  | some b => if (b.erase rid).isEmpty then q.compat.erase ck else q.compat.insert ck (b.erase rid)

/-- `dequeue_request` on the ready structures. The heap entry stays, to be
dropped when it comes to the top. -/
def dequeue (q : Ready) (cfg : SchedulerConfig) (rec : RequestRecord) : Ready :=
  { q with
    queued := q.queued.erase rec.requestId
    globalQueued := if rec.requestId ∈ q.queued then q.globalQueued - 1 else q.globalQueued
    compat := q.leaveBucket (compatKey cfg rec.spec) rec.requestId }

/-- `account_flow`. -/
def accountFlow (q : Ready) (spec : RequestSpec) (cost : ℚ) : Ready :=
  let f := q.flow (flowKey spec)
  let w := if f.weight > 0 then f.weight else 1
  let f := { f with virtualFinish := f.virtualFinish + cost / w }
  { q with flows := q.flows.insert (flowKey spec) f, virtualTime := max q.virtualTime f.virtualFinish }

end Ready

/-- The record of an expired request. -/
def RequestRecord.expire (rec : RequestRecord) : RequestRecord :=
  { rec with
    state := .expired
    terminalReason := "deadline_expired"
    history := onLast (fun a => { a with state := .expired }) rec.history }

namespace Impl

/-- `enqueue_request`. -/
def enqueueRequest (s : Impl) (rec : RequestRecord) : Impl :=
  let s := { s with ready := s.ready.enqueue s.cfg s.now rec }
  let s := s.put { rec with state := .queued, queuedAt := s.now }
  s.onTenant rec.spec.tenant fun t => { t with queued := t.queued + 1 }

/-- `dequeue_request`. -/
def dequeueRequest (s : Impl) (rec : RequestRecord) : Impl :=
  let s := { s with ready := s.ready.dequeue s.cfg rec }
  s.onTenantIfAny rec.spec.tenant fun t => { t with queued := decPos t.queued }

/-- `expire_request`. -/
def expireRequest (s : Impl) (rec : RequestRecord) : Impl :=
  if rec.state ≠ .queued then s
  else
    let s := s.dequeueRequest rec
    let s := s.put rec.expire
    let s := { s with globalAdmitted := decPos s.globalAdmitted }
    let s := s.onTenant rec.spec.tenant fun t => { t with admitted := decPos t.admitted }
    let s := { s with stats := { s.stats with requestsExpired := s.stats.requestsExpired + 1 } }
    if s.cfg.batch.maxWait ≥ 0 ∧ rec.spec.deadline.valid then
      s.emitEvent "expired" rec.requestId rec.currentAttempt .invalid .invalid "deadline_expired"
    else s

/-- `expire_request` on the record found under `id`. -/
def expireId (s : Impl) (id : RequestId) : Impl :=
  match s.requests.find id with
  | none => s
  | some rec => s.expireRequest rec

/-- A request the expiry scan collects. -/
def overdue (s : Impl) (now : ClockTime) (id : RequestId) : Bool :=
  match s.requests.find id with
  | none => false
  | some rec => rec.state == .queued && rec.spec.deadline.valid && rec.spec.deadline.expired now

/-- `expire_scan`. -/
def expireScan (s : Impl) (now : ClockTime) : Impl :=
  (s.ready.queued.elems.filter (s.overdue now)).foldl expireId s

/-- `effective_finish`. -/
def effectiveFinish (cfg : SchedulerConfig) (f : Flow) (r : RequestRecord) (now : ClockTime) : ℚ :=
  let v := f.virtualFinish
  if cfg.scheduling.deadlineBoostEnabled then
    let slack := if r.spec.deadline.valid then r.spec.deadline.remaining now else -1
    if slack ≥ 0 ∧ slack ≤ cfg.scheduling.deadlineBoostThresholdMs then v / cfg.scheduling.deadlineBoostMax else v
  else v

/-- The inner loop of `pick_seed` over a flow's heap: dead entries are popped
and overdue requests expired until a live entry is on top. Answers how many
entries were popped. -/
def popDead (now : ClockTime) : List ReadyEntry → Impl → ℕ × Impl
  | [], s => (0, s)
  | e :: es, s =>
    match s.requests.find e.id with
    | none => let p := popDead now es s; (p.1 + 1, p.2)
    | some r =>
      if e.id ∉ s.ready.queued ∨ r.generation ≠ e.generation then
        let p := popDead now es s; (p.1 + 1, p.2)
      else if r.spec.deadline.valid && r.spec.deadline.expired now then
        let p := popDead now es (s.expireRequest r); (p.1 + 1, p.2)
      else (0, s)

/-- Store a flow under its key. -/
def setFlow (s : Impl) (k : FlowKey) (f : Flow) : Impl :=
  { s with ready := { s.ready with flows := s.ready.flows.insert k f } }

/-- Take a drained flow out of the active set. -/
def deactivate (s : Impl) (k : FlowKey) : Impl :=
  { s with ready := { s.ready with activeFlows := s.ready.activeFlows.erase k } }

/-- One round of the loop of `pick_seed`, at the flow `k`, with the best flow
so far and its effective finish. -/
def pickStep (now : ClockTime) (acc : Impl × Option (FlowKey × ℚ)) (k : FlowKey) : Impl × Option (FlowKey × ℚ) :=
  let f := acc.1.ready.flow k
  let popped := popDead now f.pending.entries acc.1
  let f := { f with pending := f.pending.popN popped.1 }
  let s := popped.2.setFlow k f
  match f.pending.top? with
  | none => (s.deactivate k, acc.2)
  | some top =>
    let eff := effectiveFinish s.cfg f ((s.requests.find top.id).getD {}) now
    match acc.2 with
    | none => (s, some (k, eff))
    | some (best, bf) => if eff < bf ∨ eff = bf ∧ k.lt best then (s, some (k, eff)) else (s, acc.2)

/-- `pick_seed`. -/
def pickSeed (s : Impl) (now : ClockTime) : Impl × Option RequestId :=
  let acc := (s.ready.activeFlows.elems.insertionSort FlowKey.le).foldl (pickStep now) (s, none)
  match acc.2 with
  | none => (acc.1, none)
  | some (best, _) => (acc.1, (acc.1.ready.flow best).pending.top?.map (·.id))

/-! ## Batch formation -/

/-- The spec of a request, `requests_[id].spec`. -/
def specOf (s : Impl) (id : RequestId) : RequestSpec := ((s.requests.find id).getD {}).spec

theorem specOf_of_find {s : Impl} {id : RequestId} {rec : RequestRecord} (hf : s.requests.find id = some rec) :
    s.specOf id = rec.spec := by
  rw [specOf, hf, Option.getD_some]

/-- A request `form_batch` may add to the batch of `seed`. -/
def candidate (s : Impl) (seed : RequestId) (now : ClockTime) (id : RequestId) : Bool :=
  id != seed && decide (id ∈ s.ready.queued) &&
    match s.requests.find id with
    | none => false
    | some c => c.state == .queued && !(c.spec.deadline.valid && c.spec.deadline.expired now)

/-- The order in which `form_batch` sorts candidates. -/
def batchLess (s : Impl) (now : ClockTime) (a b : RequestId) : Bool :=
  let sa := (s.specOf a).deadline.slack now
  let sb := (s.specOf b).deadline.slack now
  if sa ≠ sb then sa < sb
  else
    let pa := priorityInt (s.specOf a).priority
    let pb := priorityInt (s.specOf b).priority
    if pa ≠ pb then pa > pb else a.lt b

/-- The loop of `form_batch` that adds candidates up to the size and token
limits. -/
def fillBatch (s : Impl) (maxb : ℤ) : List RequestId → List RequestId → ℤ → List RequestId
  | [], result, _ => result
  | id :: ids, result, tok =>
    if (result.length : ℤ) ≥ maxb then result
    else if s.cfg.batch.maxTokens > 0 then
      let add := (s.specOf id).tokens.total
      if tok + add > s.cfg.batch.maxTokens then result
      else fillBatch s maxb ids (result ++ [id]) (tok + add)
    else fillBatch s maxb ids (result ++ [id]) tok

/-- The tokens of some requests together. -/
def tokens (s : Impl) (ids : List RequestId) : ℤ := (ids.map fun id => (s.specOf id).tokens.total).sum

section loop

variable (s : Impl)

/-- What the loop asks before it adds `ids` to a batch of `size` members and `tok` tokens. -/
def Room (maxb : ℤ) (size : ℕ) (tok : ℤ) (ids : List RequestId) : Prop :=
  (size : ℤ) + ids.length ≤ maxb ∧ (0 < s.cfg.batch.maxTokens → tok + s.tokens ids ≤ s.cfg.batch.maxTokens)

@[simp] theorem tokens_nil : s.tokens [] = 0 := rfl

@[simp] theorem tokens_cons (id : RequestId) (ids : List RequestId) :
    s.tokens (id :: ids) = (s.specOf id).tokens.total + s.tokens ids := List.sum_cons

theorem room_singleton {maxb : ℤ} {size : ℕ} {tok : ℤ} {id : RequestId} : s.Room maxb size tok [id] ↔
    (size : ℤ) < maxb ∧
      (0 < s.cfg.batch.maxTokens → tok + (s.specOf id).tokens.total ≤ s.cfg.batch.maxTokens) := by
  simp only [Room, List.length_singleton, tokens_cons, tokens_nil, add_zero, Nat.cast_one]
  exact and_congr_left fun _ => Int.add_one_le_iff

theorem fillBatch_room {maxb : ℤ} {result : List RequestId} {tok : ℤ} {id : RequestId}
    (h : s.Room maxb result.length tok [id]) (ids : List RequestId) :
    s.fillBatch maxb (id :: ids) result tok = s.fillBatch maxb ids (result ++ [id])
      (if 0 < s.cfg.batch.maxTokens then tok + (s.specOf id).tokens.total else tok) := by
  obtain ⟨hsize, htok⟩ := s.room_singleton.1 h
  rw [fillBatch, if_neg (not_le.2 hsize)]
  split
  · next hpos => rw [if_neg (not_lt.2 (htok hpos))]
  · rfl

theorem fillBatch_full {maxb : ℤ} {result : List RequestId} {tok : ℤ} {id : RequestId}
    (h : ¬s.Room maxb result.length tok [id]) (ids : List RequestId) :
    s.fillBatch maxb (id :: ids) result tok = result := by
  rw [fillBatch]
  split
  · rfl
  · next hsize =>
    split
    · next hpos =>
      exact if_pos (lt_of_not_ge fun htok => h (s.room_singleton.2 ⟨lt_of_not_ge hsize, fun _ => htok⟩))
    · next hpos => exact absurd (s.room_singleton.2 ⟨lt_of_not_ge hsize, fun hp => absurd hp hpos⟩) h

/-- The loop adds an initial part of the list: every part up to it has room,
and one more has not. -/
theorem fillBatch_take (maxb : ℤ) (ids result : List RequestId) (tok : ℤ) :
    ∃ n ≤ ids.length, s.fillBatch maxb ids result tok = result ++ ids.take n ∧
      (∀ m ≤ n, m ≠ 0 → s.Room maxb result.length tok (ids.take m)) ∧
      (n < ids.length → ¬s.Room maxb result.length tok (ids.take (n + 1))) := by
  induction ids generalizing result tok with
  | nil => exact ⟨0, le_rfl, by simp [fillBatch], by simp, by simp⟩
  | cons id ids ih =>
    by_cases hroom : s.Room maxb result.length tok [id]
    · obtain ⟨n, hn, heq, hup, hstop⟩ := ih (result ++ [id])
        (if 0 < s.cfg.batch.maxTokens then tok + (s.specOf id).tokens.total else tok)
      -- Room for more after `id` is room for `id` and more.
      have hshift : ∀ l, s.Room maxb (result ++ [id]).length
          (if 0 < s.cfg.batch.maxTokens then tok + (s.specOf id).tokens.total else tok) l ↔
          s.Room maxb result.length tok (id :: l) := by
        intro l
        simp only [Room, List.length_append, List.length_cons, List.length_nil, tokens_cons]
        push_cast
        refine and_congr (by omega) (forall_congr' fun hpos => ?_)
        rw [if_pos hpos, add_assoc]
      refine ⟨n + 1, by simpa using hn, ?_, ?_, ?_⟩
      · rw [s.fillBatch_room hroom, heq, List.take_succ_cons, List.append_assoc, List.singleton_append]
      · intro m hm hm0
        obtain ⟨m, rfl⟩ := Nat.exists_eq_succ_of_ne_zero hm0
        rw [List.take_succ_cons]
        by_cases hm1 : m = 0
        · subst hm1
          exact hroom
        · exact (hshift _).1 (hup m (by omega) hm1)
      · intro hlt hnext
        rw [List.take_succ_cons] at hnext
        exact hstop (by simpa using hlt) ((hshift _).2 hnext)
    · refine ⟨0, Nat.zero_le _, ?_, fun m hm hm0 => absurd (Nat.le_zero.1 hm) hm0, fun _ => ?_⟩
      · rw [s.fillBatch_full hroom, List.take_zero, List.append_nil]
      · rw [List.take_succ_cons, List.take_zero]
        exact hroom

end loop

/-- The most members a batch of this seed may have. -/
def batchLimit (cfg : SchedulerConfig) (spec : RequestSpec) : ℤ :=
  let maxb := if spec.maxBatchSize > 0 then spec.maxBatchSize else cfg.batch.maxBatchSize
  if maxb < 1 then 1 else maxb

theorem one_le_batchLimit (cfg : SchedulerConfig) (spec : RequestSpec) : 1 ≤ batchLimit cfg spec := by
  unfold batchLimit
  simp only
  split <;> split <;> omega

/-- The candidates for the batch of a seed, in the order they are tried. -/
def candidates (s : Impl) (seed : RequestId) (spec : RequestSpec) (now : ClockTime) : List RequestId :=
  ((s.ready.bucket (compatKey s.cfg spec)).elems.filter (s.candidate seed now)).insertionSort
    fun a b => s.batchLess now b a = false

/-- `form_batch`. -/
def formBatch (s : Impl) (seed : RequestId) (now : ClockTime) : List RequestId :=
  match s.requests.find seed with
  | none => []
  | some rec =>
    s.fillBatch (batchLimit s.cfg rec.spec) (s.candidates seed rec.spec now) [seed] rec.spec.tokens.total

end Impl

end InferenceScheduler
