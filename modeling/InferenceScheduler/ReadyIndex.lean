/-
The indexes of the queued requests. The queued set, its size, the
compatibility buckets and the flow heaps all say which requests are in state
Queued. Heaps are cleaned late: an entry of a request that left stays until it
comes to the top, so what counts is the entry under the request's current
generation, of which there is exactly one.
-/
import InferenceScheduler.Flight
import InferenceScheduler.Frozen
import InferenceScheduler.Wraparound

namespace InferenceScheduler

open Machine

/-! ## The operations on the ready structures -/

namespace Ready

variable (q : Ready) (cfg : SchedulerConfig) (now : ClockTime) (rec : RequestRecord)

theorem mem_bucket_enqueue (k : CompatKey) (r : RequestId) :
    r ∈ (q.enqueue cfg now rec).bucket k ↔ k = compatKey cfg rec.spec ∧ r = rec.requestId ∨ r ∈ q.bucket k := by
  simp only [bucket, enqueue, Table.lookup_insert_eq]
  by_cases hk : compatKey cfg rec.spec = k
  · subst hk
    simp
  · simp [hk, Ne.symm hk]

theorem nonempty_enqueue (h : ∀ k b, q.compat.lookup k = some b → ∃ r, r ∈ b) (k : CompatKey) (b : USet RequestId)
    (hb : (q.enqueue cfg now rec).compat.lookup k = some b) : ∃ r, r ∈ b := by
  simp only [enqueue, Table.lookup_insert_eq] at hb
  split at hb
  · cases hb
    exact ⟨rec.requestId, by simp⟩
  · exact h k b hb

theorem pending_enqueue (k : FlowKey) : ((q.enqueue cfg now rec).flow k).pending =
    if flowKey rec.spec = k then (q.flow k).pending.push (readyEntry now rec) else (q.flow k).pending := by
  simp only [flow, enqueue, Table.lookup_insert_eq]
  split
  · next hk =>
    subst hk
    rfl
  · rfl

theorem active_enqueue (h : ∀ k, (q.flow k).pending.entries ≠ [] → k ∈ q.activeFlows) (k : FlowKey)
    (hk : ((q.enqueue cfg now rec).flow k).pending.entries ≠ []) : k ∈ (q.enqueue cfg now rec).activeFlows := by
  rw [pending_enqueue] at hk
  simp only [enqueue]
  by_cases he : flowKey rec.spec = k
  · subst he
    split
    · exact USet.mem_insert.2 (.inl rfl)
    · next hne => exact h _ fun hnil => hne (Heap.isEmpty_iff.2 hnil)
  · rw [if_neg he] at hk
    split
    · exact USet.mem_insert.2 (.inr (h k hk))
    · exact h k hk

theorem mem_bucket_dequeue (k : CompatKey) (r : RequestId) : r ∈ (q.dequeue cfg rec).bucket k ↔
    r ∈ q.bucket k ∧ ¬(k = compatKey cfg rec.spec ∧ r = rec.requestId) := by
  simp only [bucket, dequeue, leaveBucket]
  split
  · next hb =>
    constructor
    · intro hr
      refine ⟨hr, ?_⟩
      intro hx
      obtain ⟨rfl, rfl⟩ := hx
      simp [hb] at hr
    · exact And.left
  · next b hb =>
    by_cases hk : compatKey cfg rec.spec = k
    · subst hk
      split
      · next hempty =>
        have hnone := USet.isEmpty_iff.1 hempty r
        rw [USet.mem_erase] at hnone
        simp only [Table.lookup_erase_eq, hb, ↓reduceIte, Option.getD_none, Option.getD_some]
        constructor
        · exact fun hr => absurd hr (USet.notMem_empty r)
        · intro hx
          obtain ⟨hr, hne⟩ := hx
          exact absurd ⟨fun he => hne ⟨trivial, he⟩, hr⟩ hnone
      · simp only [Table.lookup_insert_eq, hb, ↓reduceIte, Option.getD_some, USet.mem_erase]
        tauto
    · have hne : ¬(k = compatKey cfg rec.spec ∧ r = rec.requestId) := fun h => hk h.1.symm
      split
      · simp only [Table.lookup_erase_eq, if_neg hk]
        tauto
      · simp only [Table.lookup_insert_eq, if_neg hk]
        tauto

theorem nonempty_dequeue (h : ∀ k b, q.compat.lookup k = some b → ∃ r, r ∈ b) (k : CompatKey) (b : USet RequestId)
    (hb : (q.dequeue cfg rec).compat.lookup k = some b) : ∃ r, r ∈ b := by
  simp only [dequeue, leaveBucket] at hb
  split at hb
  · exact h k b hb
  · next b₀ hb₀ =>
    split at hb
    · rw [Table.lookup_erase_eq] at hb
      split at hb
      · cases hb
      · exact h k b hb
    · next hempty =>
      rw [Table.lookup_insert_eq] at hb
      split at hb
      · cases hb
        by_contra hno
        exact hempty (USet.isEmpty_iff.2 fun r hr => hno ⟨r, hr⟩)
      · exact h k b hb

theorem pending_accountFlow (spec : RequestSpec) (cost : ℚ) (k : FlowKey) :
    ((q.accountFlow spec cost).flow k).pending = (q.flow k).pending := by
  simp only [flow, accountFlow, Table.lookup_insert_eq]
  split
  · next hk =>
    subst hk
    rfl
  · rfl

end Ready

/-! ## The indexes agree -/

/-- A request waits in the queue. -/
def Core.Waits (c : Core) (r : RequestId) (rec : RequestRecord) : Prop :=
  c.requests.find r = some rec ∧ rec.state = .queued

/-- The heap entries of a request's current generation, in its flow. -/
def Core.liveEntries (c : Core) (rec : RequestRecord) : ℕ :=
  (c.ready.flow (flowKey rec.spec)).pending.entries.countP fun e =>
    e.id == rec.requestId && e.generation == rec.generation

/-- The ready structures index exactly the requests that wait. -/
structure Indexed (c : Core) : Prop where
  queued : ∀ r, r ∈ c.ready.queued ↔ ∃ rec, c.Waits r rec
  size : c.ready.globalQueued = c.ready.queued.size
  compat : ∀ k r, r ∈ c.ready.bucket k ↔ ∃ rec, c.Waits r rec ∧ compatKey c.cfg rec.spec = k
  nonempty : ∀ k b, c.ready.compat.lookup k = some b → ∃ r, r ∈ b
  entry : ∀ r rec, c.Waits r rec → c.liveEntries rec = 1
  active : ∀ k, (c.ready.flow k).pending.entries ≠ [] → k ∈ c.ready.activeFlows

/-- The entries of a request after one is pushed. -/
theorem Core.liveEntries_enqueue (c : Core) (new rec : RequestRecord) :
    (c.enqueue new).liveEntries rec = c.liveEntries rec +
      if flowKey new.spec = flowKey rec.spec ∧ new.requestId = rec.requestId ∧ new.generation = rec.generation
      then 1 else 0 := by
  unfold liveEntries
  rw [show (c.enqueue new).ready = c.ready.enqueue c.cfg c.now new from rfl, Ready.pending_enqueue]
  by_cases hk : flowKey new.spec = flowKey rec.spec
  · rw [if_pos hk, Heap.countP_push]
    simp [hk, readyEntry]
  · simp [hk]

/-- Who waits after a record is written that does not. -/
theorem Core.waits_put {c : Core} {fin : RequestRecord} (hs : fin.state ≠ .queued) (r : RequestId)
    (rec : RequestRecord) : (c.put fin).Waits r rec ↔ r ≠ fin.requestId ∧ c.Waits r rec := by
  simp only [Waits, put, Keyed.find_put]
  by_cases hr : fin.requestId = r
  · subst hr
    simp only [↓reduceIte, Option.some.injEq, ne_eq, not_true_eq_false, false_and, iff_false, not_and]
    intro heq
    subst heq
    exact hs
  · simp [hr, Ne.symm hr]

theorem Core.waits_enqueue (c : Core) (new : RequestRecord) (r : RequestId) (rec : RequestRecord) :
    (c.enqueue new).Waits r rec ↔
      r = new.requestId ∧ rec = { new with state := .queued, queuedAt := c.now } ∨
        r ≠ new.requestId ∧ c.Waits r rec := by
  simp only [Waits, enqueue, Keyed.find_put]
  by_cases hr : new.requestId = r
  · subst hr
    simp only [↓reduceIte, Option.some.injEq, ne_eq, not_true_eq_false, false_and, or_false, true_and]
    constructor
    · intro hx
      obtain ⟨rfl, _⟩ := hx
      rfl
    · intro heq
      subst heq
      exact ⟨rfl, rfl⟩
  · simp [hr, Ne.symm hr]

/-- The flows after entries are popped. -/
theorem Core.flow_pop (c : Core) (k : FlowKey) (n : ℕ) (k' : FlowKey) : (c.act (.pop k n)).ready.flow k' =
    if k = k' then { c.ready.flow k' with pending := (c.ready.flow k').pending.popN n } else c.ready.flow k' := by
  simp only [act, Ready.flow, Table.lookup_insert_eq]
  split
  · next hk =>
    subst hk
    rfl
  · rfl

namespace Indexed

variable {c : Core}

/-- `entry`, as a check on one request. -/
theorem any_live {s : Impl} (h : Indexed s.core) (r : RequestId) :
    (s.requests.find r).any (fun rec => rec.state == .queued && s.core.liveEntries rec != 1) = false := by
  cases hf : s.requests.find r with
  | none => rfl
  | some rec =>
    have hentry := h.entry r rec
    simp only [Option.any_some, Bool.and_eq_false_iff, beq_eq_false_iff_ne, bne_eq_false_iff_eq]
    by_cases hs : rec.state = .queued
    · exact .inr (hentry ⟨hf, hs⟩)
    · exact .inl hs

/-- The indexes depend on the requests and the ready structures only. -/
theorem frame {c' : Core} (h : Indexed c) (hcfg : c'.cfg = c.cfg) (hreq : c'.requests = c.requests)
    (hready : c'.ready = c.ready) : Indexed c' := by
  obtain ⟨cfg, now, ids, requests, ready, pool⟩ := c'
  obtain rfl : cfg = c.cfg := hcfg
  obtain rfl : requests = c.requests := hreq
  obtain rfl : ready = c.ready := hready
  exact ⟨h.queued, h.size, h.compat, h.nonempty, h.entry, h.active⟩

/-- A record is written that does not wait, over none that does. -/
theorem put (h : Indexed c) (fin : RequestRecord) (hold : ∀ rec, ¬c.Waits fin.requestId rec)
    (hs : fin.state ≠ .queued) : Indexed (c.put fin) := by
  have hw : ∀ r rec, (c.put fin).Waits r rec ↔ c.Waits r rec := by
    intro r rec
    rw [Core.waits_put hs]
    refine ⟨And.right, fun h => ⟨?_, h⟩⟩
    intro heq
    subst heq
    exact hold rec h
  refine ⟨fun r => ?_, h.size, fun k r => ?_, h.nonempty, fun r rec hr => ?_, h.active⟩
  · simp only [hw]
    exact h.queued r
  · simp only [hw]
    exact h.compat k r
  · exact h.entry r rec ((hw r rec).1 hr)

/-- A stored request leaves the queue, if it is there. -/
theorem dequeue {rec : RequestRecord} (h : Indexed c) (hf : c.Holds rec) (out fin : RequestRecord)
    (hspec : out.spec = rec.spec) (hid : out.requestId = rec.requestId) (hfin : fin.requestId = rec.requestId)
    (hs : fin.state ≠ .queued) : Indexed ({ c with ready := c.ready.dequeue c.cfg out }.put fin) := by
  have hw := fun r rec' => Core.waits_put (c := { c with ready := c.ready.dequeue c.cfg out }) hs r rec'
  rw [hfin] at hw
  refine ⟨fun r => ?_, ?_, fun k r => ?_, c.ready.nonempty_dequeue c.cfg out h.nonempty, fun r rec' hr => ?_,
    h.active⟩
  · simp only [hw, exists_and_left]
    simp only [Core.put, Ready.dequeue, USet.mem_erase, hid, h.queued]
    rfl
  · simp only [Core.put, Ready.dequeue, h.size]
    split
    · next hmem =>
      have := USet.size_erase hmem
      omega
    · next hmem => rw [USet.erase_of_notMem hmem]
  · -- A request waits in one bucket only, that of its own key.
    simp only [hw]
    refine (c.ready.mem_bucket_dequeue c.cfg out k r).trans ?_
    rw [h.compat, hspec, hid]
    constructor
    · intro hx
      obtain ⟨⟨rec', hr, hk⟩, hne⟩ := hx
      refine ⟨rec', ⟨?_, hr⟩, hk⟩
      intro heq
      subst heq
      obtain rfl : rec = rec' := Option.some.inj (hf.symm.trans hr.1)
      exact hne ⟨hk.symm, rfl⟩
    · intro hx
      obtain ⟨rec', ⟨hne, hr⟩, hk⟩ := hx
      exact ⟨⟨rec', hr, hk⟩, fun he => hne he.2⟩
  · exact h.entry r rec' ((hw r rec').1 hr).2

/-- A request that does not wait enters the queue, under a generation no heap
entry has. -/
theorem enqueue (h : Indexed c) (new : RequestRecord) (hold : ∀ rec, ¬c.Waits new.requestId rec)
    (hgen : ∀ e ∈ (c.ready.flow (flowKey new.spec)).pending.entries, e.generation ≠ new.generation) :
    Indexed (c.enqueue new) := by
  have hnot : new.requestId ∉ c.ready.queued := fun hmem => by
    obtain ⟨rec, hr⟩ := (h.queued _).1 hmem
    exact hold rec hr
  have hkeep : ∀ {r rec}, c.Waits r rec → r ≠ new.requestId := by
    intro r rec hr heq
    subst heq
    exact hold rec hr
  refine ⟨fun r => ?_, ?_, fun k r => ?_, c.ready.nonempty_enqueue c.cfg c.now new h.nonempty, fun r rec hr => ?_,
    c.ready.active_enqueue c.cfg c.now new h.active⟩
  · simp only [Core.waits_enqueue]
    refine USet.mem_insert.trans ?_
    rw [h.queued]
    constructor
    · intro hx
      rcases hx with rfl | ⟨rec, hr⟩
      · exact ⟨_, .inl ⟨rfl, rfl⟩⟩
      · exact ⟨rec, .inr ⟨hkeep hr, hr⟩⟩
    · intro hx
      obtain ⟨rec, ⟨rfl, _⟩ | ⟨_, hr⟩⟩ := hx
      · exact .inl rfl
      · exact .inr ⟨rec, hr⟩
  · have := USet.size_insert hnot
    simp only [Core.enqueue, Ready.enqueue, h.size, this]
    omega
  · simp only [Core.waits_enqueue]
    refine (c.ready.mem_bucket_enqueue c.cfg c.now new k r).trans ?_
    rw [h.compat]
    constructor
    · intro hx
      rcases hx with ⟨rfl, rfl⟩ | ⟨rec, hr, hk⟩
      · exact ⟨_, .inl ⟨rfl, rfl⟩, rfl⟩
      · exact ⟨rec, .inr ⟨hkeep hr, hr⟩, hk⟩
    · intro hx
      obtain ⟨rec, ⟨rfl, rfl⟩ | ⟨_, hr⟩, hk⟩ := hx
      · exact .inl ⟨hk.symm, rfl⟩
      · exact .inr ⟨rec, hr, hk⟩
  · rw [Core.liveEntries_enqueue]
    rcases (c.waits_enqueue new r rec).1 hr with ⟨_, rfl⟩ | ⟨hne, hr⟩
    · have hzero : c.liveEntries { new with state := .queued, queuedAt := c.now } = 0 := by
        refine List.countP_eq_zero.2 fun e he => ?_
        simp [hgen e he]
      simp [hzero]
    · have hid : rec.requestId = r := Keyed.key_of_find hr.1
      rw [h.entry r rec hr, hid, if_neg fun he => hne he.2.1.symm]

/-- Accounting moves a flow's virtual finish only. -/
theorem account (h : Indexed c) (spec : RequestSpec) (cost : ℚ) :
    Indexed { c with ready := c.ready.accountFlow spec cost } := by
  refine ⟨h.queued, h.size, h.compat, h.nonempty, fun r rec hr => ?_, fun k hk => ?_⟩
  · rw [← h.entry r rec hr]
    simp only [Core.liveEntries, Ready.pending_accountFlow]
  · rw [Ready.pending_accountFlow] at hk
    exact h.active k hk

theorem reserveMember (h : Indexed c) (bid : BatchId) (id : RequestId) : Indexed (c.reserveMember bid id) := by
  unfold Core.reserveMember
  split
  · exact h
  · next m hf =>
    have hdeq := h.dequeue (Keyed.find_key hf) m (m.reserve bid c.now) rfl rfl rfl (by simp [RequestRecord.reserve])
    exact hdeq.account _ _

theorem foldl_reserveMember (bid : BatchId) : ∀ (ids : List RequestId) {c : Core}, Indexed c →
    Indexed (ids.foldl (Core.reserveMember bid) c)
  | [], _, h => h
  | id :: ids, _, h => foldl_reserveMember bid ids (h.reserveMember bid id)

/-- The entries popped belong to no request that waits. -/
theorem pop {k : FlowKey} {n : ℕ} (h : Indexed c)
    (hdead : ∀ e ∈ (c.ready.flow k).pending.entries.take n, c.Dead e) : Indexed (c.act (.pop k n)) := by
  have hpending : ∀ k', ((c.act (.pop k n)).ready.flow k').pending.entries =
      if k = k' then (c.ready.flow k').pending.entries.drop n else (c.ready.flow k').pending.entries := by
    intro k'
    rw [Core.flow_pop]
    split <;> rfl
  refine ⟨h.queued, h.size, h.compat, h.nonempty, fun r rec hr => ?_, fun k' hk' => ?_⟩
  · rw [← h.entry r rec hr]
    simp only [Core.liveEntries, hpending]
    split
    · next hk =>
      subst hk
      refine Heap.countP_drop fun e he => ?_
      by_contra hlive
      simp only [Bool.not_eq_false, Bool.and_eq_true, beq_iff_eq] at hlive
      have hid : e.id = r := hlive.1.trans (Keyed.key_of_find hr.1)
      -- An entry of the current generation of a waiting request is not dead.
      rcases hdead e he rec (hid ▸ hr.1) with hq | hg | hs
      · exact hq (hid ▸ (h.queued r).2 ⟨rec, hr⟩)
      · exact hg hlive.2.symm
      · exact hs hr.2
    · rfl
  · rw [hpending] at hk'
    split at hk'
    · next hk =>
      refine h.active k' fun hnil => hk' ?_
      rw [hnil, List.drop_nil]
    · exact h.active k' hk'

theorem sleep {k : FlowKey} (h : Indexed c) (hk : (c.ready.flow k).pending.entries = []) :
    Indexed (c.act (.sleep k)) := by
  refine ⟨h.queued, h.size, h.compat, h.nonempty, h.entry, fun k' hk' => ?_⟩
  refine USet.mem_erase.2 ⟨?_, h.active k' hk'⟩
  intro heq
  subst heq
  exact hk' hk

end Indexed

/-- Reserving requests leaves their heap entries. -/
theorem Core.pending_foldl_reserveMember (bid : BatchId) (k : FlowKey) : ∀ (ids : List RequestId) (c : Core),
    ((ids.foldl (reserveMember bid) c).ready.flow k).pending = (c.ready.flow k).pending
  | [], _ => rfl
  | id :: ids, c => by
    rw [List.foldl_cons, pending_foldl_reserveMember bid k ids]
    unfold reserveMember
    split
    · rfl
    · exact Ready.pending_accountFlow _ _ _ _

/-- The generations of the heap entries have been drawn. -/
def Drawn (c : Core) : Prop := ∀ k, ∀ e ∈ (c.ready.flow k).pending.entries, c.ids.Issued e.generation

namespace Drawn

variable {c : Core}

/-- An entry is pushed under the next id. -/
theorem enqueue (h : Drawn c) (c' : Core) (new : RequestRecord) (hgen : new.generation = c.ids.peek)
    (hc : c'.ready = c.ready.enqueue c'.cfg c'.now new) (hids : c'.ids.Extends c.ids.tick) : Drawn c' := by
  intro k e he
  rw [hc, Ready.pending_enqueue] at he
  have hext := hids.trans c.ids.extends_tick
  split at he
  · rcases Heap.mem_push.1 he with rfl | he
    · exact (hgen ▸ c.ids.issued_peek).of_extends hids
    · exact (h k e he).of_extends hext
  · exact (h k e he).of_extends hext

theorem act (h : Drawn c) (m : Move) : Drawn (c.act m) := by
  have hext := c.act_ids_extends m
  have hkeep : (∀ k, ∀ e ∈ ((c.act m).ready.flow k).pending.entries, e ∈ (c.ready.flow k).pending.entries) →
      Drawn (c.act m) := fun hsub k e he => (h k e (hsub k e he)).of_extends hext
  cases m with
  | accept spec rid =>
    exact h.enqueue _ (Impl.admittedRecord spec rid c.ids.peek c.ids.tick.peek c.now) rfl rfl c.ids.tick.extends_tick
  | retry rec r =>
    exact h.enqueue _ ((c.pool.released r.worker (rec.noteFailure r)).retry c.ids.peek c.ids.tick.peek c.now) rfl rfl
      c.ids.tick.extends_tick
  | pop k' n =>
    refine hkeep fun k e he => ?_
    rw [Core.flow_pop] at he
    split at he
    · exact List.mem_of_mem_drop he
    · exact he
  | reserve wr members =>
    refine hkeep fun k e he => ?_
    simp only [Core.act, Core.pending_foldl_reserveMember] at he
    exact he
  | _ => exact hkeep fun k e he => he

end Drawn

/-- A move that ends or retries an attempt finds its request out of the
queue. -/
def Unqueued : Move → Prop
  | .finish rec _ _ | .retry rec _ => rec.state ≠ .queued
  | _ => True

theorem Indexed.act {c : Core} {m : Move} (h : Indexed c) (hd : Drawn c) (hen : Enabled c m) (hm : Unqueued m)
    (hids : (c.act m).ids.Distinct) : Indexed (c.act m) := by
  have hframe : ∀ ids pool, Indexed { c with ids := ids, pool := pool } := fun ids pool => h.frame rfl rfl rfl
  -- The record stored does not wait, so none does under its id.
  have hout : ∀ {rec fin : RequestRecord}, c.Holds rec → rec.state ≠ .queued → fin.requestId = rec.requestId →
      ∀ rec', ¬c.Waits fin.requestId rec' := by
    intro rec fin hf hs hid rec' hr
    rw [hid] at hr
    obtain rfl : rec = rec' := Option.some.inj (hf.symm.trans hr.1)
    exact hs hr.2
  have hnone : ∀ {r : RequestId}, c.requests.find r = none → ∀ rec', ¬c.Waits r rec' := by
    intro r hf rec' hr
    exact absurd (hf.symm.trans hr.1) (by simp)
  have hfresh : c.ids.tick.tick.Distinct → ∀ k, ∀ e ∈ (c.ready.flow k).pending.entries,
      e.generation ≠ c.ids.peek :=
    fun hdist k e he =>
      (IdFactory.peek_ne_of_issued (hdist.of_extends c.ids.tick.extends_tick) (hd k e he)).symm
  cases m with
  | advance | draw | sweep | setWorker | dropWorker => exact h.frame rfl rfl rfl
  | refuse rec =>
    refine h.put rec (hnone hen.1) fun hs => ?_
    have := hen.2.1
    rw [hs] at this
    cases this
  | accept spec rid =>
    exact (hframe c.ids.tick.tick c.pool).enqueue
      (Impl.admittedRecord spec rid c.ids.peek c.ids.tick.peek c.now) (hnone hen) (hfresh hids _)
  | expire rec => exact h.dequeue hen.1 rec rec.expire rfl rfl rfl (by simp [RequestRecord.expire])
  | pop k n => exact h.pop hen
  | sleep k => exact h.sleep hen
  | reserve wr members => exact foldl_reserveMember _ _ (hframe _ _)
  | start rec wr snap =>
    have hs : rec.state ≠ .queued := by simp [hen.2.1]
    exact (hframe c.ids (c.pool.start wr rec.batchId rec.requestId rec.currentAttempt snap)).put
      (rec.start wr.id c.now) (hout hen.1 hs rfl) (by simp [RequestRecord.start])
  | finish rec w e =>
    have hid : (e.close (c.pool.released w (e.note c.now rec))).requestId = rec.requestId := by
      rw [Ending.close_requestId, Pool.released_requestId, Ending.note_requestId]
    refine (hframe c.ids (c.pool.releaseMember w rec)).put _ (hout hen.1 hm hid) ?_
    cases e with
    | success => simp [Ending.close, Ending.note, RequestRecord.succeed]
    | failed => simp [Ending.close, RequestRecord.fail]
    | expired => simp [Ending.close]
    | stale => simpa [Ending.close, Ending.note, RequestRecord.noteStale, Unqueued] using hm
  | cancel rec asked w reason =>
    have hid := c.unworked_requestId w { rec with cancelReason := asked }
    have hspec : (c.unworked w { rec with cancelReason := asked }).spec = rec.spec := by
      rcases c.unworked_cases w { rec with cancelReason := asked } with he | he <;> rw [he]
    exact (hframe c.ids (if rec.onWorker then c.pool.releaseMember w rec else c.pool)).dequeue hen.1
      (c.unworked w { rec with cancelReason := asked })
      ((c.unworked w { rec with cancelReason := asked }).cancel reason) hspec hid hid (by simp [RequestRecord.cancel])
  | flag rec asked =>
    have hs : rec.state ≠ .queued := by rcases hen.2 with hs | hs <;> simp [hs]
    exact h.put { rec with cancelReason := asked, cancellationRequested := true } (hout hen.1 hs rfl) hs
  | retry rec r =>
    exact (hframe c.ids.tick.tick (c.pool.releaseMember r.worker rec)).enqueue
      ((c.pool.released r.worker (rec.noteFailure r)).retry c.ids.peek c.ids.tick.peek c.now)
      (hout hen.1 hm (c.pool.released_requestId r.worker (rec.noteFailure r))) (hfresh hids _)

/-! ## Runs -/

/-- A completion report is about a request on a worker, and about a running
one it comes from the worker the request runs on. -/
def OnHolder (s : Impl) : Op → Prop
  | .complete r => ∀ rec ∈ s.requests.find r.requestId,
      rec.state = .reserved ∨ rec.state = .running ∧ rec.lastWorker = r.worker
  | _ => True

instance (s : Impl) (op : Op) : Decidable (OnHolder s op) := by
  apply @Op.casesOn _ op <;> (intros; dsimp only [OnHolder]; infer_instance)

/-- A request that recovery finds in flight runs on the lost worker. -/
theorem Flighted.runs {c : Core} {w : WorkerId} {rec : RequestRecord} (h : Flighted c)
    (hx : c.InFlight w rec.requestId) (hf : c.Holds rec) (ht : isTerminal rec.state = false) :
    rec.state = .running ∧ rec.lastWorker = w := by
  obtain ⟨wr, hw, hr⟩ := hx
  obtain ⟨rec', hf', hon⟩ := h.flight w wr hw _ hr
  obtain rfl : rec = rec' := Option.some.inj (hf.symm.trans hf')
  exact hon.resolve_left (by simp [ht])

theorem unqueued_of_onHolder {s : Impl} {op : Op} {c : Core} {m : Move} (hop : OnHolder s op) (hstep : Step s op c m)
    (h : Flighted c) : Unqueued m ∧ FromRunner m := by
  obtain ⟨hen, hdoes⟩ := hstep
  have hreport : ∀ {r : CompletionReport} {rec}, OnHolder s (.complete r) → Matches s r rec → s.core.Holds rec →
      rec.state ≠ .queued ∧ (rec.state = .running → rec.lastWorker = r.worker) := by
    intro r rec hop hm hf
    rcases hop rec (hm.request ▸ hf) with hs | ⟨hs, hl⟩
    · simp [hs]
    · exact ⟨by simp [hs], fun _ => hl⟩
  cases hdoes with
  | finish hm => exact ⟨(hreport hop hm hen.1).1, trivial⟩
  | retry hm => exact hreport hop hm hen.1
  | recoverRetry _ hr =>
    obtain ⟨hs, hl⟩ := h.runs hr hen.1 hen.2.1
    exact ⟨by simp [Unqueued, hs], fun _ => hl⟩
  | recoverFail _ hr => exact ⟨by simp [Unqueued, (h.runs hr hen.1 hen.2.1).1], trivial⟩
  | _ => exact ⟨trivial, trivial⟩

/-- **No queued request is lost.** In a run whose completion reports are about
requests on the reporting worker, under a factory that draws no id twice, the
ready structures index exactly the queued requests. -/
theorem ready_indexed {cfg : SchedulerConfig} {now : ClockTime} {salt : UInt64} {epoch : Option SchedulerEpoch}
    {ops : List Op}
    (hok : scheduler.Allowed (fun s op => FreshSubmit s op ∧ OnHolder s op) (Impl.init cfg now salt epoch) ops)
    (hids : (scheduler.run (Impl.init cfg now salt epoch) ops).idFactory.Distinct) :
    Indexed (scheduler.run (Impl.init cfg now salt epoch) ops).core := by
  have h := scheduler_invariant (I := fun c => c.ids.Distinct → (Indexed c ∧ Drawn c) ∧ Flighted c) ?_ ?_ hok hids
  · exact h.1.1
  · intro s op c m hop hstep hc hdist
    obtain ⟨⟨hi, hd⟩, hf⟩ := hc (hdist.of_extends (c.act_ids_extends m))
    obtain ⟨hu, hr⟩ := unqueued_of_onHolder hop hstep hf
    exact ⟨⟨hi.act hd hstep.1 hu hdist, hd.act m⟩, hf.act hstep.1 hr⟩
  · refine fun _ => ⟨⟨⟨?_, rfl, ?_, ?_, ?_, ?_⟩, ?_⟩, .init cfg now salt epoch⟩ <;>
      simp [Impl.core, Impl.init, Core.Waits, Ready.bucket, Ready.flow, Drawn]

/-- A request that ran, failed and is queued again: its first heap entry is
still there, under the generation before. -/
theorem ready_indexed_retried :
    Indexed (scheduler.run (Impl.init {} 0 0x80000001 none) [.registerWorker (plainWorker 3),
      .submit plainSpec (some ⟨7⟩), .planDispatch ⟨7⟩ false, .confirmStart (firstReport 3 .failed),
      .complete (firstReport 3 .failed)]).core :=
  ready_indexed (by decide +kernel) (by decide +kernel)

/-- Request 7 runs, under the generation of the first id drawn. Deferred
submissions draw the next ids up to where they repeat, and its retry gets the
generation of its first heap entry: two entries count as live. -/
theorem ready_indexed_wraps :
    let s := Impl.init { admission := { maxGlobalAdmitted := 1 } } 0 0x80000001 none
    let fst : List Op := [.registerWorker (plainWorker 3), .submit plainSpec (some ⟨7⟩), .planDispatch ⟨7⟩ false,
      .confirmStart (firstReport 3 .failed)]
    let ops := fst ++ (List.replicate (2 ^ 32 - 3) (.submit plainSpec none) ++ [.complete (firstReport 3 .failed)])
    scheduler.Allowed (fun s op => FreshSubmit s op ∧ OnHolder s op) s ops ∧
      ¬Indexed (scheduler.run s ops).core := by
  intro s fst ops
  have hv : validateSpec plainSpec = .ok () := by decide +kernel
  have hd : ((scheduler.run s fst).makeAdmission plainSpec (scheduler.run s fst).now).1 = .defer := by
    decide +kernel
  have hfresh : ∀ k, FreshSubmit ((scheduler.run s fst).deferred k) (.submit plainSpec none) :=
    Impl.freshSubmit_deferred (by decide +kernel) (Keyed.forall_find (by decide +kernel))
  have hlast : OnHolder ((scheduler.run s fst).deferred (2 ^ 32 - 3)) (.complete (firstReport 3 .failed)) := by
    decide +kernel
  refine ⟨Impl.allowed_around _ hv hd (by decide +kernel) (fun k => ⟨hfresh k, trivial⟩)
    ⟨⟨trivial, hlast⟩, trivial⟩, fun h => ?_⟩
  rw [Impl.run_around _ hv hd] at h
  exact absurd (h.any_live ⟨7⟩) (by decide +kernel)

end InferenceScheduler
