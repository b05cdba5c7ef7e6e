/-
The members of the batches. A request in a batch sits on a worker, its batch
is held by exactly one worker, and the pending count of a batch is the number
of its members, at least one: so a batch goes when its last member leaves, and
its units with it.

This holds as long as every member leaves through the worker that holds its
batch (`Kept`). The one exit that does not is the cancel of a reserved
request, which names the worker of an attempt that has not started yet.
-/
import InferenceScheduler.Records

namespace InferenceScheduler

/-- A worker holds a batch. -/
def Pool.Holds (p : Pool) (w : WorkerId) (b : BatchId) : Prop :=
  ∃ wr, p.workers.find w = some wr ∧ b ∈ wr.batchUnits

instance (p : Pool) (w : WorkerId) (b : BatchId) : Decidable (p.Holds w b) :=
  decidable_of_iff ((p.workers.find w).any fun wr => decide (b ∈ wr.batchUnits)) (by
    simp [Pool.Holds, Option.any_eq_true])

/-- The number of requests in a batch. -/
def Core.members (c : Core) (b : BatchId) : ℕ := c.requests.count fun rec => rec.inBatch && rec.batchId == b

/-- Reserving requests that lack a property adds those that gain it. -/
theorem Core.foldl_reserveMember_count {bid : BatchId} {p : RequestRecord → Bool} {q : Bool} :
    ∀ (ids : List RequestId) (c : Core), ids.Nodup →
      (∀ id ∈ ids, ∃ rec, c.requests.find id = some rec ∧ p rec = false ∧ p (rec.reserve bid c.now) = q) →
      (ids.foldl (reserveMember bid) c).requests.count p = c.requests.count p + if q then ids.length else 0
  | [], _, _, _ => by simp
  | id :: ids, c, hn, hids => by
    obtain ⟨hid, hn⟩ := List.nodup_cons.1 hn
    obtain ⟨rec, hf, hp, hq⟩ := hids id List.mem_cons_self
    have hone : ((c.reserveMember bid id).requests.count p : ℤ) = c.requests.count p + if q then 1 else 0 := by
      have hkey : rec.requestId = id := Keyed.key_of_find hf
      have hsum := Keyed.count_put (t := c.requests) (p := p) (w := rec.reserve bid c.now) (v := rec)
        (by rw [show (rec.reserve bid c.now).requestId = id from hkey]; exact hf)
      simp only [reserveMember, hf]
      simpa [hp, hq] using hsum
    have hrest := foldl_reserveMember_count (p := p) (q := q) ids (c.reserveMember bid id) hn fun id' hid' => by
      obtain ⟨rec', hf', hp', hq'⟩ := hids id' (List.mem_cons_of_mem _ hid')
      refine ⟨rec', ?_, hp', ?_⟩
      · rw [reserveMember_find, if_neg (by rintro rfl; exact hid hid'), hf']
      · rw [(reserveMember_frame bid c id).2.1]
        exact hq'
    rw [List.foldl_cons, hrest]
    cases q <;> simp only [List.length_cons, Bool.false_eq_true, ↓reduceIte] at hone ⊢ <;> omega

theorem Core.batchUnits_nonneg (c : Core) (members : List RequestId) : 0 ≤ c.batchUnits members := by
  refine List.sum_nonneg fun u hu => ?_
  obtain ⟨id, _, rfl⟩ := List.mem_map.1 hu
  have := ceilCost_pos ((c.requests.find id).getD {}).spec.demand.costUnits
  omega

/-- The count of a batch when a record is written over another. -/
theorem Core.members_put {c : Core} {rec : RequestRecord} (fin : RequestRecord) (hf : c.Holds rec)
    (hid : fin.requestId = rec.requestId) (b : BatchId) :
    ((c.put fin).members b : ℤ) = c.members b - (if rec.inBatch && rec.batchId == b then 1 else 0) +
      if fin.inBatch && fin.batchId == b then 1 else 0 :=
  Keyed.count_put (t := c.requests) (by rw [hid]; exact hf)

/-- The batches the workers hold are those of the requests, member by member. -/
structure Batched (c : Core) : Prop where
  balanced : c.pool.Balanced
  issued : ∀ w b, c.pool.Holds w b → c.ids.Issued b
  tidy : ∀ w wr, c.pool.workers.find w = some wr →
    ∀ b, (b ∈ wr.batchPending ↔ b ∈ wr.batchUnits) ∧ (b ∈ wr.startedBatches → b ∈ wr.batchUnits)
  unique : ∀ b w w', c.pool.Holds w b → c.pool.Holds w' b → w = w'
  pending : ∀ w wr b n, c.pool.workers.find w = some wr → wr.batchPending.lookup b = some n →
    n = c.members b ∧ 1 ≤ n
  member : ∀ r rec, c.requests.find r = some rec → rec.inBatch = true →
    rec.onWorker = true ∧ rec.batchId.valid = true ∧ ∃ w, c.pool.Holds w rec.batchId
  loose : ∀ r rec, c.requests.find r = some rec → rec.inBatch = false → rec.batchId = .invalid

namespace Batched

variable {c : Core}

/-! ## Steps that leave the batches alone -/

theorem frame {c' : Core} (h : Batched c) (hreq : c'.requests = c.requests) (hpool : c'.pool = c.pool)
    (hids : c'.ids.Extends c.ids) : Batched c' := by
  obtain ⟨cfg, now, ids, requests, ready, pool⟩ := c'
  obtain rfl : requests = c.requests := hreq
  obtain rfl : pool = c.pool := hpool
  exact ⟨h.balanced, fun w b hw => (h.issued w b hw).of_extends hids, h.tidy, h.unique, h.pending, h.member, h.loose⟩

/-- A record is written that is in the same batch. -/
theorem put {rec : RequestRecord} (h : Batched c) (fin : RequestRecord) (hf : c.Holds rec)
    (hid : fin.requestId = rec.requestId) (hin : fin.inBatch = rec.inBatch) (hb : fin.batchId = rec.batchId)
    (hon : rec.inBatch = true → fin.onWorker = true) : Batched (c.put fin) := by
  have hcount : ∀ b, (c.put fin).members b = c.members b := by
    intro b
    have hsum := Core.members_put fin hf hid b
    simp only [hin, hb] at hsum
    omega
  refine ⟨h.balanced, h.issued, h.tidy, h.unique, fun w wr b n hw hn => ?_, fun r rec' hf' hi => ?_,
    fun r rec' hf' hi => ?_⟩
  · rw [hcount]
    exact h.pending w wr b n hw hn
  · rcases Keyed.find_put_cases hf' with ⟨rfl, _⟩ | ⟨_, hold⟩
    · rw [hin] at hi
      obtain ⟨_, hv, hh⟩ := h.member _ rec hf hi
      rw [hb]
      exact ⟨hon hi, hv, hh⟩
    · exact h.member r rec' hold hi
  · rcases Keyed.find_put_cases hf' with ⟨rfl, _⟩ | ⟨_, hold⟩
    · rw [hin] at hi
      rw [hb]
      exact h.loose _ rec hf hi
    · exact h.loose r rec' hold hi

/-- A new record is in no batch. -/
theorem store (h : Batched c) (new : RequestRecord) (hf : c.requests.find new.requestId = none)
    (hin : new.inBatch = false) (hb : new.batchId = .invalid) : Batched (c.put new) := by
  have hcount : ∀ b, (c.put new).members b = c.members b := by
    intro b
    have hsum := Keyed.count_put_of_none (p := fun rec => rec.inBatch && rec.batchId == b) hf
    simp only [hin, Bool.false_and, Bool.false_eq_true, ↓reduceIte] at hsum
    simp only [Core.members, Core.put]
    omega
  refine ⟨h.balanced, h.issued, h.tidy, h.unique, fun w wr b n hw hn => ?_, fun r rec' hf' hi => ?_,
    fun r rec' hf' hi => ?_⟩
  · rw [hcount]
    exact h.pending w wr b n hw hn
  · rcases Keyed.find_put_cases hf' with ⟨rfl, _⟩ | ⟨_, hold⟩
    · rw [hin] at hi
      cases hi
    · exact h.member r rec' hold hi
  · rcases Keyed.find_put_cases hf' with ⟨rfl, _⟩ | ⟨_, hold⟩
    · exact hb
    · exact h.loose r rec' hold hi

/-- The record of a worker is written, with the batches it held. -/
theorem setRecord {p : Pool} {w : WorkerId} {new : WorkerRecord} (h : Batched c) (hbal : p.Balanced)
    (hfind : ∀ w', p.workers.find w' = if w = w' then some new else c.pool.workers.find w')
    (hunits : new.batchUnits = ((c.pool.workers.find w).getD {}).batchUnits)
    (hpend : new.batchPending = ((c.pool.workers.find w).getD {}).batchPending)
    (hst : ∀ b ∈ new.startedBatches, b ∈ new.batchUnits) : Batched { c with pool := p } := by
  have hcases : ∀ {w' wr'}, p.workers.find w' = some wr' →
      w = w' ∧ wr' = new ∨ c.pool.workers.find w' = some wr' := by
    intro w' wr' hf'
    rw [hfind] at hf'
    split at hf'
    · next he => exact .inl ⟨he, (Option.some.inj hf').symm⟩
    · exact .inr hf'
  have hholds : ∀ w' b, p.Holds w' b ↔ c.pool.Holds w' b := by
    intro w' b
    simp only [Pool.Holds, hfind]
    split
    · next he =>
      subst he
      cases hf : c.pool.workers.find w <;> simp [hunits, hf]
    · rfl
  refine ⟨hbal, fun w' b hw => h.issued w' b ((hholds w' b).1 hw), fun w' wr' hf' b => ?_,
    fun b w₁ w₂ h₁ h₂ => h.unique b w₁ w₂ ((hholds w₁ b).1 h₁) ((hholds w₂ b).1 h₂), fun w' wr' b n hf' hn => ?_,
    fun r rec hf hi => ?_, h.loose⟩
  · rcases hcases hf' with ⟨rfl, rfl⟩ | hold
    · refine ⟨?_, hst b⟩
      rw [hunits, hpend]
      cases hf : c.pool.workers.find w with
      | none => simp
      | some wr => exact (h.tidy w wr hf b).1
    · exact h.tidy w' wr' hold b
  · rcases hcases hf' with ⟨rfl, rfl⟩ | hold
    · rw [hpend] at hn
      cases hf : c.pool.workers.find w with
      | none => simp [hf] at hn
      | some wr => exact h.pending w wr b n hf (by rwa [hf] at hn)
    · exact h.pending w' wr' b n hold hn
  · obtain ⟨hon, hv, w', hw'⟩ := h.member r rec hf hi
    exact ⟨hon, hv, w', (hholds w' _).2 hw'⟩

end Batched

/-! ## A member leaves -/

/-- A member of a batch, the worker that holds the batch, and how many members
are pending there. -/
structure Leaving (c : Core) (rec : RequestRecord) (w : WorkerId) (wr : WorkerRecord) (n : ℤ) : Prop where
  request : c.Holds rec
  inBatch : rec.inBatch = true
  valid : rec.batchId.valid = true
  worker : c.pool.workers.find w = some wr
  units : rec.batchId ∈ wr.batchUnits
  pending : wr.batchPending.lookup rec.batchId = some n
  counted : n = c.members rec.batchId

theorem Batched.leaving {c : Core} {rec : RequestRecord} {w : WorkerId} (h : Batched c) (hf : c.Holds rec)
    (hi : rec.inBatch = true) (hw : c.pool.Holds w rec.batchId) : ∃ wr n, Leaving c rec w wr n := by
  obtain ⟨_, hv, _⟩ := h.member _ rec hf hi
  obtain ⟨wr, hwr, hunits⟩ := hw
  obtain ⟨n, hn⟩ := Table.mem_iff.1 ((h.tidy w wr hwr rec.batchId).1.2 hunits)
  exact ⟨wr, n, hf, hi, hv, hwr, hunits, hn, (h.pending w wr _ n hwr hn).1⟩

namespace Leaving

variable {c : Core} {rec fin : RequestRecord} {w : WorkerId} {wr : WorkerRecord} {n : ℤ}

/-- No other worker holds the batch. -/
theorem ne_of_holds (hl : Leaving c rec w wr n) (h : Batched c) {w' : WorkerId} {b : BatchId} (hne : w ≠ w')
    (hw' : c.pool.Holds w' b) : rec.batchId ≠ b := by
  intro heq
  subst heq
  exact hne (h.unique _ w w' ⟨wr, hl.worker, hl.units⟩ hw')

/-- The batch goes with its last member, the other batches stay. -/
theorem holds_iff (hl : Leaving c rec w wr n) (h : Batched c) (w' : WorkerId) (b : BatchId) :
    (c.pool.releaseMember w rec).Holds w' b ↔ c.pool.Holds w' b ∧ (rec.batchId = b → 1 < n) := by
  constructor
  · intro hx
    obtain ⟨wr', hf', hb'⟩ := hx
    rcases Pool.find_releaseMember_cases hl.worker hf' with ⟨rfl, rfl⟩ | ⟨hne, hold⟩
    · rw [WorkerRecord.leave_units hl.inBatch hl.valid hl.pending] at hb'
      exact ⟨⟨wr, hl.worker, hb'.1⟩, hb'.2⟩
    · exact ⟨⟨wr', hold, hb'⟩, fun he => absurd he (hl.ne_of_holds h hne ⟨wr', hold, hb'⟩)⟩
  · intro hx
    obtain ⟨⟨wr', hf', hb'⟩, hlt⟩ := hx
    by_cases he : w = w'
    · subst he
      obtain rfl : wr = wr' := Option.some.inj (hl.worker.symm.trans hf')
      exact ⟨wr.leave rec, by rw [Pool.find_releaseMember, if_pos rfl, hl.worker]; rfl,
        (WorkerRecord.leave_units hl.inBatch hl.valid hl.pending b).2 ⟨hb', hlt⟩⟩
    · exact ⟨wr', by rw [Pool.find_releaseMember, if_neg he]; exact hf', hb'⟩

theorem members_put (hl : Leaving c rec w wr n) (hid : fin.requestId = rec.requestId) (hin : fin.inBatch = false)
    (b : BatchId) : ((c.put fin).members b : ℤ) = c.members b - if rec.batchId = b then 1 else 0 := by
  simpa [hl.inBatch, hin] using Core.members_put fin hl.request hid b

/-- While another request is in the batch, more than one was pending. -/
theorem one_lt (hl : Leaving c rec w wr n) (hid : fin.requestId = rec.requestId) (hin : fin.inBatch = false)
    {r : RequestId} {rec' : RequestRecord} (hf' : (c.put fin).requests.find r = some rec') (hi' : rec'.inBatch = true)
    (he : rec.batchId = rec'.batchId) : 1 < n := by
  have hpos : 0 < (c.put fin).members rec.batchId := Keyed.count_pos_iff.2 ⟨r, rec', hf', by simp [hi', he]⟩
  have hcount := hl.members_put hid hin rec.batchId
  rw [if_pos rfl] at hcount
  have := hl.counted
  omega

theorem tidy_leave (hl : Leaving c rec w wr n) (h : Batched c) (b : BatchId) :
    (b ∈ (wr.leave rec).batchPending ↔ b ∈ (wr.leave rec).batchUnits) ∧
      (b ∈ (wr.leave rec).startedBatches → b ∈ (wr.leave rec).batchUnits) := by
  rw [WorkerRecord.leave_units hl.inBatch hl.valid hl.pending,
    WorkerRecord.leave_started hl.inBatch hl.valid hl.pending, Table.mem_iff]
  obtain ⟨hp, hs⟩ := h.tidy w wr hl.worker b
  refine ⟨?_, fun hst => ⟨hs hst.1, hst.2⟩⟩
  rw [← hp, Table.mem_iff]
  simp only [WorkerRecord.leave_pending hl.inBatch hl.valid hl.pending]
  by_cases he : rec.batchId = b
  · subst he
    by_cases hlt : 1 < n <;> simp [hlt, hl.pending]
  · simp [he]

/-- One member less is pending, as one is less in the batch. -/
theorem pending_leave (hl : Leaving c rec w wr n) (h : Batched c) {w' : WorkerId} {wr' : WorkerRecord} {b : BatchId}
    {m : ℤ} (hf' : (c.pool.releaseMember w rec).workers.find w' = some wr')
    (hm : wr'.batchPending.lookup b = some m) :
    m = c.members b - (if rec.batchId = b then 1 else 0) ∧ 1 ≤ m := by
  rcases Pool.find_releaseMember_cases hl.worker hf' with ⟨rfl, rfl⟩ | ⟨hne, hold⟩
  · rw [WorkerRecord.leave_pending hl.inBatch hl.valid hl.pending] at hm
    split at hm
    · next he =>
      subst he
      split at hm
      · cases hm
        have := hl.counted
        rw [if_pos rfl]
        exact ⟨by omega, by omega⟩
      · cases hm
    · next he =>
      rw [if_neg he, sub_zero]
      exact h.pending w wr b m hl.worker hm
  · have hb : rec.batchId ≠ b :=
      hl.ne_of_holds h hne ⟨wr', hold, (h.tidy w' wr' hold _).1.1 (Table.mem_of_lookup hm)⟩
    rw [if_neg hb, sub_zero]
    exact h.pending w' wr' b m hold hm

end Leaving

namespace Batched

variable {c : Core}

/-- A member leaves its batch through the worker that holds it. -/
theorem release {rec fin : RequestRecord} {w : WorkerId} (h : Batched c) (hf : c.Holds rec)
    (hi : rec.inBatch = true) (hw : c.pool.Holds w rec.batchId) (hid : fin.requestId = rec.requestId)
    (hin : fin.inBatch = false) (hb : fin.batchId = .invalid) :
    Batched ({ c with pool := c.pool.releaseMember w rec }.put fin) := by
  obtain ⟨wr, n, hl⟩ := h.leaving hf hi hw
  have hholds := hl.holds_iff h
  refine ⟨h.balanced.releaseMember w rec, fun w' b hw' => h.issued w' b ((hholds w' b).1 hw').1,
    fun w' wr' hf' b => ?_, fun b w₁ w₂ h₁ h₂ => h.unique b w₁ w₂ ((hholds w₁ b).1 h₁).1 ((hholds w₂ b).1 h₂).1,
    fun w' wr' b m hf' hm => ?_, fun r rec' hf' hi' => ?_, fun r rec' hf' hi' => ?_⟩
  · rcases Pool.find_releaseMember_cases hl.worker hf' with ⟨rfl, rfl⟩ | ⟨_, hold⟩
    · exact hl.tidy_leave h b
    · exact h.tidy w' wr' hold b
  · obtain ⟨hm, hpos⟩ := hl.pending_leave h hf' hm
    exact ⟨hm.trans (hl.members_put hid hin b).symm, hpos⟩
  · rcases Keyed.find_put_cases hf' with ⟨rfl, _⟩ | ⟨_, hold⟩
    · rw [hin] at hi'
      cases hi'
    · obtain ⟨hon, hv, w', hw'⟩ := h.member r rec' hold hi'
      exact ⟨hon, hv, w', (hholds w' _).2 ⟨hw', hl.one_lt hid hin hf' hi'⟩⟩
  · rcases Keyed.find_put_cases hf' with ⟨rfl, _⟩ | ⟨_, hold⟩
    · exact hb
    · exact h.loose r rec' hold hi'

end Batched

/-! ## A batch is formed -/

section

variable {c : Core} {wr : WorkerRecord} {members : List RequestId}

theorem Core.find_worker_reserve (hwr : c.pool.workers.find wr.id = some wr) {w' : WorkerId} {wr' : WorkerRecord}
    (hf' : (c.act (.reserve wr members)).pool.workers.find w' = some wr') :
    wr.id = w' ∧ wr' = wr.takeBatch c.ids.peek (c.batchUnits members) members ∨
      c.pool.workers.find w' = some wr' := by
  rw [(c.act_reserve_frame wr members).2.2.2, Pool.find_reserve hwr] at hf'
  split at hf'
  · next he => exact .inl ⟨he, (Option.some.inj hf').symm⟩
  · exact .inr hf'

/-- The worker takes on the new batch, and all keep what they held. -/
theorem Core.holds_reserve_iff (members : List RequestId) (hwr : c.pool.workers.find wr.id = some wr)
    (w' : WorkerId) (b : BatchId) :
    (c.act (.reserve wr members)).pool.Holds w' b ↔ c.pool.Holds w' b ∨ w' = wr.id ∧ b = c.ids.peek := by
  constructor
  · intro hx
    obtain ⟨wr', hf', hb⟩ := hx
    rcases Core.find_worker_reserve hwr hf' with ⟨rfl, rfl⟩ | hold
    · simp only [WorkerRecord.takeBatch, AList.mem_insert] at hb
      exact hb.elim (fun he => .inr ⟨rfl, he⟩) fun hb => .inl ⟨wr, hwr, hb⟩
    · exact .inl ⟨wr', hold, hb⟩
  · simp only [Pool.Holds, (c.act_reserve_frame wr members).2.2.2, Pool.find_reserve hwr]
    intro hx
    rcases hx with ⟨wr', hf', hb⟩ | ⟨rfl, rfl⟩
    · by_cases he : wr.id = w'
      · subst he
        obtain rfl : wr = wr' := Option.some.inj (hwr.symm.trans hf')
        exact ⟨_, if_pos rfl, (AList.mem_insert _).2 (.inr hb)⟩
      · exact ⟨wr', by rw [if_neg he]; exact hf', hb⟩
    · exact ⟨_, if_pos rfl, (AList.mem_insert _).2 (.inl rfl)⟩

end

namespace Batched

variable {c : Core} {wr : WorkerRecord} {members : List RequestId}

/-- No worker knows the batch id drawn next. -/
theorem peek_not_held (h : Batched c) (hd : c.ids.tick.Distinct) (w : WorkerId) :
    ¬c.pool.Holds w c.ids.peek :=
  fun hw => IdFactory.peek_ne_of_issued hd (h.issued w _ hw) rfl

/-- No request is in the batch drawn next. -/
theorem members_peek (h : Batched c) (hd : c.ids.tick.Distinct) : c.members c.ids.peek = 0 := by
  by_contra hpos
  obtain ⟨r, rec, hf, hm⟩ := Keyed.count_pos_iff.1 (Nat.pos_of_ne_zero hpos)
  simp only [Bool.and_eq_true, beq_iff_eq] at hm
  obtain ⟨_, _, w', hw'⟩ := h.member r rec hf hm.1
  exact h.peek_not_held hd w' (hm.2 ▸ hw')

theorem not_inBatch_of_runnable {r : RequestId} {rec : RequestRecord} (h : Batched c)
    (hf : c.requests.find r = some rec) (hs : rec.state = .queued ∨ rec.state = .admitted) : rec.inBatch = false := by
  by_contra hi
  have hon := (h.member r rec hf (by simpa using hi)).1
  rcases hs with hs | hs <;> simp [RequestRecord.onWorker, hs] at hon

theorem members_reserve (h : Batched c) (hen : Enabled c (.reserve wr members)) (b : BatchId) :
    (c.act (.reserve wr members)).members b = c.members b + if c.ids.peek == b then members.length else 0 := by
  obtain ⟨hnodup, _, _, _, hrun⟩ := hen
  refine Core.foldl_reserveMember_count members _ hnodup fun id hid => ?_
  obtain ⟨rec, hf, hs⟩ := hrun id hid
  exact ⟨rec, hf, by simp [h.not_inBatch_of_runnable hf hs], by simp [RequestRecord.reserve]⟩

theorem balanced_reserve (h : Batched c) (hwr : c.pool.workers.find wr.id = some wr) (hd : c.ids.tick.Distinct) :
    (c.act (.reserve wr members)).pool.Balanced := by
  have hnot := h.peek_not_held hd wr.id
  have hunits : wr.batchUnits.lookup c.ids.peek = none :=
    AList.lookup_eq_none.2 fun hb => hnot ⟨wr, hwr, hb⟩
  have hstarted : c.ids.peek ∉ wr.startedBatches :=
    fun hs => hnot ⟨wr, hwr, (h.tidy wr.id wr hwr _).2 hs⟩
  rw [(c.act_reserve_frame wr members).2.2.2]
  exact h.balanced.reserve members hwr hunits hstarted (c.batchUnits_nonneg members)

theorem pending_reserve (h : Batched c) (hen : Enabled c (.reserve wr members)) (hd : c.ids.tick.Distinct)
    {w' : WorkerId} {wr' : WorkerRecord} {b : BatchId} {n : ℤ}
    (hf' : (c.act (.reserve wr members)).pool.workers.find w' = some wr') (hn : wr'.batchPending.lookup b = some n) :
    n = (c.act (.reserve wr members)).members b ∧ 1 ≤ n := by
  rw [h.members_reserve hen]
  obtain ⟨_, hne, hwr, _⟩ := hen
  rcases Core.find_worker_reserve hwr hf' with ⟨rfl, rfl⟩ | hold
  · simp only [WorkerRecord.takeBatch, Table.lookup_insert_eq] at hn
    split at hn
    · next he =>
      cases hn
      have hlen : 0 < members.length := List.length_pos_iff.2 hne
      rw [← he, h.members_peek hd, beq_self_eq_true, if_pos rfl]
      exact ⟨by omega, by omega⟩
    · next he =>
      rw [if_neg (by simpa using he)]
      exact h.pending wr.id wr b n hwr hn
  · have he : c.ids.peek ≠ b := by
      intro heq
      subst heq
      exact h.peek_not_held hd w' ⟨wr', hold, (h.tidy w' wr' hold _).1.1 (Table.mem_of_lookup hn)⟩
    rw [if_neg (by simpa using he)]
    exact h.pending w' wr' b n hold hn

theorem reserve (h : Batched c) (hen : Enabled c (.reserve wr members)) (hd : c.ids.tick.Distinct)
    (hvalid : c.ids.tick.AllValid) : Batched (c.act (.reserve wr members)) := by
  have hnot := h.peek_not_held hd
  obtain ⟨hnodup, _, hwr, _, hrun⟩ := id hen
  have hholds := Core.holds_reserve_iff members hwr
  refine ⟨h.balanced_reserve hwr hd, fun w' b hw' => ?_, fun w' wr' hf' b => ?_, fun b w₁ w₂ h₁ h₂ => ?_,
    fun w' wr' b n hf' hn => h.pending_reserve hen hd hf' hn, fun r rec' hf' hi => ?_, fun r rec' hf' hi => ?_⟩
  · rw [(c.act_reserve_frame wr members).2.2.1]
    rcases (hholds w' b).1 hw' with hold | ⟨_, rfl⟩
    · exact (h.issued w' b hold).of_extends c.ids.extends_tick
    · exact c.ids.issued_peek
  · rcases Core.find_worker_reserve hwr hf' with ⟨rfl, rfl⟩ | hold
    · obtain ⟨hp, hs⟩ := h.tidy wr.id wr hwr b
      simp only [WorkerRecord.takeBatch, AList.mem_insert]
      exact ⟨or_congr_right hp, fun hst => .inr (hs hst)⟩
    · exact h.tidy w' wr' hold b
  · rcases (hholds w₁ b).1 h₁ with hold₁ | ⟨rfl, rfl⟩
    · rcases (hholds w₂ b).1 h₂ with hold₂ | ⟨rfl, rfl⟩
      · exact h.unique b w₁ w₂ hold₁ hold₂
      · exact absurd hold₁ (hnot w₁)
    · rcases (hholds w₂ _).1 h₂ with hold₂ | ⟨rfl, _⟩
      · exact absurd hold₂ (hnot w₂)
      · rfl
  · rw [Core.act_reserve_find hnodup] at hf'
    split at hf'
    · next hmem =>
      obtain ⟨rec, hf, _⟩ := hrun r hmem
      rw [hf] at hf'
      cases hf'
      exact ⟨rfl, IdFactory.valid_peek hvalid, wr.id, (hholds _ _).2 (.inr ⟨rfl, rfl⟩)⟩
    · obtain ⟨hon, hv, w', hw'⟩ := h.member r rec' hf' hi
      exact ⟨hon, hv, w', (hholds w' _).2 (.inl hw')⟩
  · rw [Core.act_reserve_find hnodup] at hf'
    split at hf'
    · next hmem =>
      obtain ⟨rec, hf, _⟩ := hrun r hmem
      rw [hf] at hf'
      cases hf'
      cases hi
    · exact h.loose r rec' hf' hi

/-! ## Every move -/

/-- A request leaves, in a batch or not. -/
theorem leave {rec : RequestRecord} {w : WorkerId} (h : Batched c) (fin : RequestRecord) (hf : c.Holds rec)
    (hw : rec.inBatch = true → c.pool.Holds w rec.batchId) (hid : fin.requestId = rec.requestId)
    (hin : fin.inBatch = false) (hb : fin.batchId = .invalid) :
    Batched ({ c with pool := c.pool.releaseMember w rec }.put fin) := by
  cases hi : rec.inBatch with
  | true => exact h.release hf hi (hw hi) hid hin hb
  | false =>
    have hpool : Batched { c with pool := c.pool.releaseMember w rec } := by
      cases hwr : c.pool.workers.find w with
      | none => exact h.frame rfl (by simp only [Pool.releaseMember, hwr]) (.refl _)
      | some wr =>
        have hfind : ∀ w', (c.pool.releaseMember w rec).workers.find w' =
            if w = w' then some (wr.leave rec) else c.pool.workers.find w' := by
          intro w'
          rw [Pool.find_releaseMember]
          split
          · next he => rw [← he, hwr]; rfl
          · rfl
        refine h.setRecord (h.balanced.releaseMember w rec) hfind ?_ ?_ ?_
        · rw [WorkerRecord.leave_of_loose hi, hwr]
          rfl
        · rw [WorkerRecord.leave_of_loose hi, hwr]
          rfl
        · rw [WorkerRecord.leave_of_loose hi]
          exact fun b => (h.tidy w wr hwr b).2
    exact hpool.put fin hf hid (by rw [hin, hi]) (by rw [hb, h.loose _ rec hf hi]) (by simp [hi])

/-- What leaves its batch, or was in none, is in none. -/
theorem released_loose {rec : RequestRecord} {w : WorkerId} (h : Batched c) (hf : c.Holds rec)
    (hw : rec.inBatch = true → c.pool.Holds w rec.batchId) (note : RequestRecord)
    (hin : note.inBatch = rec.inBatch) (hb : note.batchId = rec.batchId) :
    (c.pool.released w note).inBatch = false ∧ (c.pool.released w note).batchId = .invalid := by
  unfold Pool.released
  split
  · exact ⟨rfl, rfl⟩
  · next hnone =>
    cases hi : rec.inBatch with
    | true =>
      obtain ⟨wr, hwr, _⟩ := hw hi
      simp [hwr] at hnone
    | false => exact ⟨by rw [hin, hi], by rw [hb, h.loose _ rec hf hi]⟩

end Batched

/-- Members leave through the worker that holds their batch, and no worker is
lost. -/
def Kept (c : Core) : Move → Prop
  | .start rec wr _ => rec.inBatch = true → rec.batchId ∈ wr.batchUnits
  | .finish rec w _ => rec.inBatch = true → c.pool.Holds w rec.batchId
  | .cancel rec _ w _ => rec.inBatch = true → c.pool.Holds w rec.batchId
  | .retry rec r => rec.inBatch = true → c.pool.Holds r.worker rec.batchId
  | .sweep _ | .dropWorker _ => False
  | _ => True

theorem Batched.act {c : Core} {m : Move} (h : Batched c) (hen : Enabled c m) (hk : Kept c m)
    (hd : (c.act m).ids.Distinct) (hv : (c.act m).ids.AllValid) : Batched (c.act m) := by
  cases m with
  | advance | pop | sleep => exact h.frame rfl rfl (.refl _)
  | draw => exact h.frame rfl rfl c.ids.extends_tick
  | refuse rec => exact h.store rec hen.1 hen.2.2.1 hen.2.2.2.1
  | accept spec rid =>
    have hstore := h.store (Impl.admittedRecord spec rid c.ids.peek c.ids.tick.peek c.now) hen rfl rfl
    exact hstore.frame rfl rfl (c.ids.tick.extends_tick.trans c.ids.extends_tick)
  | expire rec =>
    have hi := h.not_inBatch_of_runnable hen.1 (.inl hen.2)
    have hput := h.put rec.expire hen.1 rfl rfl rfl (by simp [hi])
    exact hput.frame rfl rfl (.refl _)
  | reserve wr members =>
    rw [(c.act_reserve_frame wr members).2.2.1] at hd hv
    exact h.reserve hen hd hv
  | start rec wr snap =>
    obtain ⟨hf, _, hwr, hvalid⟩ := hen
    have hi : rec.inBatch = true := by
      by_contra hi
      rw [h.loose _ rec hf (by simpa using hi)] at hvalid
      simp at hvalid
    have hpool : Batched { c with pool := c.pool.start wr rec.batchId rec.requestId rec.currentAttempt snap } := by
      refine h.setRecord (h.balanced.start hwr _ _ _ _) (c.pool.find_start wr _ _ _ _) ?_ ?_ fun b hb => ?_
      · rw [hwr]
        rfl
      · rw [hwr]
        rfl
      · simp only [WorkerRecord.startMember, USet.mem_insert] at hb
        rcases hb with rfl | hb
        · exact hk hi
        · exact (h.tidy _ wr hwr b).2 hb
    exact hpool.put _ hf rfl rfl rfl fun _ => rfl
  | finish rec w e =>
    have hfin := h.released_loose hen.1 hk (e.note c.now rec) (by cases e <;> rfl) (by cases e <;> rfl)
    refine h.leave _ hen.1 hk ?_ ?_ ?_
    · rw [Ending.close_requestId, Pool.released_requestId, Ending.note_requestId]
    · rw [← hfin.1]
      cases e <;> rfl
    · rw [← hfin.2]
      cases e <;> rfl
  | cancel rec asked w reason =>
    have hid := c.unworked_requestId w { rec with cancelReason := asked }
    cases hon : rec.onWorker with
    | true =>
      have hun : c.unworked w { rec with cancelReason := asked } =
          c.pool.released w { rec with cancelReason := asked } := if_pos hon
      have hfin := h.released_loose hen.1 hk { rec with cancelReason := asked } rfl rfl
      rw [← hun] at hfin
      have hleave := h.leave ((c.unworked w { rec with cancelReason := asked }).cancel reason) hen.1 hk hid
        hfin.1 hfin.2
      refine hleave.frame rfl ?_ (.refl _)
      simp only [Core.act, Core.put, hon, ↓reduceIte]
    | false =>
      have hi : rec.inBatch = false := by
        by_contra hi
        rw [(h.member _ rec hen.1 (by simpa using hi)).1] at hon
        cases hon
      have hun : c.unworked w { rec with cancelReason := asked } = { rec with cancelReason := asked } :=
        if_neg (by rw [show RequestRecord.onWorker { rec with cancelReason := asked } = false from hon]; simp)
      have hput := h.put ((c.unworked w { rec with cancelReason := asked }).cancel reason) hen.1 hid
        (by rw [hun]; rfl) (by rw [hun]; rfl) (by simp [hi])
      refine hput.frame rfl ?_ (.refl _)
      simp only [Core.act, Core.put, hon, Bool.false_eq_true, ↓reduceIte]
  | flag rec asked =>
    refine h.put _ hen.1 rfl rfl rfl fun hi => ?_
    exact (h.member _ rec hen.1 hi).1
  | retry rec r =>
    have hleave := h.leave
      ((c.pool.released r.worker (rec.noteFailure r)).retry c.ids.peek c.ids.tick.peek c.now) hen.1 hk
      (c.pool.released_requestId r.worker _) rfl rfl
    exact hleave.frame rfl rfl (c.ids.tick.extends_tick.trans c.ids.extends_tick)
  | sweep | dropWorker => exact hk.elim
  | setWorker wr =>
    obtain ⟨_, _, hunits, hpend, _, hst, _⟩ := id hen
    refine h.setRecord (h.balanced.setWorker hen) (c.pool.find_putWorker wr) hunits hpend fun b hb => ?_
    rw [hst] at hb
    rw [hunits]
    cases hf : c.pool.workers.find wr.id with
    | none => simp [hf] at hb
    | some old => exact (h.tidy _ old hf b).2 (by simpa [hf] using hb)

end InferenceScheduler
