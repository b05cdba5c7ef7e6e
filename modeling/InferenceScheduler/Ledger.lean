/-
The ledger of capacity units. A worker is balanced when its reserved units are
the units of its batches that have not started, and its running units those of
the started ones; a pool is balanced when its workers are and the two global
counters are the sums over them. Every pool operation keeps the balance, the
sweep of a lost worker only if no started batch is left.
-/
import InferenceScheduler.Capacity

namespace InferenceScheduler

theorem clamp0_of_nonneg {n : ℤ} (h : 0 ≤ n) : clamp0 n = n := if_neg (by omega)

theorem clamp0_nonneg (n : ℤ) : 0 ≤ clamp0 n := by
  unfold clamp0
  split <;> omega

namespace WorkerRecord

/-- `wr'` holds the batches and requests of `wr`. A registration clamps the
reserved units. -/
def SameWork (wr wr' : WorkerRecord) : Prop :=
  (wr'.reservedUnits = wr.reservedUnits ∨ wr'.reservedUnits = clamp0 wr.reservedUnits) ∧
    wr'.runningUnits = wr.runningUnits ∧ wr'.batchUnits = wr.batchUnits ∧ wr'.batchPending = wr.batchPending ∧
    wr'.batchMembers = wr.batchMembers ∧ wr'.startedBatches = wr.startedBatches ∧ wr'.inFlight = wr.inFlight

/-- The worker after a member left one of its batches. -/
def leaveBatch (wr : WorkerRecord) (b : BatchId) : WorkerRecord :=
  match wr.batchPending.lookup b with
  | none => wr
  | some n =>
    let wr := { wr with batchPending := wr.batchPending.insert b (n - 1) }
    if n - 1 ≤ 0 then wr.dropBatch b else wr

/-- The worker after `release_batch_member` of a request. -/
def leave (wr : WorkerRecord) (rec : RequestRecord) : WorkerRecord :=
  let wr := { wr with inFlight := wr.inFlight.erase rec.requestId }
  if rec.inBatch && rec.batchId.valid then wr.leaveBatch rec.batchId else wr

theorem leaveBatch_inFlight (wr : WorkerRecord) (b : BatchId) : (wr.leaveBatch b).inFlight = wr.inFlight := by
  unfold leaveBatch
  split
  · rfl
  · simp only
    split <;> rfl

theorem leave_inFlight (wr : WorkerRecord) (rec : RequestRecord) :
    (wr.leave rec).inFlight = wr.inFlight.erase rec.requestId := by
  unfold leave
  simp only
  split
  · exact leaveBatch_inFlight _ _
  · rfl

/-- A member that leaves changes the pending counts and the requests in
flight, and may take its batch with it. -/
theorem leave_cases (wr : WorkerRecord) (rec : RequestRecord) : ∃ flight pending,
    wr.leave rec = { wr with inFlight := flight, batchPending := pending } ∨
      wr.leave rec = dropBatch { wr with inFlight := flight, batchPending := pending } rec.batchId := by
  unfold leave leaveBatch
  simp only
  split
  · split
    · exact ⟨_, _, .inl rfl⟩
    · split
      · exact ⟨_, _, .inr rfl⟩
      · exact ⟨_, _, .inl rfl⟩
  · exact ⟨_, _, .inl rfl⟩

theorem leave_registration (wr : WorkerRecord) (rec : RequestRecord) :
    (wr.leave rec).registration = wr.registration := by
  obtain ⟨_, _, h | h⟩ := wr.leave_cases rec
  · rw [h]
  · rw [h]
    rfl

/-- A worker takes on no batch when a member leaves. -/
theorem mem_of_mem_leave {wr : WorkerRecord} {rec : RequestRecord} {b : BatchId}
    (h : b ∈ (wr.leave rec).batchUnits) : b ∈ wr.batchUnits := by
  obtain ⟨_, _, he | he⟩ := wr.leave_cases rec <;> rw [he] at h
  · exact h
  · exact (AList.mem_erase.1 h).2

section leave

variable {wr : WorkerRecord} {rec : RequestRecord} {n : ℤ}

/-- A request that is in no batch takes nothing with it. -/
theorem leave_of_loose (h : rec.inBatch = false) :
    wr.leave rec = { wr with inFlight := wr.inFlight.erase rec.requestId } := by
  simp [leave, h]

/-- A member that leaves a batch with `n` pending ones leaves `n - 1`; the
last one takes the batch with it. -/
theorem leave_pending (h : rec.inBatch = true) (hv : rec.batchId.valid = true)
    (hn : wr.batchPending.lookup rec.batchId = some n) (b : BatchId) :
    (wr.leave rec).batchPending.lookup b =
      if rec.batchId = b then (if 1 < n then some (n - 1) else none) else wr.batchPending.lookup b := by
  simp only [leave, h, hv, Bool.and_self, ↓reduceIte, leaveBatch, hn]
  split
  · next hle =>
    simp only [dropBatch, Table.lookup_erase_eq, Table.lookup_insert_eq, if_neg (show ¬1 < n by omega)]
    split <;> rfl
  · next hle => simp only [Table.lookup_insert_eq, if_pos (show 1 < n by omega)]

/-- The pending counts of other batches stay. -/
theorem leave_pending_ne {b : BatchId} (h : ¬(rec.inBatch = true ∧ rec.batchId = b)) :
    (wr.leave rec).batchPending.lookup b = wr.batchPending.lookup b := by
  unfold leave leaveBatch
  simp only
  split
  · next hi =>
    simp only [Bool.and_eq_true] at hi
    have hne : rec.batchId ≠ b := fun he => h ⟨hi.1, he⟩
    split
    · rfl
    · split
      · simp only [dropBatch, Table.lookup_erase_eq, Table.lookup_insert_eq, if_neg hne]
      · simp only [Table.lookup_insert_eq, if_neg hne]
  · rfl

/-- What goes with the last member, of what is kept by batch. -/
theorem ne_and_iff_of_last {b b' : BatchId} {q : Prop} (hle : n - 1 ≤ 0) : b ≠ b' ∧ q ↔ q ∧ (b' = b → 1 < n) := by
  constructor
  · intro hb
    exact ⟨hb.2, fun he => absurd he.symm hb.1⟩
  · intro hb
    refine ⟨fun he => ?_, hb.1⟩
    have := hb.2 he.symm
    omega

theorem leave_units (h : rec.inBatch = true) (hv : rec.batchId.valid = true)
    (hn : wr.batchPending.lookup rec.batchId = some n) (b : BatchId) :
    b ∈ (wr.leave rec).batchUnits ↔ b ∈ wr.batchUnits ∧ (rec.batchId = b → 1 < n) := by
  simp only [leave, h, hv, Bool.and_self, ↓reduceIte, leaveBatch, hn]
  split
  · next hle =>
    simp only [dropBatch, AList.mem_erase]
    exact ne_and_iff_of_last hle
  · next hle => exact ⟨fun hb => ⟨hb, fun _ => by omega⟩, fun hb => hb.1⟩

theorem leave_started (h : rec.inBatch = true) (hv : rec.batchId.valid = true)
    (hn : wr.batchPending.lookup rec.batchId = some n) (b : BatchId) :
    b ∈ (wr.leave rec).startedBatches ↔ b ∈ wr.startedBatches ∧ (rec.batchId = b → 1 < n) := by
  simp only [leave, h, hv, Bool.and_self, ↓reduceIte, leaveBatch, hn]
  split
  · next hle =>
    simp only [dropBatch, USet.mem_erase]
    exact ne_and_iff_of_last hle
  · next hle => exact ⟨fun hb => ⟨hb, fun _ => by omega⟩, fun hb => hb.1⟩

end leave

/-! ## The units of a worker's batches -/

/-- The units of the batches that have started, or of those that have not. -/
def unitsWhere (wr : WorkerRecord) (st : Bool) : ℤ :=
  wr.batchUnits.sum fun b u => if wr.started b = st then u else 0

theorem unitsWhere_false (wr : WorkerRecord) :
    wr.unitsWhere false = wr.batchUnits.sum fun b u => if b ∈ wr.startedBatches then 0 else u :=
  Table.sum_congr fun b u _ => by by_cases h : b ∈ wr.startedBatches <;> simp [started, h]

theorem unitsWhere_true (wr : WorkerRecord) :
    wr.unitsWhere true = wr.batchUnits.sum fun b u => if b ∈ wr.startedBatches then u else 0 :=
  Table.sum_congr fun b u _ => by by_cases h : b ∈ wr.startedBatches <;> simp [started, h]

theorem unitsWhere_congr {wr wr' : WorkerRecord} (hu : wr'.batchUnits = wr.batchUnits)
    (hs : wr'.startedBatches = wr.startedBatches) (st : Bool) : wr'.unitsWhere st = wr.unitsWhere st := by
  have hst : ∀ b, wr'.started b = wr.started b := fun b => by simp [started, hs]
  simp only [unitsWhere, hst, hu]

theorem started_dropBatch_of_ne (wr : WorkerRecord) {b b' : BatchId} (h : b' ≠ b) :
    (wr.dropBatch b).started b' = wr.started b' := by
  simp [started, dropBatch, h]

theorem started_startMember (wr : WorkerRecord) (b : BatchId) (rid : RequestId) (att : AttemptId)
    (snap : ResourceSnapshot) (b' : BatchId) :
    (wr.startMember b rid att snap).started b' = (decide (b' = b) || wr.started b') := by
  simp [started, startMember]

theorem unitsWhere_dropBatch (wr : WorkerRecord) (b : BatchId) (st : Bool) :
    (wr.dropBatch b).unitsWhere st = wr.unitsWhere st - if wr.started b = st then wr.unitsOf b else 0 := by
  have hrest : (wr.dropBatch b).unitsWhere st =
      Table.sum (wr.batchUnits.erase b) fun b' u => if wr.started b' = st then u else 0 := by
    refine Table.sum_congr fun b' u hb' => ?_
    rw [started_dropBatch_of_ne]
    intro heq
    subst heq
    simp [dropBatch] at hb'
  rw [hrest]
  cases hu : wr.batchUnits.lookup b with
  | none => simp [Table.sum_erase_of_none hu, unitsWhere, unitsOf, hu]
  | some u => simp [Table.sum_erase hu, unitsWhere, unitsOf, hu]

theorem unitsWhere_takeBatch {wr : WorkerRecord} {b : BatchId} {units : ℤ} {members : List RequestId}
    (hb : wr.batchUnits.lookup b = none) (hs : b ∉ wr.startedBatches) (st : Bool) :
    (wr.takeBatch b units members).unitsWhere st = wr.unitsWhere st + if st then 0 else units := by
  have hins := Table.sum_insert_of_none (f := fun b' u => if wr.started b' = st then u else 0) (w := units) hb
  refine hins.trans ?_
  cases st <;> simp [unitsWhere, started, hs]

theorem unitsWhere_startMember (wr : WorkerRecord) (b : BatchId) (rid : RequestId) (att : AttemptId)
    (snap : ResourceSnapshot) (st : Bool) :
    (wr.startMember b rid att snap).unitsWhere st =
      wr.unitsWhere st + if st then wr.startingUnits b else - wr.startingUnits b := by
  have hne : ∀ (b' : BatchId) (u : ℤ), b' ≠ b → (if wr.started b' = st then u else 0) =
      if (wr.startMember b rid att snap).started b' = st then u else 0 := by
    intro b' u hb'
    rw [started_startMember, decide_eq_false hb', Bool.false_or]
  cases hu : wr.batchUnits.lookup b with
  | none =>
    have hsame : wr.unitsWhere st = (wr.startMember b rid att snap).unitsWhere st := by
      refine Table.sum_congr fun b' u hb' => hne b' u ?_
      intro heq
      subst heq
      simp [hu] at hb'
    rw [← hsame]
    simp [startingUnits, unitsOf, hu]
  | some u =>
    refine (Table.sum_eq_of_ne hu hne).trans ?_
    by_cases hs : b ∈ wr.startedBatches <;> cases st <;>
      simp [unitsWhere, startingUnits, unitsOf, started, startMember, hu, hs, sub_eq_add_neg]

theorem unitsWhere_nonneg {wr : WorkerRecord} (h : ∀ b u, wr.batchUnits.lookup b = some u → 0 ≤ u) (st : Bool) :
    0 ≤ wr.unitsWhere st := by
  refine Table.sum_nonneg fun b u hb => ?_
  split
  · exact h b u hb
  · exact Int.le_refl 0

/-- The two counters are the units of the worker's batches. -/
structure Balanced (wr : WorkerRecord) : Prop where
  reserved : wr.reservedUnits = wr.unitsWhere false
  running : wr.runningUnits = wr.unitsWhere true
  units : ∀ b u, wr.batchUnits.lookup b = some u → 0 ≤ u

/-- `wr'` has the units of `wr`. -/
structure SameUnits (wr wr' : WorkerRecord) : Prop where
  reserved : wr'.reservedUnits = wr.reservedUnits
  running : wr'.runningUnits = wr.runningUnits
  units : wr'.batchUnits = wr.batchUnits
  started : wr'.startedBatches = wr.startedBatches

namespace Balanced

variable {wr : WorkerRecord}

theorem reserved_nonneg (h : wr.Balanced) : 0 ≤ wr.reservedUnits := by
  rw [h.reserved]
  exact unitsWhere_nonneg h.units false

theorem running_nonneg (h : wr.Balanced) : 0 ≤ wr.runningUnits := by
  rw [h.running]
  exact unitsWhere_nonneg h.units true

theorem default : ({} : WorkerRecord).Balanced := ⟨rfl, rfl, by simp⟩

theorem of_sameUnits {wr' : WorkerRecord} (h : wr.Balanced) (hs : wr.SameUnits wr') : wr'.Balanced := by
  have hw := unitsWhere_congr hs.units hs.started
  exact ⟨by rw [hs.reserved, hw, h.reserved], by rw [hs.running, hw, h.running], by rw [hs.units]; exact h.units⟩

theorem dropBatch (h : wr.Balanced) (b : BatchId) : (wr.dropBatch b).Balanced := by
  have hunits : ∀ b' u, (wr.dropBatch b).batchUnits.lookup b' = some u → 0 ≤ u := by
    intro b' u hb'
    simp only [WorkerRecord.dropBatch, Table.lookup_erase_eq] at hb'
    split at hb'
    · cases hb'
    · exact h.units b' u hb'
  have hr := unitsWhere_nonneg hunits false
  have hs := unitsWhere_nonneg hunits true
  rw [unitsWhere_dropBatch] at hr hs
  refine ⟨?_, ?_, hunits⟩
  · rw [unitsWhere_dropBatch]
    cases hst : wr.started b <;>
      simp only [WorkerRecord.dropBatch, hst, h.reserved, reduceCtorEq, ↓reduceIte, sub_zero] at hr ⊢ <;>
      exact clamp0_of_nonneg hr
  · rw [unitsWhere_dropBatch]
    cases hst : wr.started b <;>
      simp only [WorkerRecord.dropBatch, hst, h.running, reduceCtorEq, ↓reduceIte, sub_zero] at hs ⊢ <;>
      exact clamp0_of_nonneg hs

theorem reserved_dropBatch (h : wr.Balanced) (b : BatchId) :
    (wr.dropBatch b).reservedUnits = if wr.started b then wr.reservedUnits else wr.reservedUnits - wr.unitsOf b := by
  rw [(h.dropBatch b).reserved, unitsWhere_dropBatch, ← h.reserved]
  cases wr.started b <;> simp

theorem running_dropBatch (h : wr.Balanced) (b : BatchId) :
    (wr.dropBatch b).runningUnits = if wr.started b then wr.runningUnits - wr.unitsOf b else wr.runningUnits := by
  rw [(h.dropBatch b).running, unitsWhere_dropBatch, ← h.running]
  cases wr.started b <;> simp

theorem takeBatch {b : BatchId} {units : ℤ} (h : wr.Balanced) (members : List RequestId)
    (hb : wr.batchUnits.lookup b = none) (hs : b ∉ wr.startedBatches) (hu : 0 ≤ units) :
    (wr.takeBatch b units members).Balanced := by
  refine ⟨?_, ?_, fun b' u hb' => ?_⟩
  · rw [unitsWhere_takeBatch hb hs, ← h.reserved]
    rfl
  · rw [unitsWhere_takeBatch hb hs, ← h.running]
    exact (add_zero _).symm
  · simp only [WorkerRecord.takeBatch, Table.lookup_insert_eq] at hb'
    split at hb'
    · cases hb'
      exact hu
    · exact h.units b' u hb'

theorem startMember (h : wr.Balanced) (b : BatchId) (rid : RequestId) (att : AttemptId) (snap : ResourceSnapshot) :
    (wr.startMember b rid att snap).Balanced := by
  refine ⟨?_, ?_, h.units⟩
  · rw [unitsWhere_startMember, ← h.reserved]
    rfl
  · rw [unitsWhere_startMember, ← h.running]
    rfl

theorem sum_units (h : wr.Balanced) : (wr.batchUnits.sum fun _ u => u) = wr.reservedUnits + wr.runningUnits := by
  rw [h.reserved, h.running, unitsWhere, unitsWhere, ← Table.sum_add]
  refine Table.sum_congr fun b u _ => ?_
  cases wr.started b <;> simp

/-- The sweep gives every batch back as reserved, so it balances the worker
only if none has started. -/
theorem sweep (h : wr.Balanced) (hst : wr.runningUnits = 0) :
    wr.sweep.Balanced ∧ wr.sweep.reservedUnits = 0 ∧ wr.sweep.runningUnits = 0 := by
  have hr : wr.sweep.reservedUnits = 0 := by
    simp only [WorkerRecord.sweep, h.sum_units, hst]
    simp [clamp0]
  have hs : wr.sweep.runningUnits = 0 := by
    simp only [WorkerRecord.sweep, hst]
    rfl
  exact ⟨⟨hr, hs, by simp [WorkerRecord.sweep]⟩, hr, hs⟩

end Balanced

end WorkerRecord

/-! ## What a pool operation does to the workers -/

namespace Pool

variable {p : Pool} {w : WorkerId}

theorem find_putWorker (p : Pool) (wr : WorkerRecord) (w' : WorkerId) :
    (p.putWorker wr).workers.find w' = if wr.id = w' then some wr else p.workers.find w' :=
  Keyed.find_put _ _ _

/-- Storing a record for a worker that is known. -/
theorem find_putWorker_of_find {wr : WorkerRecord} (wr' : WorkerRecord) (h : p.workers.find w = some wr)
    (hid : wr'.id = wr.id) (w' : WorkerId) : (p.putWorker wr').workers.find w' =
      if w = w' then (p.workers.find w').map fun _ => wr' else p.workers.find w' := by
  rw [find_putWorker, hid, show wr.id = w from Keyed.key_of_find h]
  split
  · next hw => rw [← hw, h]; rfl
  · rfl

theorem find_sweep_self (p : Pool) (w : WorkerId) :
    (p.sweep w).workers.find w = (p.workers.find w).map WorkerRecord.sweep := by
  unfold sweep
  split
  · next h => rw [h]; rfl
  · next wr h =>
    have hid : wr.id = w := Keyed.key_of_find h
    rw [h, Option.map_some, Keyed.find_put, if_pos (show wr.sweep.id = w from hid)]

theorem find_releaseBatch (p : Pool) (w : WorkerId) (b : BatchId) (w' : WorkerId) :
    (p.releaseBatch w b).workers.find w' =
      if w = w' then (p.workers.find w').map (·.dropBatch b) else p.workers.find w' := by
  unfold releaseBatch
  split
  · next h =>
    split
    · next hw => rw [← hw, h]; rfl
    · rfl
  · next wr h =>
    have hput := find_putWorker_of_find (wr.dropBatch b) h rfl w'
    refine hput.trans ?_
    split
    · next hw => rw [← hw, h]; rfl
    · rfl

theorem find_leaveBatch (p : Pool) (w : WorkerId) (b : BatchId) (w' : WorkerId) :
    (p.leaveBatch w b).workers.find w' =
      if w = w' then (p.workers.find w').map (·.leaveBatch b) else p.workers.find w' := by
  unfold leaveBatch
  split
  · next h =>
    split
    · next hw => rw [← hw, h]; rfl
    · rfl
  next wr h =>
  split
  · next hn =>
    split
    · next hw => rw [← hw, h]; simp [WorkerRecord.leaveBatch, hn]
    · rfl
  next n hn =>
  have hput := find_putWorker_of_find
    { wr with batchPending := wr.batchPending.insert b (n - 1) } h rfl w'
  simp only
  split
  · next hle =>
    rw [find_releaseBatch, hput]
    split
    · next hw => rw [← hw, h]; simp only [Option.map_some, WorkerRecord.leaveBatch, hn, hle, ↓reduceIte]
    · rfl
  · next hle =>
    rw [hput]
    split
    · next hw => rw [← hw, h]; simp only [Option.map_some, WorkerRecord.leaveBatch, hn, hle, ↓reduceIte]
    · rfl

/-- A member leaves: its worker lets it go, the other workers stay. -/
theorem find_releaseMember (p : Pool) (w : WorkerId) (rec : RequestRecord) (w' : WorkerId) :
    (p.releaseMember w rec).workers.find w' =
      if w = w' then (p.workers.find w').map (·.leave rec) else p.workers.find w' := by
  unfold releaseMember
  split
  · next h =>
    split
    · next hw => rw [← hw, h]; rfl
    · rfl
  next wr h =>
  have hput := find_putWorker_of_find
    { wr with inFlight := wr.inFlight.erase rec.requestId } h rfl w'
  simp only
  split
  · next hin =>
    rw [find_leaveBatch, hput]
    split
    · next hw => rw [← hw, h]; simp [WorkerRecord.leave, hin]
    · rfl
  · next hin =>
    rw [hput]
    split
    · next hw => rw [← hw, h]; simp [WorkerRecord.leave, hin]
    · rfl

theorem find_releaseMember_cases {rec : RequestRecord} {w' : WorkerId} {wr wr' : WorkerRecord}
    (hw : p.workers.find w = some wr) (h : (p.releaseMember w rec).workers.find w' = some wr') :
    w = w' ∧ wr' = wr.leave rec ∨ w ≠ w' ∧ p.workers.find w' = some wr' := by
  rw [find_releaseMember] at h
  split at h
  · next he =>
    rw [← he, hw] at h
    exact .inl ⟨he, (Option.some.inj h).symm⟩
  · next he => exact .inr ⟨he, h⟩

theorem find_reserve {wr : WorkerRecord} (h : p.workers.find w = some wr) (b : BatchId) (units : ℤ)
    (members : List RequestId) (w' : WorkerId) : (p.reserve w b units members).workers.find w' =
      if w = w' then some (wr.takeBatch b units members) else p.workers.find w' := by
  have hid : wr.id = w := Keyed.key_of_find h
  simp only [reserve, h, Keyed.find_put]
  rw [show (wr.takeBatch b units members).id = w from hid]

theorem find_start (p : Pool) (wr : WorkerRecord) (b : BatchId) (rid : RequestId) (att : AttemptId)
    (snap : ResourceSnapshot) (w' : WorkerId) : (p.start wr b rid att snap).workers.find w' =
      if wr.id = w' then some (wr.startMember b rid att snap) else p.workers.find w' :=
  Keyed.find_put _ _ _

/-! ## The balance of a pool -/

/-- Every worker is balanced and the global counters are the sums. -/
structure Balanced (p : Pool) : Prop where
  workers : ∀ w wr, p.workers.find w = some wr → wr.Balanced
  reserved : p.globalReservedUnits = p.workers.sum (·.reservedUnits)
  running : p.globalRunningUnits = p.workers.sum (·.runningUnits)

namespace Balanced

theorem init : Balanced {} := ⟨by simp, rfl, rfl⟩

theorem running_nonneg (h : p.Balanced) : 0 ≤ p.globalRunningUnits := by
  rw [h.running]
  exact Keyed.sum_nonneg fun w wr hw => (h.workers w wr hw).running_nonneg

/-- Exchanging the record of a worker, with the difference booked globally. -/
theorem exchange {wr wr' : WorkerRecord} (h : p.Balanced) (hf : p.workers.find w = some wr) (hw : wr'.Balanced)
    (hid : wr'.id = wr.id) {p' : Pool} (hworkers : p'.workers = p.workers.put wr')
    (hr : p'.globalReservedUnits = p.globalReservedUnits - wr.reservedUnits + wr'.reservedUnits)
    (hs : p'.globalRunningUnits = p.globalRunningUnits - wr.runningUnits + wr'.runningUnits) : p'.Balanced := by
  have hf : p.workers.find wr'.id = some wr := by
    rw [hid, show wr.id = w from Keyed.key_of_find hf]
    exact hf
  refine ⟨fun w' wr'' hf' => ?_, ?_, ?_⟩
  · rw [hworkers, Keyed.find_put] at hf'
    split at hf'
    · cases hf'
      exact hw
    · exact h.workers w' wr'' hf'
  · rw [hworkers, Keyed.sum_put hf, hr, h.reserved]
  · rw [hworkers, Keyed.sum_put hf, hs, h.running]

theorem putWorker {wr : WorkerRecord} (h : p.Balanced) (wr' : WorkerRecord) (hf : p.workers.find w = some wr)
    (hid : wr'.id = wr.id) (hs : wr.SameUnits wr') : (p.putWorker wr').Balanced := by
  refine h.exchange hf ((h.workers w wr hf).of_sameUnits hs) hid rfl ?_ ?_
  · rw [hs.reserved]
    simp [Pool.putWorker]
  · rw [hs.running]
    simp [Pool.putWorker]

/-- A worker record is written that holds what the one before held. -/
theorem setWorker {wr : WorkerRecord} (h : p.Balanced) (hs : ((p.workers.find wr.id).getD {}).SameWork wr) :
    (p.putWorker wr).Balanced := by
  obtain ⟨hres, hrun, hunits, _, _, hst, _⟩ := hs
  cases hf : p.workers.find wr.id with
  | some old =>
    simp only [hf, Option.getD_some] at hres hrun hunits hst
    have hnn := (h.workers _ old hf).reserved_nonneg
    refine h.putWorker wr hf (Keyed.key_of_find hf).symm ⟨?_, hrun, hunits, hst⟩
    rcases hres with hres | hres
    · exact hres
    · rw [hres, clamp0_of_nonneg hnn]
  | none =>
    simp only [hf, Option.getD_none] at hres hrun hunits hst
    have hres : wr.reservedUnits = 0 := hres.elim id id
    refine ⟨fun w' wr' hf' => ?_, ?_, ?_⟩
    · rw [find_putWorker] at hf'
      split at hf'
      · cases hf'
        exact WorkerRecord.Balanced.default.of_sameUnits ⟨hres, hrun, hunits, hst⟩
      · exact h.workers w' wr' hf'
    · simp only [Pool.putWorker, Keyed.sum_put_of_none hf, hres, h.reserved, add_zero]
    · simp only [Pool.putWorker, Keyed.sum_put_of_none hf, hrun, h.running, add_zero]

theorem le_reserved {wr : WorkerRecord} (h : p.Balanced) (hf : p.workers.find w = some wr) :
    wr.reservedUnits ≤ p.globalReservedUnits := by
  rw [h.reserved]
  exact Keyed.le_sum hf fun w wr hw => (h.workers w wr hw).reserved_nonneg

theorem le_running {wr : WorkerRecord} (h : p.Balanced) (hf : p.workers.find w = some wr) :
    wr.runningUnits ≤ p.globalRunningUnits := by
  rw [h.running]
  exact Keyed.le_sum hf fun w wr hw => (h.workers w wr hw).running_nonneg

theorem releaseBatch (h : p.Balanced) (w : WorkerId) (b : BatchId) : (p.releaseBatch w b).Balanced := by
  unfold Pool.releaseBatch
  split
  · exact h
  next wr hf =>
  have hw := h.workers w wr hf
  have hd := hw.dropBatch b
  have hr := hd.reserved_nonneg
  have hs := hd.running_nonneg
  have hgr := h.le_reserved hf
  have hgs := h.le_running hf
  -- The worker's own clamps have no effect, so neither have the global ones.
  rw [hw.reserved_dropBatch] at hr
  rw [hw.running_dropBatch] at hs
  refine h.exchange hf hd rfl rfl ?_ ?_
  · rw [hw.reserved_dropBatch]
    cases hst : wr.started b <;> simp only [hst, Bool.false_eq_true, ↓reduceIte] at hr ⊢ <;>
      rw [clamp0_of_nonneg (by omega)] <;> omega
  · rw [hw.running_dropBatch]
    cases hst : wr.started b <;> simp only [hst, Bool.false_eq_true, ↓reduceIte] at hs ⊢ <;>
      rw [clamp0_of_nonneg (by omega)] <;> omega

theorem leaveBatch (h : p.Balanced) (w : WorkerId) (b : BatchId) : (p.leaveBatch w b).Balanced := by
  unfold Pool.leaveBatch
  split
  · exact h
  next wr hf =>
  split
  · exact h
  next n hn =>
  have hput := h.putWorker { wr with batchPending := wr.batchPending.insert b (n - 1) } hf
    rfl ⟨rfl, rfl, rfl, rfl⟩
  simp only
  split
  · exact hput.releaseBatch w b
  · exact hput

theorem releaseMember (h : p.Balanced) (w : WorkerId) (rec : RequestRecord) : (p.releaseMember w rec).Balanced := by
  unfold Pool.releaseMember
  split
  · exact h
  next wr hf =>
  have hput := h.putWorker { wr with inFlight := wr.inFlight.erase rec.requestId } hf
    rfl ⟨rfl, rfl, rfl, rfl⟩
  simp only
  split
  · exact hput.leaveBatch w rec.batchId
  · exact hput

theorem reserve {wr : WorkerRecord} {b : BatchId} {units : ℤ} (members : List RequestId) (h : p.Balanced)
    (hf : p.workers.find w = some wr) (hb : wr.batchUnits.lookup b = none) (hs : b ∉ wr.startedBatches)
    (hu : 0 ≤ units) : (p.reserve w b units members).Balanced := by
  have hw := (h.workers w wr hf).takeBatch members hb hs hu
  simp only [Pool.reserve, hf]
  refine h.exchange hf hw rfl rfl ?_ ?_ <;>
    simp only [WorkerRecord.takeBatch] <;> omega

theorem start {wr : WorkerRecord} (h : p.Balanced) (hf : p.workers.find wr.id = some wr) (b : BatchId)
    (rid : RequestId) (att : AttemptId) (snap : ResourceSnapshot) : (p.start wr b rid att snap).Balanced := by
  refine h.exchange hf ((h.workers _ wr hf).startMember b rid att snap) rfl rfl ?_ ?_ <;>
    simp only [Pool.start, WorkerRecord.startMember] <;> omega

theorem sweep {wr : WorkerRecord} (h : p.Balanced) (hf : p.workers.find w = some wr) (hst : wr.runningUnits = 0) :
    (p.sweep w).Balanced := by
  have hw := h.workers w wr hf
  obtain ⟨hbal, hr, hs⟩ := hw.sweep hst
  have hgr := h.le_reserved hf
  have hgs := h.running_nonneg
  simp only [Pool.sweep, hf, hw.sum_units, hst, add_zero]
  refine h.exchange hf hbal rfl rfl ?_ ?_
  · simp only [hr]
    rw [clamp0_of_nonneg (by omega)]
    omega
  · simp only [hs, hst]
    rw [clamp0_of_nonneg hgs]
    omega

/-- Forgetting a worker that holds nothing. -/
theorem erase {wr : WorkerRecord} (h : p.Balanced) (hf : p.workers.find w = some wr) (hr : wr.reservedUnits = 0)
    (hs : wr.runningUnits = 0) : Balanced { p with workers := p.workers.erase w } := by
  refine ⟨fun w' wr' hf' => ?_, ?_, ?_⟩
  · simp only [Keyed.find_erase] at hf'
    split at hf'
    · cases hf'
    · exact h.workers w' wr' hf'
  · simp only [Keyed.sum_erase hf, hr, h.reserved, sub_zero]
  · simp only [Keyed.sum_erase hf, hs, h.running, sub_zero]

end Balanced

end Pool

end InferenceScheduler
