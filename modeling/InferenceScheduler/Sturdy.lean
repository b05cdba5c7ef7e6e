/-
What holds of batches and ids in every run, whatever workers report: the
units add up, a batch held has members pending, the ids of batches were drawn,
and the attempts of the requests are not drawn again. Two moves ask for more: a
sweep keeps the balance only when the worker has nothing running, and only a
worker without units may be forgotten.
-/
import InferenceScheduler.Authority

namespace InferenceScheduler

/-- Every batch of a worker has members pending. -/
def WorkerRecord.Pended (wr : WorkerRecord) : Prop :=
  ∀ b ∈ wr.batchUnits, ∃ n, wr.batchPending.lookup b = some n ∧ 1 ≤ n

/-- `f` is the factory at the end of the run. -/
structure Sturdy (f : IdFactory) (c : Core) : Prop where
  balanced : c.pool.Balanced
  stamped : Stamped c
  loose : ∀ r rec, c.requests.find r = some rec → rec.inBatch = false → rec.batchId = .invalid
  pended : ∀ w wr, c.pool.workers.find w = some wr → wr.Pended
  started : ∀ w wr, c.pool.workers.find w = some wr → ∀ b ∈ wr.startedBatches, c.ids.Issued b
  unspent : ∀ r rec, c.requests.find r = some rec → isTerminal rec.state = false →
    c.ids.Spares f rec.currentAttempt.value ∧ c.ids.Spares f rec.generation.value

theorem Sturdy.init (f : IdFactory) (cfg : SchedulerConfig) (now : ClockTime) (salt : UInt64)
    (epoch : Option SchedulerEpoch) : Sturdy f (Impl.init cfg now salt epoch).core := by
  refine ⟨.init, .init cfg now salt epoch, ?_, ?_, ?_, ?_⟩ <;> simp [Impl.core, Impl.init]

/-! ## The records a move writes -/

theorem WorkerRecord.Pended.leave {wr : WorkerRecord} (h : wr.Pended) (rec : RequestRecord) :
    (wr.leave rec).Pended := by
  unfold WorkerRecord.leave
  simp only
  split
  · unfold WorkerRecord.leaveBatch
    simp only
    split
    · exact h
    · next n hn =>
      split
      · intro b hb
        obtain ⟨hne, hb⟩ := AList.mem_erase.1 hb
        obtain ⟨k, hk, hpos⟩ := h b hb
        refine ⟨k, ?_, hpos⟩
        simp only [WorkerRecord.dropBatch, Table.lookup_erase_eq, Table.lookup_insert_eq, if_neg (Ne.symm hne), hk]
      · intro b hb
        obtain ⟨k, hk, hpos⟩ := h b hb
        simp only [Table.lookup_insert_eq]
        split
        · exact ⟨n - 1, rfl, by omega⟩
        · exact ⟨k, hk, hpos⟩
  · exact h

theorem Updates.pended {c : Core} {m : Move} {wr wr' : WorkerRecord} (hu : Updates c m wr wr') (hen : Enabled c m)
    (h : wr.Pended) : wr'.Pended := by
  cases hu with
  | @reserve _ members =>
    intro b hb
    simp only [WorkerRecord.takeBatch, Table.lookup_insert_eq] at hb ⊢
    split
    · have := List.length_pos_iff.2 hen.2.1
      exact ⟨_, rfl, by omega⟩
    · next hne => exact h b (((AList.mem_insert _).1 hb).resolve_left (Ne.symm hne))
  | start => exact h
  | finish | cancel | retry => exact h.leave _
  | sweep => exact fun b hb => absurd hb (AList.notMem_empty b)
  | set _ hs =>
    intro b hb
    rw [hs.2.2.1] at hb
    rw [hs.2.2.2.1]
    exact h b hb

theorem Updates.started {c : Core} {m : Move} {wr wr' : WorkerRecord} {b : BatchId} (hu : Updates c m wr wr')
    (hb : b ∈ wr'.startedBatches) : b ∈ wr.startedBatches ∨ ∃ rec snap, m = .start rec wr snap ∧ b = rec.batchId := by
  cases hu with
  | reserve => exact .inl hb
  | @start rec _ snap => exact (USet.mem_insert.1 hb).symm.imp_right fun h => ⟨rec, snap, rfl, h⟩
  | @finish rec | @cancel rec | @retry rec =>
    left
    obtain ⟨_, _, he | he⟩ := wr.leave_cases rec <;> rw [he] at hb
    · exact hb
    · exact (USet.mem_erase.1 hb).2
  | sweep => exact absurd hb (USet.notMem_empty b)
  | set _ hs => exact .inl (hs.2.2.2.2.2.1 ▸ hb)

/-- Only a retry changes the ids of a request. -/
theorem Writes.ids {c : Core} {m : Move} {rec rec' : RequestRecord} (hw : Writes c m rec rec') :
    rec'.currentAttempt = rec.currentAttempt ∧ rec'.generation = rec.generation ∨
      rec'.currentAttempt = c.ids.tick.peek ∧ rec'.generation = c.ids.peek ∧ (c.act m).ids = c.ids.tick.tick := by
  cases hw with
  | retry => exact .inr ⟨rfl, rfl, rfl⟩
  | expire | reserve | start | flag => exact .inl ⟨rfl, rfl⟩
  | @finish _ w e =>
    left
    rcases c.pool.released_cases w (e.note c.now rec) with h | h <;> rw [h] <;> cases e <;> exact ⟨rfl, rfl⟩
  | @cancel _ asked w reason =>
    left
    rcases c.unworked_cases w { rec with cancelReason := asked } with h | h <;> rw [h] <;> exact ⟨rfl, rfl⟩

/-- A record that leaves its batch forgets its id. -/
theorem Writes.loose {c : Core} {m : Move} {rec rec' : RequestRecord} (hw : Writes c m rec rec')
    (h : rec.inBatch = false → rec.batchId = .invalid) (hi : rec'.inBatch = false) : rec'.batchId = .invalid := by
  cases hw with
  | retry => rfl
  | reserve => cases hi
  | expire | start | flag => exact h hi
  | @finish _ w e =>
    rcases c.pool.released_cases w (e.note c.now rec) with he | he <;> rw [he] at hi ⊢ <;> cases e <;>
      first | rfl | exact h hi
  | @cancel _ asked w reason =>
    rcases c.unworked_cases w { rec with cancelReason := asked } with he | he <;> rw [he] at hi ⊢ <;>
      first | rfl | exact h hi

/-! ## Moves -/

/-- Everything but the balance is kept by every move. -/
theorem Sturdy.act {f : IdFactory} {c : Core} {m : Move} (h : Sturdy f c) (hen : Enabled c m)
    (hbal : (c.act m).pool.Balanced) (hd : f.Distinct) (he : f.Extends (c.act m).ids) : Sturdy f (c.act m) := by
  have hext := c.act_ids_extends m
  -- Two ids drawn by the move are not drawn again.
  have hnew : (c.act m).ids = c.ids.tick.tick →
      (c.act m).ids.Spares f (c.ids.tick.peek : AttemptId).value ∧
        (c.act m).ids.Spares f (c.ids.peek : Generation).value := by
    intro hids
    rw [hids] at he ⊢
    exact ⟨IdFactory.spares_of_issued hd he c.ids.tick.issued_peek,
      IdFactory.spares_of_issued hd he (c.ids.issued_peek.of_extends c.ids.tick.extends_tick)⟩
  refine ⟨hbal, h.stamped.act hen, fun r rec' hf' hi => ?_, fun w wr' hf' => ?_, fun w wr' hf' b hb => ?_,
    fun r rec' hf' ht => ?_⟩
  · rcases Core.find_act hen hf' with hs | ⟨rec, hf, rfl | hw⟩
    · cases hs with
      | refuse => exact hen.2.2.2.1
      | accept => rfl
    · exact h.loose r rec' hf hi
    · exact hw.loose (h.loose r rec hf) hi
  · rcases Core.find_worker_act hen hf' with ⟨_, _, hs⟩ | ⟨wr, hf, rfl | hu⟩
    · intro b hb
      rw [hs.2.2.1] at hb
      exact absurd hb (AList.notMem_empty b)
    · exact h.pended w wr' hf
    · exact hu.pended hen (h.pended w wr hf)
  · rcases Core.find_worker_act hen hf' with ⟨_, _, hs⟩ | ⟨wr, hf, rfl | hu⟩
    · rw [hs.2.2.2.2.2.1] at hb
      exact absurd hb (USet.notMem_empty b)
    · exact (h.started w wr' hf b hb).of_extends hext
    · rcases hu.started hb with hb | ⟨rec, snap, rfl, rfl⟩
      · exact (h.started w wr hf b hb).of_extends hext
      · -- A valid batch id is that of a batch the request is in.
        refine ((h.stamped.request _ rec hen.1 ?_).1).of_extends hext
        by_contra hi
        simp only [Bool.not_eq_true] at hi
        have hv := hen.2.2.2
        rw [h.loose _ rec hen.1 hi] at hv
        cases hv
  · rcases Core.find_act hen hf' with hs | ⟨rec, hf, rfl | hw⟩
    · cases hs with
      | refuse =>
        rw [hen.2.1] at ht
        cases ht
      | accept => exact hnew rfl
    · obtain ⟨ha, hg⟩ := h.unspent r rec' hf ht
      exact ⟨ha.of_extends hext, hg.of_extends hext⟩
    · rcases hw.ids with ⟨ha, hg⟩ | ⟨ha, hg, hids⟩
      · obtain ⟨ha₀, hg₀⟩ := h.unspent r rec hf (hw.not_terminal hen (Keyed.find_key hf))
        rw [ha, hg]
        exact ⟨ha₀.of_extends hext, hg₀.of_extends hext⟩
      · rw [ha, hg]
        exact hnew hids

/-- A move that neither sweeps nor forgets a worker keeps the balance. -/
theorem Sturdy.balanced_act {f : IdFactory} {c : Core} {m : Move} (h : Sturdy f c) (hen : Enabled c m)
    (hsweep : ∀ w, m ≠ .sweep w) (hdrop : ∀ w, m ≠ .dropWorker w) (hids : (c.act m).ids.Distinct) :
    (c.act m).pool.Balanced := by
  have hb := h.balanced
  cases m with
  | sweep w => exact absurd rfl (hsweep w)
  | dropWorker w => exact absurd rfl (hdrop w)
  | advance | draw | refuse | accept | expire | pop | sleep | flag => exact hb
  | reserve wr members =>
    rw [(c.act_reserve_frame wr members).2.2.1] at hids
    rw [(c.act_reserve_frame wr members).2.2.2]
    -- The worker has nothing under the id drawn.
    have hfresh : ∀ {b : BatchId}, c.ids.Issued b → b ≠ c.ids.peek :=
      fun hb => (IdFactory.peek_ne_of_issued hids hb).symm
    refine hb.reserve members hen.2.2.1 (AList.lookup_eq_none.2 fun hmem => ?_) (fun hmem => ?_)
      (c.batchUnits_nonneg members)
    · exact hfresh (h.stamped.worker _ wr hen.2.2.1 _ hmem).1 rfl
    · exact hfresh (h.started _ wr hen.2.2.1 _ hmem) rfl
  | start rec wr snap => exact hb.start hen.2.2.1 ..
  | finish rec w e => exact hb.releaseMember w rec
  | cancel rec asked w reason =>
    simp only [Core.act, Core.put]
    split
    · exact hb.releaseMember w rec
    · exact hb
  | retry rec r => exact hb.releaseMember r.worker rec
  | setWorker wr => exact hb.setWorker hen

/-! ## Recoveries -/

/-- A recovery of this file brings back no units in use, and no request that is
not over under an attempt or a generation drawn again until the factory is `f`. -/
def Restful (f : IdFactory) (s : Impl) (file : Option Binary.Bytes) : Prop :=
  ∀ img ∈ Impl.readBack file, (img.header.globalReservedUnits = 0 ∧ img.header.globalRunningUnits = 0) ∧
    ∀ r ∈ img.requests, r.live = true →
      s.idFactory.Spares f r.currentAttempt.value ∧ s.idFactory.Spares f r.generation.value

instance (f : IdFactory) (s : Impl) (file : Option Binary.Bytes) : Decidable (Restful f s file) := by
  unfold Restful
  infer_instance

/-- What a recovery reads runs nowhere, so the units add up if the totals it
reads are zero. -/
theorem Sturdy.recovered {f : IdFactory} {s : Impl} {img : SavedState} {c : Core} (hc : s.Recovered img c)
    (hunits : img.header.globalReservedUnits = 0 ∧ img.header.globalRunningUnits = 0)
    (hids : ∀ r ∈ img.requests, r.live = true →
      s.idFactory.Spares f r.currentAttempt.value ∧ s.idFactory.Spares f r.generation.value) : Sturdy f c := by
  have hidle : ∀ w wr, c.pool.workers.find w = some wr → wr.batchUnits = ∅ ∧ wr.startedBatches = ∅ ∧
      wr.reservedUnits = 0 ∧ wr.runningUnits = 0 := by
    intro w wr hw
    obtain ⟨saved, _, rfl⟩ := hc.worker hw
    exact ⟨rfl, rfl, rfl, rfl⟩
  refine ⟨?_, ⟨fun r rec hf hi => ?_, fun w wr hf b hb => ?_⟩, fun r rec hf _ => (hc.inBatch hf).2, fun w wr hf b hb => ?_,
    fun w wr hf b hb => ?_, fun r rec hf ht => ?_⟩
  · refine ⟨fun w wr hw => ?_, ?_, ?_⟩
    · obtain ⟨saved, _, rfl⟩ := hc.worker hw
      exact ⟨rfl, rfl, nofun⟩
    · rw [Keyed.sum_eq_zero fun w wr hw => (hidle w wr hw).2.2.1, hc.pool]
      exact hunits.1
    · rw [Keyed.sum_eq_zero fun w wr hw => (hidle w wr hw).2.2.2, hc.pool]
      exact hunits.2
  · rw [(hc.inBatch hf).1] at hi
    cases hi
  · rw [(hidle w wr hf).1] at hb
    exact absurd hb (AList.notMem_empty b)
  · rw [(hidle w wr hf).1] at hb
    exact absurd hb (AList.notMem_empty b)
  · rw [(hidle w wr hf).2.1] at hb
    exact absurd hb (USet.notMem_empty b)
  · obtain ⟨saved, hsaved, hlive, hrec⟩ := hc.saved hf
    rw [hc.ids]
    rcases hrec with rfl | rfl <;> exact hids saved hsaved (hlive ht)

end InferenceScheduler
