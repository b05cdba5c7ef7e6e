/-
Losing a worker. `recover_in_flight` retries or fails the requests the worker
lists in flight, one after the other, and then gives back the batches it still
holds as if none had started. A request that is reserved on the worker and has
not started is in no list, and a batch of which some member has not started
stays behind, its units counted as running.
-/
import InferenceScheduler.Sturdy

namespace InferenceScheduler

open Machine

/-! ## Recovery of one request -/

/-- The loop body of `recover_in_flight`. -/
def Core.recover (w : WorkerId) (boot : WorkerBootId) (c : Core) (rid : RequestId) : Core :=
  match c.requests.find rid with
  | none => c
  | some rec =>
    if isTerminal rec.state then c
    else if Impl.canRetry c.cfg rec c.now then c.act (.retry rec (Impl.restartReport w boot rec))
    else c.act (.finish rec w (.failed (Impl.restartReport w boot rec)))

theorem recoverRequest_core (w : WorkerId) (boot : WorkerBootId) (s : Impl) (rid : RequestId) :
    (Impl.recoverRequest w boot s rid).core = s.core.recover w boot rid := by
  cases hf : s.requests.find rid with
  | none => simp only [Impl.recoverRequest, Core.recover, hf, show s.core.requests.find rid = none from hf]
  | some rec =>
    simp only [Impl.recoverRequest, Core.recover, hf, show s.core.requests.find rid = some rec from hf]
    split
    · rfl
    · split
      · next hc =>
        rw [(Impl.makeRetry_enters ..).core]
        exact (if_pos hc).symm
      · next hc =>
        rw [(Impl.finishFailed_enters ..).core]
        exact (if_neg hc).symm

/-- A request starts over, or it is over. -/
def Restarted (rec rec' : RequestRecord) : Prop :=
  isTerminal rec'.state = true ∨
    rec'.state = .queued ∧ rec'.currentAttempt ≠ rec.currentAttempt ∧ rec'.generation ≠ rec.generation

/-- What the recovery of a live request from `c` does. -/
structure Recovers (w : WorkerId) (rid : RequestId) (rec : RequestRecord) (c c' : Core) : Prop where
  found : c.requests.find rid = some rec
  live : isTerminal rec.state = false
  pool : c'.pool = c.pool.releaseMember w rec
  others : ∀ r, r ≠ rid → c'.requests.find r = c.requests.find r
  move : ∃ m, Enabled c m ∧ c' = c.act m ∧ (∀ w, m ≠ .sweep w) ∧ ∀ w, m ≠ .dropWorker w
  restarted : ∀ {f : IdFactory}, Sturdy f c → f.Extends c'.ids →
    ∃ rec', c'.requests.find rid = some rec' ∧ Restarted rec rec'

theorem Core.recover_cases {c : Core} {w : WorkerId} (boot : WorkerBootId) (rid : RequestId)
    (hw : (c.pool.workers.find w).isSome) :
    (c.recover w boot rid = c ∧ ∀ rec, c.requests.find rid = some rec → isTerminal rec.state = true) ∨
      ∃ rec, Recovers w rid rec c (c.recover w boot rid) := by
  unfold recover
  split
  · next hf => exact .inl ⟨rfl, fun rec h => absurd (hf.symm.trans h) (by simp)⟩
  next rec hf =>
  split
  · next ht =>
    refine .inl ⟨rfl, fun rec' h => ?_⟩
    obtain rfl : rec = rec' := Option.some.inj (hf.symm.trans h)
    exact ht
  next ht =>
  have ht : isTerminal rec.state = false := by simpa using ht
  have hid : rec.requestId = rid := Keyed.key_of_find hf
  have hrec : c.Holds rec := Keyed.find_key hf
  right
  refine ⟨rec, ?_⟩
  -- Either way one record is written, over the one found.
  have hothers : ∀ {fin : RequestRecord}, fin.requestId = rec.requestId → ∀ r, r ≠ rid →
      (c.requests.put fin).find r = c.requests.find r := by
    intro fin hfin r hr
    refine Keyed.find_put_ne c.requests ?_
    rw [hfin, hid]
    exact hr.symm
  split
  · next hc =>
    have hen : Enabled c (.retry rec (Impl.restartReport w boot rec)) := ⟨hrec, ht, hw, hc⟩
    refine ⟨hf, ht, rfl, hothers (c.pool.released_requestId _ _), ⟨_, hen, rfl, by simp, by simp⟩, fun hs he => ?_⟩
    obtain ⟨ha, hg⟩ := hs.unspent rid rec hf ht
    refine ⟨_, hid ▸ find_of_writes .retry hen hrec, .inr ⟨rfl, fun heq => ?_, fun heq => ?_⟩⟩
    · exact (ha.of_extends c.ids.extends_tick).peek_ne he (congrArg Id.value heq)
    · exact hg.peek_ne (he.trans c.ids.tick.extends_tick) (congrArg Id.value heq)
  · have hen : Enabled c (.finish rec w (.failed (Impl.restartReport w boot rec))) := ⟨hrec, ht, hw, by simp⟩
    refine ⟨hf, ht, rfl, hothers ?_, ⟨_, hen, rfl, by simp, by simp⟩, fun _ _ => ?_⟩
    · rw [Ending.close_requestId, Pool.released_requestId, Ending.note_requestId]
    · exact ⟨_, hid ▸ find_of_writes .finish hen hrec, .inl rfl⟩

/-! ## Recovery of the requests in flight -/

section

variable {f : IdFactory} {w : WorkerId} {boot : WorkerBootId}

theorem Core.recover_extends (c : Core) (rid : RequestId) : (c.recover w boot rid).ids.Extends c.ids := by
  unfold recover
  split
  · exact .refl _
  · split
    · exact .refl _
    · split <;> exact c.act_ids_extends _

theorem Core.foldl_recover_extends : ∀ (l : List RequestId) (c : Core),
    (l.foldl (recover w boot) c).ids.Extends c.ids
  | [], _ => .refl _
  | rid :: l, c => (foldl_recover_extends l (c.recover w boot rid)).trans (c.recover_extends rid)

theorem Recovers.sturdy {rid : RequestId} {rec : RequestRecord} {c c' : Core} (h : Recovers w rid rec c c')
    (hs : Sturdy f c) (hd : f.Distinct) (he : f.Extends c'.ids) : Sturdy f c' := by
  obtain ⟨m, hen, rfl, hsweep, hdrop⟩ := h.move
  exact hs.act hen (hs.balanced_act hen hsweep hdrop (hd.of_extends he)) hd he

theorem Recovers.find_worker {rid : RequestId} {rec : RequestRecord} {c c' : Core} (h : Recovers w rid rec c c') :
    c'.pool.workers.find w = (c.pool.workers.find w).map (·.leave rec) := by
  rw [h.pool, Pool.find_releaseMember, if_pos rfl]

theorem Recovers.known {rid : RequestId} {rec : RequestRecord} {c c' : Core} (h : Recovers w rid rec c c')
    (hw : (c.pool.workers.find w).isSome) : (c'.pool.workers.find w).isSome := by
  rw [h.find_worker, Option.isSome_map]
  exact hw

/-- After the recovery of the requests of `l`. -/
structure Evacuated (f : IdFactory) (w : WorkerId) (l : List RequestId) (c c' : Core) : Prop where
  sturdy : Sturdy f c'
  known : (c'.pool.workers.find w).isSome
  others : ∀ r, r ∉ l → c'.requests.find r = c.requests.find r
  restarted : ∀ r ∈ l, ∀ rec, c.requests.find r = some rec → isTerminal rec.state = false →
    ∃ rec', c'.requests.find r = some rec' ∧ Restarted rec rec'

theorem evacuated_foldl (hd : f.Distinct) : ∀ (l : List RequestId) (c : Core), l.Nodup →
    (c.pool.workers.find w).isSome → Sturdy f c → f.Extends (l.foldl (Core.recover w boot) c).ids →
    Evacuated f w l c (l.foldl (Core.recover w boot) c)
  | [], c, _, hw, hs, _ => ⟨hs, hw, fun _ _ => rfl, by simp⟩
  | rid :: l, c, hn, hw, hs, he => by
    obtain ⟨hrid, hn⟩ := List.nodup_cons.1 hn
    rw [List.foldl_cons] at he ⊢
    have he₁ := he.trans (Core.foldl_recover_extends l _)
    rcases Core.recover_cases boot rid hw with ⟨hsame, hterm⟩ | ⟨rec₀, hrec⟩
    · rw [hsame] at he ⊢
      have ih := evacuated_foldl hd l c hn hw hs he
      refine ⟨ih.sturdy, ih.known, fun r hr => ih.others r fun h => hr (List.mem_cons_of_mem _ h), ?_⟩
      intro r hr rec hf ht
      rcases List.mem_cons.1 hr with rfl | hr
      · rw [hterm rec hf] at ht
        cases ht
      · exact ih.restarted r hr rec hf ht
    · have ih := evacuated_foldl hd l _ hn (hrec.known hw) (hrec.sturdy hs hd he₁) he
      refine ⟨ih.sturdy, ih.known, fun r hr => ?_, fun r hr rec hf ht => ?_⟩
      · rw [List.mem_cons, not_or] at hr
        obtain ⟨hne, hr⟩ := hr
        exact (ih.others r hr).trans (hrec.others r hne)
      · rcases List.mem_cons.1 hr with rfl | hmem
        · obtain rfl : rec = rec₀ := Option.some.inj (hf.symm.trans hrec.found)
          rw [ih.others r hrid]
          exact hrec.restarted hs he₁
        · refine ih.restarted r hmem rec ?_ ht
          rw [hrec.others r (by rintro rfl; exact hrid hmem)]
          exact hf

/-! ## The batches of the lost worker -/

/-- A live request in a batch. -/
def Core.inBatchOf (c : Core) (b : BatchId) (r : RequestId) : Bool :=
  (c.requests.find r).any fun rec => !isTerminal rec.state && rec.inBatch && rec.batchId == b

/-- The members pending in a started batch of a worker are among `l`. -/
def Covered (w : WorkerId) (l : List RequestId) (c : Core) : Prop :=
  ∀ wr, c.pool.workers.find w = some wr → ∀ b ∈ wr.startedBatches, ∀ n, wr.batchPending.lookup b = some n →
    n ≤ l.countP (c.inBatchOf b)

theorem Recovers.countP {rid : RequestId} {rec : RequestRecord} {c c' : Core} (h : Recovers w rid rec c c')
    {l : List RequestId} (hrid : rid ∉ l) (b : BatchId) : l.countP (c'.inBatchOf b) = l.countP (c.inBatchOf b) := by
  refine List.countP_congr fun r hr => ?_
  rw [Core.inBatchOf, Core.inBatchOf, h.others r (by rintro rfl; exact hrid hr)]

theorem Recovers.issued {rid : RequestId} {rec : RequestRecord} {c c' : Core} (h : Recovers w rid rec c c')
    (hs : Sturdy f c) (hi : rec.inBatch = true) : c.ids.Issued rec.batchId :=
  (hs.stamped.request rid rec h.found hi).1

/-- The member recovered is one less pending. -/
theorem Recovers.covered {rid : RequestId} {rec : RequestRecord} {c c' : Core} (h : Recovers w rid rec c c')
    (hs : Sturdy f c) (hvalid : c.ids.AllValid) {l : List RequestId} (hrid : rid ∉ l)
    (hcov : Covered w (rid :: l) c) : Covered w l c' := by
  intro wr' hf' b hb n' hn'
  obtain ⟨wr, hf, rfl⟩ := Option.map_eq_some_iff.1 (h.find_worker.symm.trans hf')
  have hb : b ∈ wr.startedBatches := by
    obtain ⟨_, _, he | he⟩ := wr.leave_cases rec <;> rw [he] at hb
    · exact hb
    · exact (USet.mem_erase.1 hb).2
  rw [h.countP hrid]
  have hcov := hcov wr hf b hb
  rw [List.countP_cons, Core.inBatchOf, h.found, Option.any_some, h.live, Bool.not_false, Bool.true_and] at hcov
  by_cases hin : rec.inBatch = true ∧ rec.batchId = b
  · obtain ⟨hi, rfl⟩ := hin
    have hv := IdFactory.valid_of_issued hvalid (h.issued hs hi)
    cases hn : wr.batchPending.lookup rec.batchId with
    | none =>
      simp only [WorkerRecord.leave, hi, hv, Bool.and_self, ↓reduceIte, WorkerRecord.leaveBatch, hn] at hn'
      cases hn'
    | some n =>
      rw [WorkerRecord.leave_pending hi hv hn, if_pos rfl] at hn'
      have := hcov n hn
      rw [if_pos (by simp [hi])] at this
      split at hn'
      · cases hn'
        omega
      · cases hn'
  · rw [WorkerRecord.leave_pending_ne hin] at hn'
    have := hcov n' hn'
    rw [if_neg (by simpa using hin)] at this
    omega

theorem covered_foldl (hids : f.Sound) : ∀ (l : List RequestId) (c : Core), l.Nodup →
    (c.pool.workers.find w).isSome → Sturdy f c → f.Extends (l.foldl (Core.recover w boot) c).ids → Covered w l c →
    Covered w [] (l.foldl (Core.recover w boot) c)
  | [], _, _, _, _, _, hcov => hcov
  | rid :: l, c, hn, hw, hs, he, hcov => by
    obtain ⟨hrid, hn⟩ := List.nodup_cons.1 hn
    rw [List.foldl_cons] at he ⊢
    have he₁ := he.trans (Core.foldl_recover_extends l _)
    rcases Core.recover_cases boot rid hw with ⟨hsame, hterm⟩ | ⟨rec₀, hrec⟩
    · rw [hsame] at he ⊢
      refine covered_foldl hids l c hn hw hs he fun wr hf b hb n hlook => ?_
      have hskip : c.inBatchOf b rid = false := by
        unfold Core.inBatchOf
        cases hf : c.requests.find rid with
        | none => rfl
        | some rec => simp [hterm rec hf]
      have := hcov wr hf b hb n hlook
      rwa [List.countP_cons, hskip, if_neg (by simp), Nat.add_zero] at this
    · have hvalid := hids.allValid.of_extends (he₁.trans (c.recover_extends rid))
      exact covered_foldl hids l _ hn (hrec.known hw) (hrec.sturdy hs hids.distinct he₁) he
        (hrec.covered hs hvalid hrid hcov)

/-- A worker none of whose started batches has members pending runs nothing. -/
theorem runningUnits_of_covered {c : Core} {wr : WorkerRecord} (hs : Sturdy f c) (hcov : Covered w [] c)
    (hf : c.pool.workers.find w = some wr) : wr.runningUnits = 0 := by
  rw [(hs.balanced.workers w wr hf).running]
  refine Table.sum_eq_zero fun b u hb => ?_
  split
  · next hst =>
    obtain ⟨n, hn, hpos⟩ := hs.pended w wr hf b (Table.mem_of_lookup hb)
    have := hcov wr hf b (by simpa [WorkerRecord.started] using hst) n hn
    rw [List.countP_nil] at this
    omega
  · rfl

end

/-! ## Losing a worker -/

/-- Recovery reaches all a worker holds: what is reserved on it has started,
and a started batch has no more members pending than are in flight. -/
structure Evacuable (s : Impl) (wr : WorkerRecord) : Prop where
  started : ∀ rec ∈ s.requests.records, rec.state = .reserved ∨ rec.state = .running → rec.inBatch = true →
    rec.batchId ∈ wr.batchUnits → rec.requestId ∈ wr.inFlight
  pending : ∀ e ∈ wr.batchPending.entries, e.1 ∈ wr.startedBatches →
    e.2 ≤ (Impl.inFlightIds wr).countP (s.core.inBatchOf e.1)

theorem foldl_recoverRequest_core (w : WorkerId) (boot : WorkerBootId) : ∀ (l : List RequestId) (s : Impl),
    (l.foldl (Impl.recoverRequest w boot) s).core = l.foldl (Core.recover w boot) s.core
  | [], _ => rfl
  | rid :: l, s => by
    rw [List.foldl_cons, List.foldl_cons, foldl_recoverRequest_core w boot l, recoverRequest_core]

theorem recoverInFlight_core {s : Impl} {w : WorkerId} {wr : WorkerRecord} (hf : s.pool.workers.find w = some wr) :
    (s.recoverInFlight w).core =
      ((Impl.inFlightIds wr).foldl (Core.recover w wr.registration.bootId) s.core).act (.sweep w) := by
  rw [← foldl_recoverRequest_core]
  simp only [Impl.recoverInFlight, hf]
  rfl

theorem inFlightIds_nodup (wr : WorkerRecord) : (Impl.inFlightIds wr).Nodup :=
  (List.perm_insertionSort _ _).nodup_iff.2 wr.inFlight.keys_nodup

theorem mem_inFlightIds {wr : WorkerRecord} {rid : RequestId} : rid ∈ Impl.inFlightIds wr ↔ rid ∈ wr.inFlight := by
  rw [Impl.inFlightIds, List.mem_insertionSort]
  rfl

/-- A loss leaves the requests as the rounds of the recovery do. -/
theorem requests_of_loses {s : Impl} {op : Op} {w : WorkerId} {wr : WorkerRecord} (hl : Loses s op w)
    (hf : s.pool.workers.find w = some wr) : (scheduler.next s op).requests =
      ((Impl.inFlightIds wr).foldl (Impl.recoverRequest w wr.registration.bootId) s).requests := by
  have hrec : (s.recoverInFlight w).requests =
      ((Impl.inFlightIds wr).foldl (Impl.recoverRequest w wr.registration.bootId) s).requests := by
    simp only [Impl.recoverInFlight, hf]
  rw [← hrec]
  cases hl with
  | unregister =>
    show (s.doUnregisterWorker w).1.requests = _
    simp only [Impl.doUnregisterWorker, hf]
    rfl
  | restart reg hb =>
    show (s.doRegisterWorker reg).requests = _
    simp only [Impl.doRegisterWorker, hb, ↓reduceIte]
    rfl

/-- The loss of a worker nobody knows changes nothing. -/
theorem next_of_loses_unknown {s : Impl} {op : Op} {w : WorkerId} (hl : Loses s op w)
    (hf : s.pool.workers.find w = none) : scheduler.next s op = s := by
  cases hl with
  | unregister => simp only [Machine.next, scheduler, Impl.step, Impl.doUnregisterWorker, hf]
  | restart reg hb =>
    obtain ⟨wr, hwr, _⟩ := (Option.any_eq_true _ _).1 hb
    cases hf.symm.trans hwr

/-- A worker that recovery reaches all of is left with nothing. -/
structure Emptied (f : IdFactory) (s : Impl) (w : WorkerId) (c : Core) : Prop where
  sturdy : Sturdy f c
  worker : ∃ wr, c.pool.workers.find w = some wr ∧ wr.reservedUnits = 0 ∧ wr.runningUnits = 0
  requests : ∀ r rec, s.requests.find r = some rec → rec.state = .reserved ∨ rec.state = .running →
    rec.inBatch = true → s.pool.Holds w rec.batchId → ∃ rec', c.requests.find r = some rec' ∧ Restarted rec rec'

section

variable {f : IdFactory} (hids : f.Sound)

include hids

theorem emptied_recoverInFlight {s : Impl} {w : WorkerId} {wr : WorkerRecord} (hs : Sturdy f s.core)
    (hf : s.pool.workers.find w = some wr) (hev : Evacuable s wr) (he : f.Extends (s.recoverInFlight w).core.ids) :
    Emptied f s w (s.recoverInFlight w).core := by
  rw [recoverInFlight_core hf] at he ⊢
  have hnodup := inFlightIds_nodup wr
  have hknown : (s.core.pool.workers.find w).isSome := Option.isSome_iff_exists.2 ⟨wr, hf⟩
  have hcov : Covered w (Impl.inFlightIds wr) s.core := by
    intro wr' hf' b hb n hn
    obtain rfl : wr = wr' := Option.some.inj (hf.symm.trans hf')
    exact hev.pending ⟨b, n⟩ (Table.mem_entries.2 hn) hb
  generalize hl : Impl.inFlightIds wr = l at he hnodup hcov ⊢
  have hgone := evacuated_foldl hids.distinct l s.core hnodup hknown hs he
  have hc := covered_foldl hids l s.core hnodup hknown hs he hcov
  obtain ⟨wr', hf'⟩ := Option.isSome_iff_exists.1 hgone.known
  have hrun := runningUnits_of_covered hgone.sturdy hc hf'
  have hsweep := (hgone.sturdy.balanced.workers w wr' hf').sweep hrun
  refine ⟨hgone.sturdy.act trivial (hgone.sturdy.balanced.sweep hf' hrun) hids.distinct he,
    ⟨wr'.sweep, ?_, hsweep.2⟩, ?_⟩
  · exact (Pool.find_sweep_self _ w).trans (by rw [hf', Option.map_some])
  · intro r rec hr hst hi hx
    obtain ⟨wr₁, hf₁, hb⟩ := hx
    obtain rfl : wr = wr₁ := Option.some.inj (hf.symm.trans hf₁)
    have hid : rec.requestId = r := Keyed.key_of_find hr
    have hmem := hev.started rec (Keyed.mem_records.2 (Keyed.find_key hr)) hst hi hb
    refine hgone.restarted r ?_ rec hr ?_
    · rw [← hl, mem_inFlightIds, ← hid]
      exact hmem
    · rcases hst with hst | hst <;> simp [hst, isTerminal]

end

/-- A loss strands nothing: what was on the worker starts over or is over, the
worker comes back with no unit in use, and the global counters are the units
of the batches the workers hold. -/
structure Unstranded (s s' : Impl) (w : WorkerId) : Prop where
  requests : ∀ r rec, s.requests.find r = some rec → rec.state = .reserved ∨ rec.state = .running →
    rec.inBatch = true → s.pool.Holds w rec.batchId → ∃ rec', s'.requests.find r = some rec' ∧ Restarted rec rec'
  worker : ∀ wr, s'.pool.workers.find w = some wr → wr.reservedUnits = 0 ∧ wr.runningUnits = 0
  reserved : s'.pool.globalReservedUnits = s'.pool.workers.sum fun wr =>
    wr.batchUnits.sum fun b u => if b ∈ wr.startedBatches then 0 else u
  running : s'.pool.globalRunningUnits = s'.pool.workers.sum fun wr =>
    wr.batchUnits.sum fun b u => if b ∈ wr.startedBatches then u else 0

/-- `requests`, as a check on one request that was reserved. -/
theorem Unstranded.not_reserved {s s' : Impl} {w : WorkerId} (h : Unstranded s s' w) (r : RequestId)
    (hr : (s.requests.find r).any (fun rec => rec.state == .reserved && rec.inBatch &&
      decide (s.pool.Holds w rec.batchId)) = true) :
    (s'.requests.find r).any (fun rec => rec.state == .reserved) = false := by
  obtain ⟨rec, hf, hrec⟩ := (Option.any_eq_true _ _).1 hr
  simp only [Bool.and_eq_true, beq_iff_eq, decide_eq_true_eq] at hrec
  obtain ⟨rec', hf', hres⟩ := h.requests r rec hf (.inl hrec.1.1) hrec.1.2 hrec.2
  rw [hf', Option.any_some, beq_eq_false_iff_ne]
  intro hs
  rcases hres with hres | hres <;> simp [hs, isTerminal] at hres

section

variable {f : IdFactory}

theorem unstranded_of_sturdy {s s' : Impl} {w : WorkerId} {c : Core} (hc : s'.core = c) (hs : Sturdy f c)
    (hreq : ∀ r rec, s.requests.find r = some rec → rec.state = .reserved ∨ rec.state = .running →
      rec.inBatch = true → s.pool.Holds w rec.batchId → ∃ rec', c.requests.find r = some rec' ∧ Restarted rec rec')
    (hw : ∀ wr, c.pool.workers.find w = some wr → wr.reservedUnits = 0 ∧ wr.runningUnits = 0) :
    Sturdy f s'.core ∧ Unstranded s s' w := by
  subst hc
  refine ⟨hs, hreq, hw, hs.balanced.reserved.trans ?_, hs.balanced.running.trans ?_⟩
  · exact Keyed.sum_congr fun w wr hf => by
      rw [(hs.balanced.workers w wr hf).reserved, WorkerRecord.unitsWhere_false]
  · exact Keyed.sum_congr fun w wr hf => by
      rw [(hs.balanced.workers w wr hf).running, WorkerRecord.unitsWhere_true]

theorem doUnregisterWorker_sturdy {s : Impl} {w : WorkerId} (hids : f.Sound) (hs : Sturdy f s.core)
    (hev : ∀ wr ∈ s.pool.workers.find w, Evacuable s wr) (he : f.Extends (s.doUnregisterWorker w).1.idFactory) :
    Sturdy f (s.doUnregisterWorker w).1.core ∧ Unstranded s (s.doUnregisterWorker w).1 w := by
  cases hf : s.pool.workers.find w with
  | none =>
    refine unstranded_of_sturdy (c := s.core) ?_ hs ?_ ?_
    · simp only [Impl.doUnregisterWorker, hf]
    · intro r rec _ _ _ hx
      obtain ⟨wr, hw, _⟩ := hx
      exact absurd (hf.symm.trans hw) (by simp)
    · intro wr hw
      exact absurd (hf.symm.trans hw) (by simp)
  | some wr =>
    have hcore : (s.doUnregisterWorker w).1.core = (s.recoverInFlight w).core.act (.dropWorker w) := by
      simp only [Impl.doUnregisterWorker, hf]
      rfl
    have he : f.Extends (s.doUnregisterWorker w).1.core.ids := he
    rw [hcore] at he
    have hempty := emptied_recoverInFlight hids hs hf (hev wr hf) (he.trans (Core.act_ids_extends _ _))
    obtain ⟨wr', hw', hr, hrun⟩ := hempty.worker
    have hbal := hempty.sturdy.balanced.erase hw' hr hrun
    refine unstranded_of_sturdy hcore (hempty.sturdy.act trivial hbal hids.distinct he) hempty.requests ?_
    intro wr₁ hw₁
    simp [Core.act, Keyed.find_erase] at hw₁

theorem doRegisterWorker_sturdy {s : Impl} {reg : WorkerRegistration} (hids : f.Sound) (hs : Sturdy f s.core)
    (hb : s.bootChanged reg = true) (hev : ∀ wr ∈ s.pool.workers.find reg.worker, Evacuable s wr)
    (he : f.Extends (s.doRegisterWorker reg).idFactory) :
    Sturdy f (s.doRegisterWorker reg).core ∧ Unstranded s (s.doRegisterWorker reg) reg.worker := by
  obtain ⟨wr, hf, _⟩ := (Option.any_eq_true _ _).1 hb
  have hcore : (s.doRegisterWorker reg).core = (s.recoverInFlight reg.worker).core.act (.setWorker
      (Impl.registered (((s.recoverInFlight reg.worker).pool.workers.find reg.worker).getD {}) reg)) := by
    simp only [Impl.doRegisterWorker, hb, ↓reduceIte]
    rfl
  have he : f.Extends (s.doRegisterWorker reg).core.ids := he
  rw [hcore] at he
  have hempty := emptied_recoverInFlight hids hs hf (hev wr hf) (he.trans (Core.act_ids_extends _ _))
  obtain ⟨wr', hw', hr, hrun⟩ := hempty.worker
  have hen := Impl.registered_sameWork
    (((s.recoverInFlight reg.worker).pool.workers.find reg.worker).getD {}) reg
  have hbal := hempty.sturdy.balanced.setWorker hen
  refine unstranded_of_sturdy hcore (hempty.sturdy.act hen hbal hids.distinct he) hempty.requests ?_
  intro wr₁ hw₁
  have hfind : (s.recoverInFlight reg.worker).pool.workers.find reg.worker = some wr' := hw'
  rw [show ((s.recoverInFlight reg.worker).core.act (.setWorker (Impl.registered
      (((s.recoverInFlight reg.worker).pool.workers.find reg.worker).getD {}) reg))).pool =
      (s.recoverInFlight reg.worker).pool.putWorker (Impl.registered
        (((s.recoverInFlight reg.worker).pool.workers.find reg.worker).getD {}) reg) from rfl,
    Pool.find_putWorker, if_pos (by rfl), hfind, Option.some.injEq] at hw₁
  subst hw₁
  exact ⟨by simp [Impl.registered, hr, clamp0], hrun⟩

/-! ## Runs -/

/-- A worker is lost only when recovery reaches all it holds. -/
def Recoverable (s : Impl) : Op → Prop
  | .unregisterWorker w => ∀ wr ∈ s.pool.workers.find w, Evacuable s wr
  | .registerWorker reg => s.bootChanged reg = true → ∀ wr ∈ s.pool.workers.find reg.worker, Evacuable s wr
  | _ => True

theorem step_sturdy {s : Impl} {op : Op} (hids : f.Sound) (hs : Sturdy f s.core) (hfresh : FreshSubmit s op)
    (hop : Recoverable s op) (he : f.Extends (scheduler.next s op).idFactory) :
    Sturdy f (scheduler.next s op).core ∧ ∀ w, Loses s op w → Unstranded s (scheduler.next s op) w := by
  by_cases hl : ∃ w, Loses s op w
  · obtain ⟨w, hl⟩ := hl
    cases hl with
    | unregister w =>
      obtain ⟨h₁, h₂⟩ := doUnregisterWorker_sturdy hids hs hop he
      refine ⟨h₁, fun w' hl => ?_⟩
      cases hl
      exact h₂
    | restart reg hb =>
      obtain ⟨h₁, h₂⟩ := doRegisterWorker_sturdy hids hs hb (hop hb) he
      refine ⟨h₁, fun w' hl => ?_⟩
      cases hl
      exact h₂
  · refine ⟨?_, fun w hw => absurd ⟨w, hw⟩ hl⟩
    refine (step_leads hfresh).invariant (m := moves) (I := fun c => f.Extends c.ids → Sturdy f c) ?_ (fun _ => hs) he
    intro c m ⟨hen, hdoes⟩ hc he
    have hst := hc (he.trans (c.act_ids_extends m))
    refine hst.act hen (hst.balanced_act hen ?_ ?_ (hids.distinct.of_extends he)) hids.distinct he
    · intro w heq
      subst heq
      cases hdoes with
      | sweep hw => exact hl ⟨w, hw⟩
    · intro w heq
      subst heq
      cases hdoes with
      | dropWorker => exact hl ⟨w, .unregister w⟩

instance (s : Impl) (wr : WorkerRecord) : Decidable (Evacuable s wr) :=
  decidable_of_iff ((∀ rec ∈ s.requests.records, rec.state = .reserved ∨ rec.state = .running → rec.inBatch = true →
      rec.batchId ∈ wr.batchUnits → rec.requestId ∈ wr.inFlight) ∧
    ∀ e ∈ wr.batchPending.entries, e.1 ∈ wr.startedBatches →
      e.2 ≤ (Impl.inFlightIds wr).countP (s.core.inBatchOf e.1))
    ⟨fun h => ⟨h.1, h.2⟩, fun h => ⟨h.started, h.pending⟩⟩

instance (s : Impl) (op : Op) : Decidable (Recoverable s op) := by
  apply @Op.casesOn _ op <;> (intros; dsimp only [Recoverable]; infer_instance)

/-- Submissions use new ids, workers are lost only when recovery reaches all they
hold, and a recovery from a file brings back nothing that was on a worker. -/
def Evacuates (f : IdFactory) (s : Impl) : ServiceOp → Prop
  | .op op => FreshSubmit s op ∧ Recoverable s op
  | .recover file => Restful f s file

instance (f : IdFactory) (s : Impl) : (op : ServiceOp) → Decidable (Evacuates f s op)
  | .op op => inferInstanceAs (Decidable (FreshSubmit s op ∧ Recoverable s op))
  | .recover file => inferInstanceAs (Decidable (Restful f s file))

theorem Sturdy.serve {s : Impl} {op : ServiceOp} (hids : f.Sound) (h : Sturdy f s.core) (hop : Evacuates f s op)
    (he : f.Extends (recoverable.next s op).idFactory) : Sturdy f (recoverable.next s op).core := by
  cases op with
  | op op => exact (step_sturdy hids h hop.1 hop.2 he).1
  | recover file =>
    show Sturdy f (s.doRecover file).1.core
    rcases s.doRecover_recovered file with heq | ⟨img, himg, hc⟩
    · rw [heq]
      exact h
    · obtain ⟨hunits, hspared⟩ := hop img himg
      exact .recovered hc hunits hspared

end

end InferenceScheduler
