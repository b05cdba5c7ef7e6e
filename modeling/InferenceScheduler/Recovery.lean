/-
What comes back. A record that is saved and restored keeps what is written of
it (`Restored`), and the ready structures that `deserialize_locked` builds up
again hold the requests that were waiting, each counted once with its tenant.

Two things are lost on the way: the fields of a specification that are not
written, and everything that ties a request to the worker it was on.
-/
import InferenceScheduler.Persistence

namespace InferenceScheduler

open Binary

/-! ## Records -/

/-- An attempt on every written field. -/
structure AttemptRecord.Restored (a a' : AttemptRecord) : Prop where
  attemptId : a'.attemptId = a.attemptId
  generation : a'.generation = a.generation
  state : a'.state = a.state
  worker : a'.worker = a.worker
  batch : a'.batch = a.batch
  finalStatus : a'.finalStatus = a.finalStatus
  failureClass : a'.failureClass = a.failureClass
  errorMessage : a'.errorMessage = a.errorMessage
  outputTokens : a'.outputTokens = a.outputTokens
  workUnits : a'.workUnits = a.workUnits
  durationUs : a'.durationUs = a.durationUs

/-- A deadline moved to another clock: there is one as before, as many
milliseconds away. -/
structure Deadline.Moved (now now' : ClockTime) (d d' : Deadline) : Prop where
  valid : d'.valid = d.valid
  remaining : d'.remaining now' = d.remaining now

/-- A specification on every written field. -/
structure RequestSpec.Restored (now now' : ClockTime) (a b : RequestSpec) : Prop where
  tenant : b.tenant = a.tenant
  session : b.session = a.session
  sequence : b.sequence = a.sequence
  model : b.model = a.model
  revision : b.revision = a.revision
  adapter : b.adapter = a.adapter
  phase : b.phase = a.phase
  priority : b.priority = a.priority
  latencyClass : b.latencyClass = a.latencyClass
  tokens : b.tokens = a.tokens
  estimatedMemoryBytes : b.estimatedMemoryBytes = a.estimatedMemoryBytes
  maxBatchSize : b.maxBatchSize = a.maxBatchSize
  modelName : b.modelName = a.modelName
  demandMemoryBytes : b.demand.memoryBytes = a.demand.memoryBytes
  costUnits : b.demand.costUnits = a.demand.costUnits
  deadline : a.deadline.Moved now now' b.deadline

/-- A request on every written field; one that was admitted is queued. -/
structure RequestRecord.Restored (now now' : ClockTime) (rec rec' : RequestRecord) : Prop where
  requestId : rec'.requestId = rec.requestId
  state : rec'.state = if rec.state = .admitted then .queued else rec.state
  currentAttempt : rec'.currentAttempt = rec.currentAttempt
  generation : rec'.generation = rec.generation
  attemptsUsed : rec'.attemptsUsed = rec.attemptsUsed
  cancellationRequested : rec'.cancellationRequested = rec.cancellationRequested
  cancellationCommitted : rec'.cancellationCommitted = rec.cancellationCommitted
  cancelReason : rec'.cancelReason = rec.cancelReason
  terminalReason : rec'.terminalReason = rec.terminalReason
  spec : rec.spec.Restored now now' rec'.spec
  history : List.Forall₂ AttemptRecord.Restored rec.history rec'.history

/-- A worker on every written field. -/
structure WorkerRecord.Restored (wr wr' : WorkerRecord) : Prop where
  worker : wr'.registration.worker = wr.registration.worker
  node : wr'.registration.node = wr.registration.node
  accelerator : wr'.registration.accelerator = wr.registration.accelerator
  bootId : wr'.registration.bootId = wr.registration.bootId
  state : wr'.state = wr.state
  backend : wr'.registration.capability.backend = wr.registration.capability.backend
  deviceName : wr'.registration.capability.deviceName = wr.registration.capability.deviceName
  totalCapacityUnits :
    wr'.registration.capability.totalCapacityUnits = wr.registration.capability.totalCapacityUnits
  availableCapacityUnits :
    wr'.registration.capability.availableCapacityUnits = wr.registration.capability.availableCapacityUnits
  memoryBytesTotal : wr'.registration.capability.memoryBytesTotal = wr.registration.capability.memoryBytesTotal
  memoryBytesAvailable :
    wr'.registration.capability.memoryBytesAvailable = wr.registration.capability.memoryBytesAvailable
  models : wr'.registration.capability.models = wr.registration.capability.models
  revisions : wr'.registration.capability.revisions = wr.registration.capability.revisions
  adapters : wr'.registration.capability.adapters = wr.registration.capability.adapters
  phases : wr'.registration.capability.phases = wr.registration.capability.phases

theorem AttemptRecord.restored_save {a : AttemptRecord} (h : IsText a.errorMessage) : a.Restored a.save.restore where
  attemptId := rfl
  generation := rfl
  state := ofCode_codeOf (AttemptState.mem_all a.state) _
  worker := rfl
  batch := rfl
  finalStatus := CompletionStatus.ofInt_statusInt a.finalStatus
  failureClass := ofCode_codeOf (FailureClass.mem_all a.failureClass) _
  errorMessage := toText_ofText h
  outputTokens := rfl
  workUnits := rfl
  durationUs := rfl

theorem Id.restore_save {t : IdTag} (i : Id t) : i.save.restore = i := by
  unfold Id.save
  split
  · rfl
  · next h =>
    have hvalue : i.value = Id.invalidValue := by simpa [Id.valid] using h
    show (Id.invalid : Id t) = i
    rw [Id.invalid, ← hvalue]

theorem toMs_nonneg {d : ℤ} (h : 0 ≤ d) : 0 ≤ toMs d := Int.tdiv_nonneg h (by decide)

theorem Deadline.remaining_nonneg {d : Deadline} (h : d.valid = true) (now : ClockTime) : 0 ≤ d.remaining now := by
  obtain ⟨p, hp⟩ := Option.isSome_iff_exists.1 h
  simp only [remaining, hp]
  split
  · exact le_refl 0
  · next hpast => exact toMs_nonneg (not_lt.1 hpast)

theorem Deadline.remaining_after {ms : ℤ} (h : 0 ≤ ms) (now : ClockTime) : (after ms now).remaining now = ms := by
  have hdiff : now + ms * 1000000 - now = ms * 1000000 := by ring
  have hnonneg : ¬ms * 1000000 < 0 := by omega
  show (if now + ms * 1000000 - now < 0 then 0 else toMs (now + ms * 1000000 - now)) = ms
  rw [hdiff, if_neg hnonneg, toMs, Int.mul_tdiv_cancel ms (by decide)]

theorem Deadline.moved_save (d : Deadline) (now now' : ClockTime) :
    d.Moved now now' (if d.save now ≥ 0 then .after (d.save now) now' else {}) := by
  cases hv : d.valid with
  | true =>
    have hsave : d.save now = d.remaining now := by rw [Deadline.save, if_pos hv]
    have hnonneg := d.remaining_nonneg hv now
    rw [hsave, if_pos hnonneg]
    exact ⟨hv.symm ▸ rfl, Deadline.remaining_after hnonneg now'⟩
  | false =>
    have hsave : d.save now = -1 := by simp only [Deadline.save, hv, Bool.false_eq_true, ↓reduceIte]
    have hnone : d.point = none := by simpa [valid] using hv
    rw [hsave, if_neg (by decide)]
    exact ⟨by rw [hv]; rfl, by simp only [remaining, hnone]⟩

theorem RequestSpec.restored_save {rec : RequestRecord} (h : rec.Typed) (now now' : ClockTime) :
    rec.spec.Restored now now' ((rec.save now).restore now').spec where
  tenant := rfl
  session := rfl
  sequence := rfl
  model := rfl
  revision := rfl
  adapter := rec.spec.adapter.restore_save
  phase := RequestPhase.ofInt_phaseInt rec.spec.phase
  priority := PriorityClass.ofInt_priorityInt rec.spec.priority
  latencyClass := LatencyClass.ofInt_latencyInt rec.spec.latencyClass
  tokens := rfl
  estimatedMemoryBytes := rfl
  maxBatchSize := rfl
  modelName := toText_ofText h.modelName
  demandMemoryBytes := rfl
  costUnits := ofDouble_bits h.costUnits
  deadline := rec.spec.deadline.moved_save now now'

theorem RequestRecord.state_restore_save (rec : RequestRecord) (now now' : ClockTime) :
    ((rec.save now).restore now').state = rec.state :=
  ofCode_codeOf (RequestState.mem_all rec.state) _

theorem forall₂_restored {l : List AttemptRecord} (h : ∀ a ∈ l, IsText a.errorMessage) :
    List.Forall₂ AttemptRecord.Restored l ((l.map (·.save)).map (·.restore)) := by
  rw [List.map_map, List.forall₂_map_right_iff, List.forall₂_same]
  exact fun a ha => AttemptRecord.restored_save (h a ha)

/-- The record `enqueue_locked` stores. -/
def RequestRecord.requeue (rec : RequestRecord) : RequestRecord := { rec with state := .queued }

/-- A request that comes back: restored, and queued if it was waiting. -/
def RequestRecord.recovered (now now' : ClockTime) (rec : RequestRecord) : RequestRecord :=
  if Impl.waiting ((rec.save now).restore now') then ((rec.save now).restore now').requeue
  else (rec.save now).restore now'

theorem RequestRecord.waiting_restore_save (rec : RequestRecord) (now now' : ClockTime) :
    Impl.waiting ((rec.save now).restore now') = Impl.waiting rec := by
  rw [Impl.waiting, Impl.waiting, rec.state_restore_save now now']

theorem RequestRecord.recovered_eq (rec : RequestRecord) (now now' : ClockTime) :
    rec.recovered now now' =
      { (rec.save now).restore now' with state := if rec.state = .admitted then .queued else rec.state } := by
  have hstate := rec.state_restore_save now now'
  rw [recovered, waiting_restore_save]
  split
  · next hw =>
    have hqueued : (if rec.state = .admitted then RequestState.queued else rec.state) = .queued := by
      simp only [Impl.waiting, Bool.or_eq_true, beq_iff_eq] at hw
      split
      · rfl
      · next hne => exact hw.resolve_right hne
    rw [hqueued]
    rfl
  · next hw =>
    have hsame : (if rec.state = .admitted then RequestState.queued else rec.state) = rec.state := by
      simp only [Impl.waiting, Bool.or_eq_true, beq_iff_eq, not_or] at hw
      exact if_neg hw.2
    rw [hsame, ← hstate]

theorem RequestRecord.restored_recovered {rec : RequestRecord} (h : rec.Typed) (now now' : ClockTime) :
    rec.Restored now now' (rec.recovered now now') := by
  rw [recovered_eq]
  exact
    { requestId := rfl
      state := rfl
      currentAttempt := rfl
      generation := rfl
      attemptsUsed := rfl
      cancellationRequested := flag_ne_zero rec.cancellationRequested
      cancellationCommitted := flag_ne_zero rec.cancellationCommitted
      cancelReason := ofCode_codeOf (CancellationReason.mem_all rec.cancelReason) _
      terminalReason := toText_ofText h.terminalReason
      spec := RequestSpec.restored_save h now now'
      history := forall₂_restored h.attempts }

theorem WorkerRecord.restored_save {wr : WorkerRecord} (h : wr.Typed) : wr.Restored wr.save.restore where
  worker := rfl
  node := rfl
  accelerator := rfl
  bootId := rfl
  state := ofCode_codeOf (WorkerState.mem_all wr.state) _
  backend := toText_ofText h.backend
  deviceName := toText_ofText h.deviceName
  totalCapacityUnits := rfl
  availableCapacityUnits := rfl
  memoryBytesTotal := rfl
  memoryBytesAvailable := rfl
  models := rfl
  revisions := rfl
  adapters := rfl
  phases := by
    show (wr.registration.capability.phases.map phaseInt).map RequestPhase.ofInt = wr.registration.capability.phases
    rw [List.map_map]
    exact List.map_id'' RequestPhase.ofInt_phaseInt _

theorem TenantRecord.restore_save {t : TenantRecord} (h : Binary64.IsDouble t.weight) : t.save.restore = t := by
  show { t with weight := ofDouble (Binary64.bits t.weight) } = t
  rw [ofDouble_bits h]

/-! ## The queue, built up again -/

namespace Impl

section loop

/-- What the loop leaves alone. -/
theorem foldl_enqueueLocked_frame : ∀ (l : List RequestRecord) (s : Impl),
    (l.foldl enqueueLocked s).pool = s.pool ∧ (l.foldl enqueueLocked s).epochValue = s.epochValue ∧
      (l.foldl enqueueLocked s).globalAdmitted = s.globalAdmitted ∧
      (l.foldl enqueueLocked s).globalTokens = s.globalTokens ∧ (l.foldl enqueueLocked s).stats = s.stats
  | [], _ => ⟨rfl, rfl, rfl, rfl, rfl⟩
  | rec :: l, s => foldl_enqueueLocked_frame l (s.enqueueLocked rec)

theorem foldl_enqueueLocked_requests : ∀ (l : List RequestRecord) (s : Impl),
    (l.foldl enqueueLocked s).requests = l.foldl (fun t rec => t.put rec.requeue) s.requests
  | [], _ => rfl
  | rec :: l, s => foldl_enqueueLocked_requests l (s.enqueueLocked rec)

/-- The requests that wait are written anew, and all others stay. -/
theorem requests_rebuildReady (s : Impl) (id : RequestId) : s.rebuildReady.requests.find id =
    (s.requests.find id).map fun rec => if waiting rec then rec.requeue else rec := by
  have hloop : s.rebuildReady.requests.find id = _ :=
    congrArg (Keyed.find · id) (foldl_enqueueLocked_requests _ s.resetQueued)
  rw [hloop]
  exact s.requests.find_rewrite waiting (g := (·.requeue)) (fun _ => rfl) id

theorem foldl_enqueueLocked_globalQueued : ∀ (l : List RequestRecord) (s : Impl),
    (l.foldl enqueueLocked s).ready.globalQueued = s.ready.globalQueued + l.length
  | [], s => (add_zero s.ready.globalQueued).symm
  | rec :: l, s => by
    rw [List.foldl_cons, foldl_enqueueLocked_globalQueued l, List.length_cons]
    show s.ready.globalQueued + 1 + (l.length : ℤ) = _
    push_cast
    ring

theorem foldl_enqueueLocked_queued : ∀ (l : List RequestRecord) (s : Impl) (id : RequestId),
    id ∈ (l.foldl enqueueLocked s).ready.queued ↔ id ∈ s.ready.queued ∨ ∃ rec ∈ l, rec.requestId = id
  | [], s, id => by simp
  | rec :: l, s, id => by
    rw [List.foldl_cons, foldl_enqueueLocked_queued l]
    show id ∈ s.ready.queued.insert rec.requestId ∨ _ ↔ _
    simp only [USet.mem_insert, List.mem_cons, exists_eq_or_imp]
    tauto

theorem foldl_enqueueLocked_size : ∀ (l : List RequestRecord) (s : Impl), (l.map (·.requestId)).Nodup →
    (∀ rec ∈ l, rec.requestId ∉ s.ready.queued) →
    (l.foldl enqueueLocked s).ready.queued.size = s.ready.queued.size + l.length
  | [], _, _, _ => rfl
  | rec :: l, s, hl, hs => by
    rw [List.map_cons, List.nodup_cons] at hl
    have hrest : ∀ rec' ∈ l, rec'.requestId ∉ (s.enqueueLocked rec).ready.queued := by
      intro rec' hmem hin
      rcases USet.mem_insert.1 (show _ ∈ s.ready.queued.insert rec.requestId from hin) with heq | hin
      · exact hl.1 (List.mem_map.2 ⟨rec', hmem, heq⟩)
      · exact hs rec' (List.mem_cons_of_mem _ hmem) hin
    rw [List.foldl_cons, foldl_enqueueLocked_size l _ hl.2 hrest, List.length_cons]
    have hone : (s.enqueueLocked rec).ready.queued.size = s.ready.queued.size + 1 :=
      USet.size_insert (hs rec List.mem_cons_self)
    omega

/-- The requests of tenants with a record are counted there. -/
theorem foldl_enqueueLocked_tenants : ∀ (l : List RequestRecord) (s : Impl),
    (∀ rec ∈ l, (s.tenants.find rec.spec.tenant).isSome = true) → ∀ k,
    (l.foldl enqueueLocked s).tenants.find k = (s.tenants.find k).map fun tr =>
      { tr with queued := tr.queued + l.countP fun rec => rec.spec.tenant == k }
  | [], s, _, k => by simp
  | rec :: l, s, h, k => by
    obtain ⟨tr, htr⟩ := Option.isSome_iff_exists.1 (h rec List.mem_cons_self)
    have hkey : tr.tenant = rec.spec.tenant := Keyed.key_of_find htr
    have hone : ∀ k, (s.enqueueLocked rec).tenants.find k =
        if rec.spec.tenant = k then some { tr with queued := tr.queued + 1 } else s.tenants.find k := by
      intro k
      have hof : s.tenantOf rec.spec.tenant = tr := by rw [tenantOf, htr, Option.getD_some]
      show (s.tenants.put { s.tenantOf rec.spec.tenant with
        queued := (s.tenantOf rec.spec.tenant).queued + 1 }).find k = _
      rw [hof, Keyed.find_put, ← hkey]
    have hrest : ∀ rec' ∈ l, ((s.enqueueLocked rec).tenants.find rec'.spec.tenant).isSome = true := by
      intro rec' hmem
      rw [hone]
      split
      · rfl
      · exact h rec' (List.mem_cons_of_mem _ hmem)
    rw [List.foldl_cons, foldl_enqueueLocked_tenants l _ hrest, hone, List.countP_cons]
    by_cases hk : rec.spec.tenant = k
    · subst hk
      rw [if_pos rfl, htr]
      simp only [Option.map_some, beq_self_eq_true, ↓reduceIte, Option.some.injEq]
      push_cast
      ring_nf
    · simp [hk]

end loop

/-! ## The recovered state -/

/-- What `t` is once it has read the image of `s`. -/
def recoveredFrom (t s : Impl) : Impl := (t.overwrite s.save).rebuildReady

theorem deserializeLocked_serializeLocked {s : Impl} (h : s.Typed) (hlim : s.InLimits readerLimits) (t : Impl) :
    t.deserializeLocked s.serializeLocked = (t.recoveredFrom s, .ok ()) :=
  t.deserializeLocked_of_decodes ⟨(List.append_nil _).symm, h.numbers, within_save_iff.2 hlim⟩

section recovered

variable (s t : Impl)

theorem find_overwrite_save (id : RequestId) : (t.overwrite s.save).requests.find id =
    (s.requests.find id).map fun rec => (rec.save s.now).restore t.now :=
  s.requests.find_rebuild (fun rec => (rec.save s.now).restore t.now) (fun _ => rfl) List.map_map id

theorem find_recoveredFrom (id : RequestId) : (t.recoveredFrom s).requests.find id =
    (s.requests.find id).map (·.recovered s.now t.now) := by
  refine ((t.overwrite s.save).requests_rebuildReady id).trans ?_
  rw [find_overwrite_save, Option.map_map]
  rfl

theorem find_worker_recoveredFrom (w : WorkerId) : (t.recoveredFrom s).pool.workers.find w =
    (s.pool.workers.find w).map fun wr => wr.save.restore := by
  have hpool : (t.recoveredFrom s).pool = (t.overwrite s.save).pool := (foldl_enqueueLocked_frame _ _).1
  rw [hpool]
  exact s.pool.workers.find_rebuild (fun wr => wr.save.restore) (fun _ => rfl) List.map_map w

theorem find_tenant_overwrite_save {s : Impl} (h : s.Typed) (t : Impl) (k : TenantId) :
    (t.overwrite s.save).tenants.find k = s.tenants.find k := by
  have hsame : (s.tenants.records.map (·.save)).map (·.restore) = s.tenants.records.map id := by
    rw [List.map_map]
    exact List.map_congr_left fun tr htr => TenantRecord.restore_save (h.weights tr htr)
  refine (s.tenants.find_rebuild id (fun _ => rfl) hsame k).trans ?_
  rw [Option.map_id, id_eq]

end recovered

/-- Every waiting request's tenant has a record. -/
def Housed (s : Impl) : Prop :=
  ∀ id rec, s.requests.find id = some rec → waiting rec = true → (s.tenants.find rec.spec.tenant).isSome = true

/-- The number of queued requests of a tenant. -/
def queuedOf (s : Impl) (k : TenantId) : ℕ :=
  s.requests.count fun rec => rec.state == .queued && rec.spec.tenant == k

end Impl

/-- What a recovery of `s` in `t` is to end in. -/
structure RoundTrip (s t t' : Impl) : Prop where
  epoch : t'.epochValue = s.epochValue
  stats : t'.stats.written = s.stats.written
  globalAdmitted : t'.globalAdmitted = s.globalAdmitted
  globalReservedUnits : t'.pool.globalReservedUnits = s.pool.globalReservedUnits
  globalRunningUnits : t'.pool.globalRunningUnits = s.pool.globalRunningUnits
  globalTokens : t'.globalTokens = s.globalTokens
  /-- The tenants are the same but for the counts of queued requests, which are
  what they should be. -/
  tenants : ∀ k, t'.tenants.find k = (s.tenants.find k).map fun tr => { tr with queued := t'.queuedOf k }
  workers : ∀ w, Option.Rel WorkerRecord.Restored (s.pool.workers.find w) (t'.pool.workers.find w)
  requests : ∀ id, Option.Rel (RequestRecord.Restored s.now t.now) (s.requests.find id) (t'.requests.find id)
  queued : ∀ id, id ∈ t'.ready.queued ↔ ∃ rec, t'.requests.find id = some rec ∧ rec.state = .queued
  globalQueued : t'.ready.globalQueued = t'.ready.queued.size

namespace Impl

section queue

variable (s t : Impl)

/-- The requests put back into the queue, as records of `s`. -/
theorem waiting_overwrite_save (k : RequestId) : (∃ rec ∈ (t.overwrite s.save).requests.records.filter waiting,
    rec.requestId = k) ↔ ∃ rec, s.requests.find k = some rec ∧ waiting rec = true := by
  constructor
  · intro h
    obtain ⟨rec, hmem, rfl⟩ := h
    obtain ⟨hmem, hw⟩ := List.mem_filter.1 hmem
    have hfind := Keyed.mem_records.1 hmem
    rw [find_overwrite_save, Option.map_eq_some_iff] at hfind
    obtain ⟨old, hold, rfl⟩ := hfind
    exact ⟨old, hold, by rwa [RequestRecord.waiting_restore_save] at hw⟩
  · intro h
    obtain ⟨rec, hrec, hw⟩ := h
    have hfind : (t.overwrite s.save).requests.find k = some ((rec.save s.now).restore t.now) := by
      rw [find_overwrite_save, hrec]
      rfl
    refine ⟨_, List.mem_filter.2 ⟨Keyed.mem_records.2 (Keyed.find_key hfind), ?_⟩, Keyed.key_of_find hfind⟩
    rwa [RequestRecord.waiting_restore_save]

theorem mem_queued_recoveredFrom (id : RequestId) :
    id ∈ (t.recoveredFrom s).ready.queued ↔ ∃ rec, s.requests.find id = some rec ∧ waiting rec = true := by
  rw [← waiting_overwrite_save s t id]
  refine (foldl_enqueueLocked_queued _ (t.overwrite s.save).resetQueued id).trans ?_
  exact or_iff_right (USet.notMem_empty id)

theorem globalQueued_recoveredFrom :
    (t.recoveredFrom s).ready.globalQueued = (t.recoveredFrom s).ready.queued.size := by
  have hnodup : (((t.overwrite s.save).requests.records.filter waiting).map (·.requestId)).Nodup :=
    (t.overwrite s.save).requests.nodup_records.sublist (List.filter_sublist.map _)
  have hglobal : (t.recoveredFrom s).ready.globalQueued = _ := foldl_enqueueLocked_globalQueued _ _
  have hsize : (t.recoveredFrom s).ready.queued.size = _ :=
    foldl_enqueueLocked_size _ (t.overwrite s.save).resetQueued hnodup fun rec _ => USet.notMem_empty rec.requestId
  rw [hglobal, hsize]
  show (0 : ℤ) + _ = ((0 + _ : ℕ) : ℤ)
  rw [zero_add, zero_add]

end queue

theorem recovered_queued (rec : RequestRecord) (now now' : ClockTime) :
    ((rec.recovered now now').state == .queued) = waiting rec := by
  rw [RequestRecord.recovered_eq]
  unfold waiting
  cases rec.state <;> rfl

/-- The queued requests of a tenant are those that are put back. -/
theorem queuedOf_recoveredFrom (s t : Impl) (k : TenantId) :
    (t.recoveredFrom s).queuedOf k =
      ((t.overwrite s.save).requests.records.filter waiting).countP fun rec => rec.spec.tenant == k := by
  have hkey : ∀ rec : RequestRecord, (rec.recovered s.now t.now).requestId = rec.requestId := by
    intro rec
    rw [RequestRecord.recovered_eq]
    rfl
  have hspec : ∀ rec : RequestRecord, (rec.recovered s.now t.now).spec.tenant = rec.spec.tenant := by
    intro rec
    rw [RequestRecord.recovered_eq]
    rfl
  calc (t.recoveredFrom s).queuedOf k
      = s.requests.count fun rec => (rec.recovered s.now t.now).state == .queued &&
          (rec.recovered s.now t.now).spec.tenant == k := Keyed.count_map hkey (find_recoveredFrom s t) _
    _ = s.requests.count fun rec => waiting rec && rec.spec.tenant == k := by simp only [recovered_queued, hspec]
    _ = (t.overwrite s.save).requests.count fun rec => waiting rec && rec.spec.tenant == k := by
        rw [Keyed.count_map (g := fun rec : RequestRecord => (rec.save s.now).restore t.now) (fun _ => rfl)
          (find_overwrite_save s t)]
        simp only [RequestRecord.waiting_restore_save]
        rfl
    _ = _ := by
        rw [Keyed.count, List.countP_filter]
        exact List.countP_congr fun rec _ => by rw [Bool.and_comm]

theorem rel_map {α β : Type} {R : α → β → Prop} {g : α → β} {o : Option α} (h : ∀ a, o = some a → R a (g a)) :
    Option.Rel R o (o.map g) := by
  cases o with
  | none => exact .none
  | some a => exact .some (h a rfl)

/-- **A typed state comes back on every written field**, if the tenants of its
waiting requests have records. -/
theorem roundTrip_of_housed {s : Impl} (h : s.Typed) (hh : s.Housed) (t : Impl) : RoundTrip s t (t.recoveredFrom s) := by
  obtain ⟨hpool, hepoch, hadmitted, htokens, hstats⟩ :=
    foldl_enqueueLocked_frame ((t.overwrite s.save).requests.records.filter waiting) (t.overwrite s.save).resetQueued
  have hreset : ∀ k, (t.overwrite s.save).resetQueued.tenants.find k =
      (s.tenants.find k).map fun tr => { tr with queued := 0 } := by
    intro k
    rw [← find_tenant_overwrite_save h t k]
    exact Keyed.find_modify _ _ k
  have hhoused : ∀ rec ∈ (t.overwrite s.save).requests.records.filter waiting,
      ((t.overwrite s.save).resetQueued.tenants.find rec.spec.tenant).isSome = true := by
    intro rec hmem
    obtain ⟨hmem, hw⟩ := List.mem_filter.1 hmem
    have hfind := Keyed.mem_records.1 hmem
    rw [find_overwrite_save, Option.map_eq_some_iff] at hfind
    obtain ⟨old, hold, rfl⟩ := hfind
    rw [hreset, Option.isSome_map]
    exact hh _ old hold (by rwa [RequestRecord.waiting_restore_save] at hw)
  exact
    { epoch := hepoch
      stats := by
        have hwritten : (t.recoveredFrom s).stats.written = s.stats.written.map fun n => (UInt64.ofNat n).toNat :=
          congrArg SchedulerStats.written hstats
        have hsame : s.stats.written.map (fun n => (UInt64.ofNat n).toNat) = s.stats.written.map id :=
          List.map_congr_left fun n hn => UInt64.toNat_ofNat_of_lt' (h.stats n hn)
        rw [hwritten, hsame, List.map_id]
      globalAdmitted := hadmitted
      globalReservedUnits := congrArg (·.globalReservedUnits) hpool
      globalRunningUnits := congrArg (·.globalRunningUnits) hpool
      globalTokens := htokens
      tenants := fun k => by
        refine (foldl_enqueueLocked_tenants _ _ hhoused k).trans ?_
        rw [hreset, Option.map_map, queuedOf_recoveredFrom]
        simp only [Function.comp_def, zero_add]
      workers := fun w => by
        rw [find_worker_recoveredFrom]
        exact rel_map fun wr hwr => WorkerRecord.restored_save (h.workers wr (Keyed.mem_records.2 (Keyed.find_key hwr)))
      requests := fun id => by
        rw [find_recoveredFrom]
        exact rel_map fun rec hrec =>
          RequestRecord.restored_recovered (h.requests rec (Keyed.mem_records.2 (Keyed.find_key hrec))) s.now t.now
      queued := fun id => by
        simp only [mem_queued_recoveredFrom, find_recoveredFrom, Option.map_eq_some_iff]
        constructor
        · intro hq
          obtain ⟨rec, hrec, hw⟩ := hq
          exact ⟨_, ⟨rec, hrec, rfl⟩, beq_iff_eq.1 ((recovered_queued rec s.now t.now).trans hw)⟩
        · intro hq
          obtain ⟨_, ⟨rec, hrec, rfl⟩, hstate⟩ := hq
          exact ⟨rec, hrec, by rw [← recovered_queued rec s.now t.now, hstate]; rfl⟩
      globalQueued := globalQueued_recoveredFrom s t }

/-- A persisted state, recovered. -/
theorem doRecover_persisted {s : Impl} {file : Bytes} (h : s.Typed) (hlim : s.InLimits readerLimits)
    (hfile : s.doPersist = .ok file) (t : Impl) :
    t.doRecover (some file) = ({ recoveredFrom { t with recoveryMode := 1 } s with recoveryMode := 0 }, .ok ()) := by
  rw [doRecover_of_payload (readPersistenceFile_of_persisted h hfile), deserializeLocked_serializeLocked h hlim]

end Impl

/-! ## Work in flight -/

/-- What the recovery of `s` should make of the requests on workers. -/
structure Resolved (s t' : Impl) : Prop where
  cleared : ∀ id rec, t'.requests.find id = some rec → rec.state ≠ .reserved ∧ rec.state ≠ .running
  renewed : ∀ id rec, s.requests.find id = some rec → rec.state = .reserved ∨ rec.state = .running →
    ∃ rec', t'.requests.find id = some rec' ∧ (rec'.state = .queued ∧ rec'.currentAttempt ≠ rec.currentAttempt ∧
      rec'.generation ≠ rec.generation ∨ isTerminal rec'.state = true)
  fenced : ∀ id rec r, s.requests.find id = some rec → rec.state = .reserved ∨ rec.state = .running →
    r.requestId = id → r.attemptId = rec.currentAttempt → r.generation = rec.generation →
    (t'.doComplete r).2.acceptance ≠ .accepted
  reservedUnits : t'.pool.globalReservedUnits = t'.pool.workers.sum (·.reservedUnits)
  runningUnits : t'.pool.globalRunningUnits = t'.pool.workers.sum (·.runningUnits)

namespace Impl

/-- Restored workers hold no units. -/
theorem sum_units_recoveredFrom (s t : Impl) {f : WorkerRecord → ℤ} (hf : ∀ wr : WorkerRecord, f wr.save.restore = 0) :
    (t.recoveredFrom s).pool.workers.sum f = 0 := by
  refine Keyed.sum_eq_zero fun w wr hwr => ?_
  rw [find_worker_recoveredFrom, Option.map_eq_some_iff] at hwr
  obtain ⟨old, -, rfl⟩ := hwr
  exact hf old

/-- **Recovery resolves the work in flight exactly if there is none**: a request
on a worker comes back in its state and under its attempt, and the units in use
come back without the workers that use them. -/
theorem recover_resolves_iff (s t : Impl) (file : Bytes) (h : s.Typed) (hlim : s.InLimits readerLimits)
    (hfile : s.doPersist = .ok file) : Resolved s (t.doRecover (some file)).1 ↔
      (∀ id rec, s.requests.find id = some rec → rec.state ≠ .reserved ∧ rec.state ≠ .running) ∧
        s.pool.globalReservedUnits = 0 ∧ s.pool.globalRunningUnits = 0 := by
  rw [doRecover_persisted h hlim hfile]
  generalize ({ t with recoveryMode := 1 } : Impl) = t
  have hpool : (t.recoveredFrom s).pool = (t.overwrite s.save).pool := (foldl_enqueueLocked_frame _ _).1
  have hunits : (t.recoveredFrom s).pool.globalReservedUnits = s.pool.globalReservedUnits ∧
      (t.recoveredFrom s).pool.globalRunningUnits = s.pool.globalRunningUnits := by
    rw [hpool]
    exact ⟨rfl, rfl⟩
  have hsums : (t.recoveredFrom s).pool.workers.sum (·.reservedUnits) = 0 ∧
      (t.recoveredFrom s).pool.workers.sum (·.runningUnits) = 0 :=
    ⟨sum_units_recoveredFrom s t fun _ => rfl, sum_units_recoveredFrom s t fun _ => rfl⟩
  constructor
  · intro hr
    refine ⟨fun id rec hrec => ?_, ?_, ?_⟩
    · have hback : (t.recoveredFrom s).requests.find id = some (rec.recovered s.now t.now) := by
        rw [find_recoveredFrom, hrec]
        rfl
      have hclear := hr.cleared id _ hback
      rw [RequestRecord.recovered_eq] at hclear
      refine ⟨fun hs => hclear.1 ?_, fun hs => hclear.2 ?_⟩ <;> simp [hs]
    · rw [← hunits.1, ← hsums.1]
      exact hr.reservedUnits
    · rw [← hunits.2, ← hsums.2]
      exact hr.runningUnits
  · intro hs
    obtain ⟨hclear, hreserved, hrunning⟩ := hs
    have hnone : ∀ {id rec}, s.requests.find id = some rec → ¬(rec.state = .reserved ∨ rec.state = .running) :=
      fun hrec hs => hs.elim (hclear _ _ hrec).1 (hclear _ _ hrec).2
    refine ⟨fun id rec' hrec' => ?_, fun id rec hrec hon => absurd hon (hnone hrec),
      fun id rec r hrec hon => absurd hon (hnone hrec), ?_, ?_⟩
    · have hfind : (t.recoveredFrom s).requests.find id = some rec' := hrec'
      rw [find_recoveredFrom, Option.map_eq_some_iff] at hfind
      obtain ⟨rec, hrec, rfl⟩ := hfind
      have hc := hclear id rec hrec
      rw [RequestRecord.recovered_eq]
      dsimp only
      split
      · exact ⟨by decide, by decide⟩
      · exact hc
    · show (t.recoveredFrom s).pool.globalReservedUnits = (t.recoveredFrom s).pool.workers.sum _
      rw [hunits.1, hsums.1, hreserved]
    · show (t.recoveredFrom s).pool.globalRunningUnits = (t.recoveredFrom s).pool.workers.sum _
      rw [hunits.2, hsums.2, hrunning]

/-- A request is planned on a worker. -/
def planned : List Op :=
  [.registerWorker { worker := ⟨3⟩, bootId := ⟨1⟩ }, .submit { tenant := ⟨1⟩, model := ⟨1⟩ } (some ⟨7⟩),
    .planDispatch ⟨7⟩ false]

/-- The report that completes it. -/
def plannedDone : CompletionReport :=
  { worker := ⟨3⟩, bootId := ⟨1⟩, epoch := ⟨1⟩, requestId := ⟨7⟩, attemptId := ⟨0x8000000100000002⟩,
    generation := ⟨0x8000000100000001⟩ }

/-- The request alone on its worker is not resolved; beside one that waits, it
has been completed, and both are. -/
theorem recover_resolves_completed :
    let p := scheduler.run durable planned
    let s := scheduler.run durable (planned ++
      [.submit { tenant := ⟨1⟩, model := ⟨1⟩ } (some ⟨8⟩), .complete plannedDone])
    s.requests.records.map (·.state) = [.completed, .queued] ∧
      ¬Resolved p (durable.doRecover (some (writeFrame p.serializeLocked))).1 ∧
      Resolved s (durable.doRecover (some (writeFrame s.serializeLocked))).1 := by
  intro p s
  have hclear : ∀ rec ∈ s.requests.records, rec.state ≠ .reserved ∧ rec.state ≠ .running := by decide +kernel
  refine ⟨by decide +kernel, fun hp => ?_, ?_⟩
  · have hiff := recover_resolves_iff p durable _ (by decide +kernel) (by decide +kernel)
      (doPersist_of_enabled (by decide +kernel))
    exact absurd (hiff.1 hp).2.1 (by decide +kernel)
  · refine (recover_resolves_iff s durable _ (by decide +kernel) (by decide +kernel)
      (doPersist_of_enabled (by decide +kernel))).2 ⟨fun id rec hrec => ?_, by decide +kernel, by decide +kernel⟩
    exact hclear rec (Keyed.mem_records.2 (Keyed.find_key hrec))

/-- The request comes back reserved on a worker that knows nothing of it. -/
theorem recovered_reserved : ¬∀ (cfg : SchedulerConfig) (now : ClockTime) (salt : UInt64) (epoch : Option SchedulerEpoch)
    (ops : List Op) (t : Impl) (file : Bytes), (scheduler.run (.init cfg now salt epoch) ops).doPersist = .ok file →
    (t.doRecover (some file)).2 = .ok () →
    Resolved (scheduler.run (.init cfg now salt epoch) ops) (t.doRecover (some file)).1 := by
  intro h
  have hfile : (scheduler.run durable planned).doPersist = _ := doPersist_of_enabled (by decide +kernel)
  have hr := h { persistRecovery := true } 0 0x80000001 none planned durable _ hfile (by decide +kernel)
  have hstate : (((durable.doRecover (some (writeFrame (scheduler.run durable planned).serializeLocked))).1.requests.find
      ⟨7⟩).map (·.state)) = some .reserved := by decide +kernel
  obtain ⟨rec, hrec, hs⟩ := Option.map_eq_some_iff.1 hstate
  exact (hr.cleared ⟨7⟩ rec hrec).1 hs

end Impl

/-! ## What was asked for -/

/-- The same specification, its deadline moved to another clock. -/
def RequestSpec.Same (now now' : ClockTime) (a b : RequestSpec) : Prop :=
  b = { a with deadline := b.deadline } ∧ a.deadline.Moved now now' b.deadline

/-- The fields that are not written have their defaults. -/
@[mk_iff] structure RequestSpec.Carried (spec : RequestSpec) : Prop where
  demandTokens : spec.demand.tokens = {}
  locality : spec.locality = {}
  warmth : spec.warmth = {}
  budget : spec.budget = 0
  payload : spec.payload = ""
  interactive : spec.interactive = false

instance (spec : RequestSpec) : Decidable spec.Carried := decidable_of_iff _ (RequestSpec.carried_iff spec).symm

theorem RequestSpec.same_restore_iff {rec : RequestRecord} (h : rec.Typed) (now now' : ClockTime) :
    rec.spec.Same now now' ((rec.save now).restore now').spec ↔ rec.spec.Carried := by
  have hr := RequestSpec.restored_save h now now'
  constructor
  · intro hs
    obtain ⟨heq, -⟩ := hs
    exact
      { demandTokens := (congrArg (·.demand.tokens) heq).symm
        locality := (congrArg (·.locality) heq).symm
        warmth := (congrArg (·.warmth) heq).symm
        budget := (congrArg (·.budget) heq).symm
        payload := (congrArg (·.payload) heq).symm
        interactive := (congrArg (·.interactive) heq).symm }
  · intro hc
    have hdemand : ((rec.save now).restore now').spec.demand = rec.spec.demand :=
      ResourceDemand.ext hc.demandTokens.symm hr.demandMemoryBytes hr.costUnits
    exact ⟨RequestSpec.ext hr.tenant hr.session hr.sequence hr.model hr.revision hr.adapter hr.phase hr.priority
      hr.latencyClass hr.tokens hdemand hc.locality.symm hc.warmth.symm rfl hc.budget.symm hr.estimatedMemoryBytes
      hr.modelName hc.payload.symm hr.maxBatchSize hc.interactive.symm, hr.deadline⟩

/-- **A request, live or not, is recovered as it was asked for exactly if the
reader takes the file and the specification says nothing in the fields that are
not written.** -/
theorem recover_spec_iff (s t : Impl) (file : Bytes) (id : RequestId) (rec : RequestRecord) (h : s.Typed)
    (hfile : s.doPersist = .ok file) (hrec : s.requests.find id = some rec) :
    ((t.doRecover (some file)).2 = .ok () ∧ ∃ spec, (t.doRecover (some file)).1.doRequestSpec id = .ok spec ∧
      rec.spec.Same s.now t.now spec) ↔ s.InLimits readerLimits ∧ rec.spec.Carried := by
  rw [Impl.recover_persisted_iff s t file h hfile, ← RequestSpec.same_restore_iff
    (h.requests rec (Keyed.mem_records.2 (Keyed.find_key hrec))) s.now t.now]
  refine and_congr_right fun hlim => ?_
  have hback : (t.doRecover (some file)).1.doRequestSpec id = .ok ((rec.save s.now).restore t.now).spec := by
    have hfind := Impl.find_recoveredFrom s { t with recoveryMode := 1 } id
    rw [hrec, Option.map_some, RequestRecord.recovered_eq] at hfind
    rw [Impl.doRecover_persisted h hlim hfile, Impl.doRequestSpec]
    simp only [hfind]
  simp only [hback, Except.ok.injEq, exists_eq_left']

theorem recover_spec_plain :
    let s := scheduler.run .durable [.submit { tenant := ⟨1⟩, model := ⟨1⟩ } (some ⟨7⟩)]
    ∃ rec, s.requests.find ⟨7⟩ = some rec ∧
      (Impl.durable.doRecover (some (writeFrame s.serializeLocked))).2 = .ok () ∧
      ∃ spec, (Impl.durable.doRecover (some (writeFrame s.serializeLocked))).1.doRequestSpec ⟨7⟩ = .ok spec ∧
        rec.spec.Same s.now Impl.durable.now spec := by
  intro s
  have hrec : ((s.requests.find ⟨7⟩).any fun rec => decide rec.spec.Carried) = true := by decide +kernel
  obtain ⟨rec, hfind, hrec⟩ := (Option.any_eq_true _ _).1 hrec
  exact ⟨rec, hfind, (recover_spec_iff s .durable _ ⟨7⟩ rec (by decide +kernel)
    (Impl.doPersist_of_enabled (by decide +kernel)) hfind).2 ⟨by decide +kernel, of_decide_eq_true hrec⟩⟩

/-- A request with a payload comes back without it. -/
theorem payload_lost : ¬∀ (cfg : SchedulerConfig) (now : ClockTime) (salt : UInt64) (epoch : Option SchedulerEpoch)
    (ops : List Op) (t : Impl) (file : Bytes) (id : RequestId) (rec : RequestRecord),
    (scheduler.run (.init cfg now salt epoch) ops).doPersist = .ok file → (t.doRecover (some file)).2 = .ok () →
    (scheduler.run (.init cfg now salt epoch) ops).requests.find id = some rec → isTerminal rec.state = false →
    ∃ spec, (t.doRecover (some file)).1.doRequestSpec id = .ok spec ∧
      rec.spec.Same (scheduler.run (.init cfg now salt epoch) ops).now t.now spec := by
  intro h
  let ops : List Op := [.submit { tenant := ⟨1⟩, model := ⟨1⟩, payload := "prompt" } (some ⟨7⟩)]
  have hrec : (((scheduler.run .durable ops).requests.find ⟨7⟩).any fun rec =>
      !isTerminal rec.state && rec.spec.payload == "prompt") = true := by decide +kernel
  obtain ⟨rec, hfind, hrec⟩ := (Option.any_eq_true _ _).1 hrec
  simp only [Bool.and_eq_true, Bool.not_eq_true', beq_iff_eq] at hrec
  have hfile : (scheduler.run .durable ops).doPersist = _ := Impl.doPersist_of_enabled (by decide +kernel)
  obtain ⟨spec, hspec, hsame, -⟩ :=
    h { persistRecovery := true } 0 0x80000001 none ops .durable _ ⟨7⟩ rec hfile (by decide +kernel) hfind hrec.1
  have hpayload : ((Impl.durable.doRecover
      (some (writeFrame (scheduler.run .durable ops).serializeLocked))).1.doRequestSpec ⟨7⟩).map (·.payload) = .ok "" := by
    decide +kernel
  rw [hspec] at hpayload
  have hlost : spec.payload = "" := Except.ok.inj hpayload
  rw [hsame, hrec.2] at hlost
  exact absurd hlost (by decide)

end InferenceScheduler
