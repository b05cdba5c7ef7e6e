/-
Persisting a scheduler and recovering one (`src/scheduler.cpp`,
`do_persist`, `do_recover`, `serialize_locked`, `deserialize_locked`,
`enqueue_locked`).

`deserialize_locked` clears its maps as soon as the format is right and
writes each record as it is read, so what it leaves behind when it stops
halfway is the image read so far (`overwrite`). When it goes through, the
ready structures are built up again from the requests (`rebuildReady`).
-/
import InferenceScheduler.Codec
import InferenceScheduler.Control
import InferenceScheduler.Envelope

namespace InferenceScheduler

open Binary

/-- The statistics that are written take the place of those there were. -/
def SavedHeader.restoreStats (h : SavedHeader) (t : SchedulerStats) : SchedulerStats :=
  { t with
    requestsSubmitted := h.requestsSubmitted.toNat
    requestsAdmitted := h.requestsAdmitted.toNat
    requestsCompleted := h.requestsCompleted.toNat
    requestsCancelled := h.requestsCancelled.toNat
    requestsFailed := h.requestsFailed.toNat
    requestsExpired := h.requestsExpired.toNat
    attemptsCreated := h.attemptsCreated.toNat
    dispatches := h.dispatches.toNat
    retries := h.retries.toNat }

namespace Impl

/-- `serialize_locked`. -/
def serializeLocked (s : Impl) : Bytes := s.save.encode

/-- What `deserialize_locked` leaves behind once it has read `img`, before the
queue is built up again. -/
def overwrite (s : Impl) (img : SavedState) : Impl :=
  { s with
    epochValue := img.header.epoch
    requests := (img.requests.map (·.restore s.now)).foldl Keyed.insertNew ∅
    tenants := (img.tenants.map (·.restore)).foldl Keyed.insertNew ∅
    pool :=
      { workers := (img.workers.map (·.restore)).foldl Keyed.insertNew ∅
        globalReservedUnits := img.header.globalReservedUnits
        globalRunningUnits := img.header.globalRunningUnits }
    ready := { virtualTime := s.ready.virtualTime, globalQueued := img.header.globalQueued }
    globalAdmitted := img.header.globalAdmitted
    globalTokens := img.header.globalTokens
    stats := img.header.restoreStats s.stats }

/-- `enqueue_locked`. -/
def enqueueLocked (s : Impl) (rec : RequestRecord) : Impl :=
  let s := { s with ready := s.ready.enqueue s.cfg s.now rec }
  let s := s.put { rec with state := .queued }
  s.onTenant rec.spec.tenant fun t => { t with queued := t.queued + 1 }

/-- No request counts as queued. -/
def resetQueued (s : Impl) : Impl :=
  { s with
    ready := { s.ready with globalQueued := 0 }
    tenants := s.tenants.modify (fun t => { t with queued := 0 }) fun _ => rfl }

/-- A request that `deserialize_locked` puts back into the queue. -/
def waiting (rec : RequestRecord) : Bool := rec.state == .queued || rec.state == .admitted

/-- The end of `deserialize_locked`. -/
def rebuildReady (s : Impl) : Impl := (s.requests.records.filter waiting).foldl enqueueLocked s.resetQueued

/-- `deserialize_locked`. -/
def deserializeLocked (s : Impl) (data : Bytes) : Impl × Result Unit :=
  match load readerLimits (⟨data, true⟩, none) with
  | (res, _, none) => (s, res)
  | (.error e, _, some img) => (s.overwrite img, .error e)
  | (.ok _, _, some img) => ((s.overwrite img).rebuildReady, .ok ())

/-- `do_persist`, the file it writes. -/
def doPersist (s : Impl) : Result Bytes :=
  if !s.cfg.persistRecovery then .error ⟨.invalidState, "persistence disabled"⟩
  else .ok (writeFrame s.serializeLocked)

/-- `do_recover`, given what the path holds. -/
def doRecover (s : Impl) (file : Option Bytes) : Impl × Result Unit :=
  match readPersistenceFile file with
  | .error e => (s, .error e)
  | .ok payload =>
    let res := { s with recoveryMode := 1 }.deserializeLocked payload
    ({ res.1 with recoveryMode := 0 }, res.2)

end Impl

/-! ## What is accepted -/

/-- The data is an image within the reader's limits, with something behind it. -/
structure Decodes (data : Bytes) (img : SavedState) (rest : Bytes) : Prop where
  bytes : data = img.encode ++ rest
  fits : img.Fits
  within : img.Within readerLimits

/-- What the reader has taken in when it stops. -/
def readable (data : Bytes) : Option SavedState := (load readerLimits (⟨data, true⟩, none)).2.2

/-- What it has left. -/
def unread (data : Bytes) : Bytes := (load readerLimits (⟨data, true⟩, none)).2.1.rest

theorem readable_isSome_iff {data : Bytes} : (readable data).isSome = true ↔ HasFormat data := load_isSome_iff

theorem load_of_decodes {data : Bytes} {img : SavedState} {rest : Bytes} (h : Decodes data img rest) :
    load readerLimits (⟨data, true⟩, none) = (.ok (), (⟨rest, true⟩, some img)) :=
  load_iff.2 ⟨img, rfl, h.bytes, h.fits, h.within⟩

theorem readable_of_decodes {data : Bytes} {img : SavedState} {rest : Bytes} (h : Decodes data img rest) :
    readable data = some img ∧ unread data = rest := by
  rw [readable, unread, load_of_decodes h]
  exact ⟨rfl, rfl⟩

theorem decodes_of_load {data : Bytes} {r : Reader} {s : Option SavedState}
    (h : load readerLimits (⟨data, true⟩, none) = (.ok (), (r, s))) : ∃ img, s = some img ∧ Decodes data img r.rest := by
  obtain ⟨rest, ok⟩ := r
  obtain rfl : ok = true := checked_load readerLimits _ _ _ h
  obtain ⟨img, rfl, hbytes, hfits, hwithin⟩ := load_iff.1 h
  exact ⟨img, rfl, hbytes, hfits, hwithin⟩

namespace Impl

variable (s : Impl) {data : Bytes}

theorem deserializeLocked_of_decodes {img : SavedState} {rest : Bytes} (h : Decodes data img rest) :
    s.deserializeLocked data = ((s.overwrite img).rebuildReady, .ok ()) := by
  rw [deserializeLocked, load_of_decodes h]

/-- What `deserialize_locked` does with data it refuses. -/
theorem deserializeLocked_of_not_decodes (h : ∀ img rest, ¬Decodes data img rest) :
    ∃ e, s.deserializeLocked data = (((readable data).map s.overwrite).getD s, .error e) := by
  rw [deserializeLocked, readable]
  rcases hl : load readerLimits (⟨data, true⟩, none) with ⟨e | u, r, img⟩
  · cases img with
    | none => exact ⟨e, rfl⟩
    | some img => exact ⟨e, rfl⟩
  · obtain ⟨img, rfl, hd⟩ := decodes_of_load hl
    exact absurd hd (h img r.rest)

theorem deserializeLocked_ok_iff : (s.deserializeLocked data).2 = .ok () ↔ ∃ img rest, Decodes data img rest := by
  constructor
  · intro h
    by_contra hnone
    push Not at hnone
    obtain ⟨e, he⟩ := s.deserializeLocked_of_not_decodes hnone
    rw [he] at h
    cases h
  · intro h
    obtain ⟨img, rest, hd⟩ := h
    rw [s.deserializeLocked_of_decodes hd]

end Impl

/-! ## A recovery that fails -/

/-- Requests, tenants, workers, indexes, epoch, counters and statistics are
those of `s`. -/
structure Impl.Untouched (s s' : Impl) : Prop where
  requests : ∀ id, s'.requests.find id = s.requests.find id
  tenants : ∀ t, s'.tenants.find t = s.tenants.find t
  workers : ∀ w, s'.pool.workers.find w = s.pool.workers.find w
  flows : ∀ k, s'.ready.flows.lookup k = s.ready.flows.lookup k
  compat : ∀ k, s'.ready.compat.lookup k = s.ready.compat.lookup k
  activeFlows : ∀ k, k ∈ s'.ready.activeFlows ↔ k ∈ s.ready.activeFlows
  queued : ∀ id, id ∈ s'.ready.queued ↔ id ∈ s.ready.queued
  epoch : s'.epochValue = s.epochValue
  globalAdmitted : s'.globalAdmitted = s.globalAdmitted
  globalQueued : s'.ready.globalQueued = s.ready.globalQueued
  globalReservedUnits : s'.pool.globalReservedUnits = s.pool.globalReservedUnits
  globalRunningUnits : s'.pool.globalRunningUnits = s.pool.globalRunningUnits
  globalTokens : s'.globalTokens = s.globalTokens
  stats : s'.stats = s.stats

/-- The scheduler holds just what an image says, and nothing is queued. -/
structure Impl.Mirrors (s : Impl) (img : SavedState) : Prop where
  requests : ∀ id, ((img.requests.map (·.restore s.now)).find? fun rec => rec.requestId = id) = s.requests.find id
  tenants : ∀ t, ((img.tenants.map (·.restore)).find? fun tr => tr.tenant = t) = s.tenants.find t
  workers : ∀ w, ((img.workers.map (·.restore)).find? fun wr => wr.id = w) = s.pool.workers.find w
  flows : ∀ k, none = s.ready.flows.lookup k
  compat : ∀ k, none = s.ready.compat.lookup k
  activeFlows : ∀ k, k ∉ s.ready.activeFlows
  queued : ∀ id, id ∉ s.ready.queued
  epoch : img.header.epoch = s.epochValue
  globalAdmitted : img.header.globalAdmitted = s.globalAdmitted
  globalQueued : img.header.globalQueued = s.ready.globalQueued
  globalReservedUnits : img.header.globalReservedUnits = s.pool.globalReservedUnits
  globalRunningUnits : img.header.globalRunningUnits = s.pool.globalRunningUnits
  globalTokens : img.header.globalTokens = s.globalTokens
  stats : img.header.restoreStats s.stats = s.stats

namespace Impl

theorem find_rebuilt {κ ν : Type} [DecidableEq κ] {key : ν → κ} (l : List ν) (k : κ) :
    (l.foldl Keyed.insertNew (∅ : Keyed key)).find k = l.find? fun v => decide (key v = k) := by
  rw [Keyed.find_foldl_insertNew, Keyed.find_empty, Option.none_or]

theorem untouched_overwrite_iff {s : Impl} {img : SavedState} : s.Untouched (s.overwrite img) ↔ s.Mirrors img := by
  constructor
  · intro h
    exact ⟨fun id => (find_rebuilt _ id).symm.trans (h.requests id), fun t => (find_rebuilt _ t).symm.trans (h.tenants t),
      fun w => (find_rebuilt _ w).symm.trans (h.workers w), h.flows, h.compat,
      fun k hk => USet.notMem_empty k ((h.activeFlows k).2 hk), fun id hid => USet.notMem_empty id ((h.queued id).2 hid),
      h.epoch, h.globalAdmitted, h.globalQueued, h.globalReservedUnits, h.globalRunningUnits, h.globalTokens, h.stats⟩
  · intro h
    exact ⟨fun id => (find_rebuilt _ id).trans (h.requests id), fun t => (find_rebuilt _ t).trans (h.tenants t),
      fun w => (find_rebuilt _ w).trans (h.workers w), h.flows, h.compat,
      fun k => iff_of_false (USet.notMem_empty k) (h.activeFlows k),
      fun id => iff_of_false (USet.notMem_empty id) (h.queued id),
      h.epoch, h.globalAdmitted, h.globalQueued, h.globalReservedUnits, h.globalRunningUnits, h.globalTokens, h.stats⟩

/-- The recovery mode is not among what is compared. -/
theorem untouched_mode_iff {s s' : Impl} {mode : ℤ} : s.Untouched { s' with recoveryMode := mode } ↔ s.Untouched s' := by
  constructor <;> intro h <;> exact ⟨h.requests, h.tenants, h.workers, h.flows, h.compat, h.activeFlows, h.queued, h.epoch,
    h.globalAdmitted, h.globalQueued, h.globalReservedUnits, h.globalRunningUnits, h.globalTokens, h.stats⟩

theorem untouched_refl (s : Impl) : s.Untouched s := by
  constructor <;> simp

theorem doRecover_of_payload {s : Impl} {file : Option Bytes} {payload : Bytes}
    (h : readPersistenceFile file = .ok payload) :
    s.doRecover file = ({ ({ s with recoveryMode := 1 }.deserializeLocked payload).1 with recoveryMode := 0 },
      ({ s with recoveryMode := 1 }.deserializeLocked payload).2) := by
  rw [doRecover, h]

/-- A recovery changes nothing but the mode, or it overwrites the state with
what it could read, and once that is all of it builds up the queue. -/
theorem doRecover_cases (s : Impl) (file : Option Bytes) :
    (∃ mode, (s.doRecover file).1 = { s with recoveryMode := mode }) ∨
      ∃ payload img, readPersistenceFile file = .ok payload ∧ readable payload = some img ∧
        ((s.doRecover file).1 = { { s with recoveryMode := 1 }.overwrite img with recoveryMode := 0 } ∧
            (∀ img rest, ¬Decodes payload img rest) ∨
          (s.doRecover file).1 = { ({ s with recoveryMode := 1 }.overwrite img).rebuildReady with recoveryMode := 0 }) := by
  cases hfile : readPersistenceFile file with
  | error e =>
    rw [doRecover, hfile]
    exact .inl ⟨s.recoveryMode, rfl⟩
  | ok payload =>
    rw [doRecover_of_payload hfile]
    by_cases hd : ∃ img rest, Decodes payload img rest
    · obtain ⟨img, rest, hd⟩ := hd
      rw [deserializeLocked_of_decodes _ hd]
      exact .inr ⟨payload, img, rfl, (readable_of_decodes hd).1, .inr rfl⟩
    · push Not at hd
      obtain ⟨e, he⟩ := deserializeLocked_of_not_decodes { s with recoveryMode := 1 } hd
      rw [he]
      cases hread : readable payload with
      | none => exact .inl ⟨0, rfl⟩
      | some img => exact .inr ⟨payload, img, rfl, hread, .inl ⟨rfl, hd⟩⟩

/-- **A recovery that fails has changed nothing exactly if the file was refused
before anything was cleared**, or the scheduler was already what the file holds
up to its fault. -/
theorem recover_atomic_iff (s : Impl) (file : Option Bytes) :
    ((∃ e, (s.doRecover file).2 = .error e) → s.Untouched (s.doRecover file).1) ↔
      ∀ payload, readPersistenceFile file = .ok payload → ∀ img, readable payload = some img →
        (∃ whole rest, Decodes payload whole rest) ∨ s.Mirrors img := by
  cases hfile : readPersistenceFile file with
  | error e =>
    have hrun : s.doRecover file = (s, .error e) := by rw [doRecover, hfile]
    rw [hrun]
    exact ⟨fun _ payload h => (by cases h), fun _ _ => untouched_refl s⟩
  | ok payload =>
    rw [doRecover_of_payload hfile]
    simp only [Except.ok.injEq, forall_eq', untouched_mode_iff]
    by_cases hd : ∃ whole rest, Decodes payload whole rest
    · obtain ⟨whole, rest, hd⟩ := hd
      rw [deserializeLocked_of_decodes _ hd]
      refine ⟨fun _ _ _ => .inl ⟨whole, rest, hd⟩, fun _ he => ?_⟩
      obtain ⟨e, he⟩ := he
      cases he
    · push Not at hd
      obtain ⟨e, he⟩ := deserializeLocked_of_not_decodes { s with recoveryMode := 1 } hd
      rw [he]
      cases hr : readable payload with
      | none =>
        refine ⟨fun _ img h => (by cases h), fun _ _ => ?_⟩
        exact untouched_mode_iff.2 (untouched_refl s)
      | some img =>
        have hmode : ({ s with recoveryMode := 1 } : Impl).overwrite img = { s.overwrite img with recoveryMode := 1 } := rfl
        simp only [Option.map_some, Option.getD_some, hmode, untouched_mode_iff, untouched_overwrite_iff]
        constructor
        · intro h img' himg
          cases himg
          exact .inr (h ⟨e, rfl⟩)
        · intro h _
          rcases h img rfl with ⟨whole, rest, hw⟩ | h
          · exact absurd hw (hd whole rest)
          · exact h

/-- A payload that ends right behind its version is refused, and has set the
epoch of a new scheduler to zero by then. -/
theorem recover_clears : ¬∀ (s : Impl) (file : Option Bytes),
    (∃ e, (s.doRecover file).2 = .error e) → s.Untouched (s.doRecover file).1 := by
  intro h
  have hs := h (.init {} 0 0 none) (some (writeFrame (putU32 0x49534348 ++ putU32 1)))
    ⟨corruption "bad request count", by decide +kernel⟩
  exact absurd hs.epoch (by decide +kernel)

end Impl

/-! ## What a state must be to come back -/

/-- The sizes are within a reader's limits. -/
@[mk_iff] structure RequestRecord.InLimits (lim : Limits) (rec : RequestRecord) : Prop where
  terminalReason : rec.terminalReason.length ≤ lim.string
  modelName : rec.spec.modelName.length ≤ lim.string
  history : rec.history.length ≤ lim.history
  attempts : ∀ a ∈ rec.history, a.errorMessage.length ≤ lim.string

@[mk_iff] structure WorkerRecord.InLimits (lim : Limits) (wr : WorkerRecord) : Prop where
  backend : wr.registration.capability.backend.length ≤ lim.string
  deviceName : wr.registration.capability.deviceName.length ≤ lim.string
  models : wr.registration.capability.models.length ≤ lim.models
  revisions : wr.registration.capability.revisions.length ≤ lim.revisions
  adapters : wr.registration.capability.adapters.length ≤ lim.adapters
  phases : wr.registration.capability.phases.length ≤ lim.phases

@[mk_iff] structure Impl.InLimits (lim : Limits) (s : Impl) : Prop where
  requests : s.requests.records.length ≤ lim.requests
  eachRequest : ∀ rec ∈ s.requests.records, rec.InLimits lim
  tenants : s.tenants.records.length ≤ lim.tenants
  workers : s.pool.workers.records.length ≤ lim.workers
  eachWorker : ∀ wr ∈ s.pool.workers.records, wr.InLimits lim

instance (lim : Limits) (rec : RequestRecord) : Decidable (rec.InLimits lim) :=
  decidable_of_iff _ (RequestRecord.inLimits_iff lim rec).symm

instance (lim : Limits) (wr : WorkerRecord) : Decidable (wr.InLimits lim) :=
  decidable_of_iff _ (WorkerRecord.inLimits_iff lim wr).symm

instance (lim : Limits) (s : Impl) : Decidable (s.InLimits lim) := decidable_of_iff _ (Impl.inLimits_iff lim s).symm

theorem length_ofText (t : String) : (ofText t).length = t.length := by
  rw [ofText, List.length_map, String.length_toList]

theorem RequestRecord.within_save_iff {lim : Limits} {now : ClockTime} {rec : RequestRecord} :
    (rec.save now).Within lim ↔ rec.InLimits lim := by
  constructor
  · intro h
    refine ⟨by rw [← length_ofText]; exact h.terminalReason, by rw [← length_ofText]; exact h.modelName,
      by simpa [save] using h.history, fun a ha => ?_⟩
    rw [← length_ofText]
    exact h.attempts a.save (List.mem_map_of_mem ha)
  · intro h
    refine ⟨by simpa [save, length_ofText] using h.terminalReason, by simpa [save, length_ofText] using h.modelName,
      by simpa [save] using h.history, fun a ha => ?_⟩
    obtain ⟨b, hb, rfl⟩ := List.mem_map.1 ha
    simpa [SavedAttempt.Within, AttemptRecord.save, length_ofText] using h.attempts b hb

theorem WorkerRecord.within_save_iff {lim : Limits} {wr : WorkerRecord} : wr.save.Within lim ↔ wr.InLimits lim := by
  constructor
  · intro h
    exact ⟨by rw [← length_ofText]; exact h.backend, by rw [← length_ofText]; exact h.deviceName, h.models, h.revisions,
      h.adapters, by simpa [save] using h.phases⟩
  · intro h
    exact ⟨by simpa [save, length_ofText] using h.backend, by simpa [save, length_ofText] using h.deviceName, h.models,
      h.revisions, h.adapters, by simpa [save] using h.phases⟩

theorem Impl.within_save_iff {lim : Limits} {s : Impl} : s.save.Within lim ↔ s.InLimits lim := by
  constructor
  · intro h
    refine ⟨by simpa [save] using h.requests, fun rec hrec => ?_, by simpa [save] using h.tenants,
      by simpa [save] using h.workers, fun wr hwr => ?_⟩
    · exact RequestRecord.within_save_iff.1 (h.eachRequest _ (List.mem_map_of_mem hrec))
    · exact WorkerRecord.within_save_iff.1 (h.eachWorker _ (List.mem_map_of_mem hwr))
  · intro h
    refine ⟨by simpa [save] using h.requests, fun r hr => ?_, by simpa [save] using h.tenants,
      by simpa [save] using h.workers, fun w hw => ?_⟩
    · obtain ⟨rec, hrec, rfl⟩ := List.mem_map.1 hr
      exact RequestRecord.within_save_iff.2 (h.eachRequest rec hrec)
    · obtain ⟨wr, hwr, rfl⟩ := List.mem_map.1 hw
      exact WorkerRecord.within_save_iff.2 (h.eachWorker wr hwr)

/-- What the source's types say of a request record: its texts are strings of
bytes and its costs are floating-point numbers. -/
@[mk_iff] structure RequestRecord.Typed (rec : RequestRecord) : Prop where
  terminalReason : IsText rec.terminalReason
  modelName : IsText rec.spec.modelName
  costUnits : Binary64.IsDouble rec.spec.demand.costUnits
  attempts : ∀ a ∈ rec.history, IsText a.errorMessage

@[mk_iff] structure WorkerRecord.Typed (wr : WorkerRecord) : Prop where
  backend : IsText wr.registration.capability.backend
  deviceName : IsText wr.registration.capability.deviceName

/-- The statistics that are written. -/
def SchedulerStats.written (t : SchedulerStats) : List ℕ :=
  [t.requestsSubmitted, t.requestsAdmitted, t.requestsCompleted, t.requestsCancelled, t.requestsFailed,
    t.requestsExpired, t.attemptsCreated, t.dispatches, t.retries]

/-- What the source's types say of a state: numbers are in the range of their
type, sizes and the size of the file are 64-bit numbers, texts are strings of
bytes, weights and costs are floating-point numbers. -/
@[mk_iff] structure Impl.Typed (s : Impl) : Prop where
  numbers : s.save.Fits
  sizes : s.InLimits noLimits
  file : s.serializeLocked.length + 24 < 2 ^ 64
  requests : ∀ rec ∈ s.requests.records, rec.Typed
  workers : ∀ wr ∈ s.pool.workers.records, wr.Typed
  weights : ∀ t ∈ s.tenants.records, Binary64.IsDouble t.weight
  stats : ∀ n ∈ s.stats.written, n < 2 ^ 64

instance (rec : RequestRecord) : Decidable rec.Typed := decidable_of_iff _ (RequestRecord.typed_iff rec).symm

instance (wr : WorkerRecord) : Decidable wr.Typed := decidable_of_iff _ (WorkerRecord.typed_iff wr).symm

instance (s : Impl) : Decidable s.Typed := decidable_of_iff _ (Impl.typed_iff s).symm

/-! ## Images are determined by their bytes -/

theorem Limits.le_sizes {lim : Limits} {n : ℕ}
    (h : n ∈ [lim.requests, lim.tenants, lim.workers, lim.history, lim.models, lim.revisions, lim.adapters, lim.phases,
      lim.string]) : n ≤ 2 ^ 64 - 1 :=
  Nat.le_sub_one_of_lt (lim.sizes n h)

theorem SavedRequest.Within.sizes {lim : Limits} {r : SavedRequest} (h : r.Within lim) : r.Within noLimits :=
  ⟨h.terminalReason.trans (lim.le_sizes (by simp)), h.modelName.trans (lim.le_sizes (by simp)),
    h.history.trans (lim.le_sizes (by simp)), fun a ha => (h.attempts a ha).trans (lim.le_sizes (by simp))⟩

theorem SavedWorker.Within.sizes {lim : Limits} {w : SavedWorker} (h : w.Within lim) : w.Within noLimits :=
  ⟨h.backend.trans (lim.le_sizes (by simp)), h.deviceName.trans (lim.le_sizes (by simp)),
    h.models.trans (lim.le_sizes (by simp)), h.revisions.trans (lim.le_sizes (by simp)),
    h.adapters.trans (lim.le_sizes (by simp)), h.phases.trans (lim.le_sizes (by simp))⟩

theorem SavedState.Within.sizes {lim : Limits} {img : SavedState} (h : img.Within lim) : img.Within noLimits :=
  ⟨h.requests.trans (lim.le_sizes (by simp)), fun r hr => (h.eachRequest r hr).sizes,
    h.tenants.trans (lim.le_sizes (by simp)), h.workers.trans (lim.le_sizes (by simp)),
    fun w hw => (h.eachWorker w hw).sizes⟩

/-- A reader without limits would read either image, so they are the same. -/
theorem SavedState.encode_append_inj {img img' : SavedState} {rest rest' : Bytes} (hfits : img.Fits) (hfits' : img'.Fits)
    (hsize : img.Within noLimits) (hsize' : img'.Within noLimits) (h : img.encode ++ rest = img'.encode ++ rest') :
    img = img' ∧ rest = rest' := by
  have hread : load noLimits (⟨img.encode ++ rest, true⟩, none) = (.ok (), (⟨rest, true⟩, some img)) :=
    load_iff.2 ⟨img, rfl, rfl, hfits, hsize⟩
  have hread' : load noLimits (⟨img'.encode ++ rest', true⟩, none) = (.ok (), (⟨rest', true⟩, some img')) :=
    load_iff.2 ⟨img', rfl, rfl, hfits', hsize'⟩
  rw [h, hread'] at hread
  cases hread
  exact ⟨rfl, rfl⟩

namespace Impl

theorem decodes_serialized_iff {s : Impl} (h : s.Typed) :
    (∃ img rest, Decodes s.serializeLocked img rest) ↔ s.InLimits readerLimits := by
  rw [← within_save_iff]
  constructor
  · intro hd
    obtain ⟨img, rest, hbytes, hfits, hwithin⟩ := hd
    have heq : s.save.encode ++ [] = img.encode ++ rest := by rw [List.append_nil]; exact hbytes
    obtain ⟨rfl, -⟩ := SavedState.encode_append_inj h.numbers hfits (within_save_iff.2 h.sizes) hwithin.sizes heq
    exact hwithin
  · intro hw
    exact ⟨s.save, [], (List.append_nil _).symm, h.numbers, hw⟩

theorem doPersist_of_enabled {s : Impl} (h : s.cfg.persistRecovery = true) :
    s.doPersist = .ok (writeFrame s.serializeLocked) := by
  rw [doPersist, h]
  rfl

/-- What is read of a file that was persisted. -/
theorem readPersistenceFile_of_persisted {s : Impl} {file : Bytes} (h : s.Typed) (hfile : s.doPersist = .ok file) :
    readPersistenceFile (some file) = .ok s.serializeLocked := by
  rw [doPersist] at hfile
  split at hfile
  · cases hfile
  · cases hfile
    exact readPersistenceFile_ok_iff.2 ⟨h.file, rfl⟩

/-- **A persisted state can be recovered exactly if its sizes are within the
limits of the reader**, which the writer does not look at. -/
theorem recover_persisted_iff (s t : Impl) (file : Bytes) (h : s.Typed) (hfile : s.doPersist = .ok file) :
    (t.doRecover (some file)).2 = .ok () ↔ s.InLimits readerLimits := by
  rw [doRecover_of_payload (readPersistenceFile_of_persisted h hfile), deserializeLocked_ok_iff, decodes_serialized_iff h]

/-- A scheduler that may be persisted. -/
def durable : Impl := .init { persistRecovery := true } 0 0x80000001 none

theorem recover_persisted_worker :
    let s := scheduler.run durable [.registerWorker { worker := ⟨3⟩, bootId := ⟨9⟩ }]
    s.Typed ∧ (durable.doRecover (some (writeFrame s.serializeLocked))).2 = .ok () := by
  have htyped : (scheduler.run durable [.registerWorker { worker := ⟨3⟩, bootId := ⟨9⟩ }]).Typed := by decide +kernel
  exact ⟨htyped, (recover_persisted_iff _ durable _ htyped rfl).2 (by decide +kernel)⟩

/-- A worker that lists seventeen phases is registered and persisted, and then
the file cannot be read. -/
theorem persisted_unreadable : ¬∀ (cfg : SchedulerConfig) (now : ClockTime) (salt : UInt64) (epoch : Option SchedulerEpoch)
    (ops : List Op) (t : Impl) (file : Bytes), (scheduler.run (.init cfg now salt epoch) ops).doPersist = .ok file →
    (t.doRecover (some file)).2 = .ok () := by
  intro h
  have hs := h { persistRecovery := true } 0 0x80000001 none
    [.registerWorker { worker := ⟨3⟩, bootId := ⟨9⟩, capability := { phases := List.replicate 17 .prefill } }] durable _ rfl
  exact absurd hs (by decide +kernel)

end Impl

/-! ## What is not looked at -/

/-- A request of an image that is not over. -/
def SavedRequest.live (r : SavedRequest) : Bool := !isTerminal (ofCode RequestState.all .created r.state)

/-- The codes of an attempt are those of enumerators. -/
structure SavedAttempt.Coded (a : SavedAttempt) : Prop where
  state : Named AttemptState.all.length a.state
  finalStatus : Named 6 a.finalStatus
  failureClass : Named FailureClass.all.length a.failureClass

structure SavedRequest.Coded (r : SavedRequest) : Prop where
  state : Named RequestState.all.length r.state
  cancelReason : Named CancellationReason.all.length r.cancelReason
  phase : Named 3 r.phase
  priority : Named 5 r.priority
  latencyClass : Named 4 r.latencyClass
  history : ∀ a ∈ r.history, a.Coded

structure SavedWorker.Coded (w : SavedWorker) : Prop where
  state : Named WorkerState.all.length w.state
  phases : ∀ p ∈ w.phases, Named 3 p

/-- The last attempt of a request is its current one. -/
def SavedRequest.Attached (r : SavedRequest) : Prop :=
  ∃ a, r.history.getLast? = some a ∧ a.attemptId = r.currentAttempt ∧ a.generation = r.generation

/-- What recovery is to accept only. -/
structure SavedState.Consistent (img : SavedState) : Prop where
  requestIds : (img.requests.map (·.requestId)).Nodup
  tenantIds : (img.tenants.map (·.tenant)).Nodup
  workerIds : (img.workers.map (·.worker)).Nodup
  requests : ∀ r ∈ img.requests, r.Coded
  workers : ∀ w ∈ img.workers, w.Coded
  attached : ∀ r ∈ img.requests, r.live = true → r.Attached
  admitted : img.header.globalAdmitted = img.requests.countP (·.live)

/-- A worker in a state that does not exist. -/
def strayWorker : SavedWorker := { ({} : WorkerRecord).save with state := 99 }

def strayState : SavedState := { header := Impl.durable.saveHeader, workers := [strayWorker] }

example : (Impl.durable.deserializeLocked (strayState.encode ++ [0])).2 = .ok () := by decide +kernel

end InferenceScheduler
