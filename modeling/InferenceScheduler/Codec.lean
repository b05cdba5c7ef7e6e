/-
The writer and the reader of images (`src/scheduler.cpp`, `serialize_locked`,
`deserialize_locked`), each with its own list of fields, and that they fit
together: the reader goes through exactly on the data that starts with what
the writer makes of an image within the reader's limits (`load_iff`).

The limits are parameters of the reader. With the largest ones it reads every
image back, so an image is determined by its bytes.
-/
import InferenceScheduler.Image
import Mathlib.Tactic.MkIffOfInductiveProp

namespace InferenceScheduler

open Binary

/-- The sizes a reader puts up with. -/
structure Limits where
  requests : ℕ
  tenants : ℕ
  workers : ℕ
  history : ℕ
  models : ℕ
  revisions : ℕ
  adapters : ℕ
  phases : ℕ
  string : ℕ
  /-- Sizes are 64-bit numbers. -/
  sizes : ∀ n ∈ [requests, tenants, workers, history, models, revisions, adapters, phases, string], n < 2 ^ 64

/-- The limits of `deserialize_locked` and `BinReader::str`. -/
def readerLimits : Limits where
  requests := 10000000
  tenants := 100000
  workers := 100000
  history := 4096
  models := 4096
  revisions := 4096
  adapters := 4096
  phases := 16
  string := 16 * 1024 * 1024
  sizes := by decide

/-- No limits but those of the sizes themselves. -/
def noLimits : Limits where
  requests := 2 ^ 64 - 1
  tenants := 2 ^ 64 - 1
  workers := 2 ^ 64 - 1
  history := 2 ^ 64 - 1
  models := 2 ^ 64 - 1
  revisions := 2 ^ 64 - 1
  adapters := 2 ^ 64 - 1
  phases := 2 ^ 64 - 1
  string := 2 ^ 64 - 1
  sizes := by decide

/-! ## Writing -/

def putId {t : IdTag} (i : Id t) : Bytes := putU64 i.value

def SavedId.put {t : IdTag} : SavedId t → Bytes
  | .absent => putU8 0
  | .present mark _ id => putU8 mark ++ putId id

/-- The length of a list, as it is written in front of it. -/
def putCount {α : Type} (l : List α) : Bytes := putU64 (UInt64.ofNat l.length)

def SavedAttempt.pieces (a : SavedAttempt) : List Bytes :=
  [putId a.attemptId, putId a.generation, putI32 a.state, putId a.worker, putId a.batch, putI32 a.finalStatus,
    putI32 a.failureClass, putStr a.errorMessage, putI64 a.outputTokens, putI64 a.workUnits, putI64 a.durationUs]

def SavedRequest.pieces (r : SavedRequest) : List Bytes :=
  [putId r.requestId, putI32 r.state, putId r.currentAttempt, putId r.generation, putI32 r.attemptsUsed,
    putU8 r.cancellationRequested, putU8 r.cancellationCommitted, putI32 r.cancelReason, putStr r.terminalReason,
    putId r.tenant, putId r.session, putId r.sequence, putId r.model, putId r.revision, r.adapter.put,
    putI32 r.phase, putI32 r.priority, putI32 r.latencyClass,
    putI64 r.tokensInput, putI64 r.tokensOutput, putI64 r.tokensDecoded,
    putI64 r.estimatedMemoryBytes, putI32 r.maxBatchSize, putStr r.modelName,
    putI64 r.demandMemoryBytes, putU64 r.costUnits, putI64 r.remaining, putCount r.history] ++
    r.history.flatMap (·.pieces)

def SavedTenant.pieces (t : SavedTenant) : List Bytes :=
  [putId t.tenant, putU64 t.weight, putI32 t.admitted, putI32 t.queued, putI32 t.running,
    putI64 t.servicesConsumed, putI64 t.serviceDebt]

def SavedWorker.pieces (w : SavedWorker) : List Bytes :=
  [putId w.worker, putId w.node, putId w.accelerator, putId w.bootId, putI32 w.state, putStr w.backend,
    putStr w.deviceName, putI32 w.totalCapacityUnits, putI32 w.availableCapacityUnits,
    putI64 w.memoryBytesTotal, putI64 w.memoryBytesAvailable] ++
    putCount w.models :: (w.models.flatMap (fun x => [putId x]) ++
    putCount w.revisions :: (w.revisions.flatMap (fun x => [putId x]) ++
    putCount w.adapters :: (w.adapters.flatMap (fun x => [putId x]) ++
    putCount w.phases :: w.phases.flatMap fun x => [putI32 x])))

def SavedHeader.pieces (h : SavedHeader) : List Bytes :=
  [putU64 h.epoch, putI64 h.globalAdmitted, putI64 h.globalQueued, putI64 h.globalReservedUnits,
    putI64 h.globalRunningUnits, putI64 h.globalTokens, putU64 h.requestsSubmitted, putU64 h.requestsAdmitted,
    putU64 h.requestsCompleted, putU64 h.requestsCancelled, putU64 h.requestsFailed, putU64 h.requestsExpired,
    putU64 h.attemptsCreated, putU64 h.dispatches, putU64 h.retries]

/-- The records behind the header. -/
def SavedState.putRecords (img : SavedState) : Bytes :=
  putCount img.requests ++ img.requests.flatMap (·.pieces.flatten) ++
    (putCount img.tenants ++ img.tenants.flatMap (·.pieces.flatten)) ++
    (putCount img.workers ++ img.workers.flatMap (·.pieces.flatten))

/-- The bytes of an image. -/
def SavedState.encode (img : SavedState) : Bytes :=
  putU32 0x49534348 ++ (putU32 1 ++ (img.header.pieces.flatten ++ img.putRecords))

/-! ## Reading -/

def getId {t : IdTag} : Get (Id t) := do return ⟨← u64⟩

def getSavedId {t : IdTag} : Get (SavedId t) := do
  let mark ← u8
  if h : mark = 0 then return .absent else return .present mark h (← getId)

section load

variable {σ : Type}

def loadAttempt (lim : Limits) : Load σ Error SavedAttempt := do
  let attemptId ← read getId
  let generation ← read getId
  let state ← read i32
  let worker ← read getId
  let batch ← read getId
  let finalStatus ← read i32
  let failureClass ← read i32
  let errorMessage ← read (str lim.string)
  let outputTokens ← read i64
  let workUnits ← read i64
  let durationUs ← read i64
  require True (corruption "attempt record truncated")
  return { attemptId, generation, state, worker, batch, finalStatus, failureClass, errorMessage, outputTokens,
           workUnits, durationUs }

def loadRequest (lim : Limits) : Load σ Error SavedRequest := do
  let requestId ← read getId
  let state ← read i32
  let currentAttempt ← read getId
  let generation ← read getId
  let attemptsUsed ← read i32
  require True (corruption "request record truncated")
  let cancellationRequested ← read u8
  let cancellationCommitted ← read u8
  let cancelReason ← read i32
  let terminalReason ← read (str lim.string)
  let tenant ← read getId
  let session ← read getId
  let sequence ← read getId
  let model ← read getId
  let revision ← read getId
  let adapter ← read getSavedId
  let phase ← read i32
  let priority ← read i32
  let latencyClass ← read i32
  let tokensInput ← read i64
  let tokensOutput ← read i64
  let tokensDecoded ← read i64
  let estimatedMemoryBytes ← read i64
  let maxBatchSize ← read i32
  let modelName ← read (str lim.string)
  let demandMemoryBytes ← read i64
  let costUnits ← read u64
  let remaining ← read i64
  let history ← counted lim.history (corruption "bad history count") (loadAttempt lim)
  return { requestId, state, currentAttempt, generation, attemptsUsed, cancellationRequested, cancellationCommitted,
           cancelReason, terminalReason, tenant, session, sequence, model, revision, adapter, phase, priority,
           latencyClass, tokensInput, tokensOutput, tokensDecoded, estimatedMemoryBytes, maxBatchSize, modelName,
           demandMemoryBytes, costUnits, remaining, history }

def loadTenant : Load σ Error SavedTenant := do
  let tenant ← read getId
  let weight ← read u64
  let admitted ← read i32
  let queued ← read i32
  let running ← read i32
  let servicesConsumed ← read i64
  let serviceDebt ← read i64
  require True (corruption "tenant record corrupted")
  return { tenant, weight, admitted, queued, running, servicesConsumed, serviceDebt }

def loadWorker (lim : Limits) : Load σ Error SavedWorker := do
  let worker ← read getId
  let node ← read getId
  let accelerator ← read getId
  let bootId ← read getId
  let state ← read i32
  let backend ← read (str lim.string)
  let deviceName ← read (str lim.string)
  let totalCapacityUnits ← read i32
  let availableCapacityUnits ← read i32
  let memoryBytesTotal ← read i64
  let memoryBytesAvailable ← read i64
  let models ← counted lim.models (corruption "bad model count") (read getId)
  let revisions ← counted lim.revisions (corruption "bad revision count") (read getId)
  let adapters ← counted lim.adapters (corruption "bad adapter count") (read getId)
  let phases ← counted lim.phases (corruption "bad phase count") (read i32)
  require True (corruption "worker record corrupted")
  return { worker, node, accelerator, bootId, state, backend, deviceName, totalCapacityUnits, availableCapacityUnits,
           memoryBytesTotal, memoryBytesAvailable, models, revisions, adapters, phases }

def loadHeader : Load σ Error SavedHeader := do
  let epoch ← read u64
  let globalAdmitted ← read i64
  let globalQueued ← read i64
  let globalReservedUnits ← read i64
  let globalRunningUnits ← read i64
  let globalTokens ← read i64
  let requestsSubmitted ← read u64
  let requestsAdmitted ← read u64
  let requestsCompleted ← read u64
  let requestsCancelled ← read u64
  let requestsFailed ← read u64
  let requestsExpired ← read u64
  let attemptsCreated ← read u64
  let dispatches ← read u64
  let retries ← read u64
  return { epoch, globalAdmitted, globalQueued, globalReservedUnits, globalRunningUnits, globalTokens,
           requestsSubmitted, requestsAdmitted, requestsCompleted, requestsCancelled, requestsFailed,
           requestsExpired, attemptsCreated, dispatches, retries }

end load

def SavedState.addRequest (img : SavedState) (r : SavedRequest) : SavedState :=
  { img with requests := img.requests ++ [r] }

def SavedState.addTenant (img : SavedState) (t : SavedTenant) : SavedState :=
  { img with tenants := img.tenants ++ [t] }

def SavedState.addWorker (img : SavedState) (w : SavedWorker) : SavedState :=
  { img with workers := img.workers ++ [w] }

def loadRequests (lim : Limits) : Load (Option SavedState) Error Unit :=
  repeated lim.requests (corruption "bad request count") do
    let r ← loadRequest lim
    store (Option.map (·.addRequest r))

def loadTenants (lim : Limits) : Load (Option SavedState) Error Unit :=
  repeated lim.tenants (corruption "bad tenant count") do
    let t ← loadTenant
    store (Option.map (·.addTenant t))

def loadWorkers (lim : Limits) : Load (Option SavedState) Error Unit :=
  repeated lim.workers (corruption "bad worker count") do
    let w ← loadWorker lim
    store (Option.map (·.addWorker w))

/-- The records behind the header. -/
def loadRecords (lim : Limits) : Load (Option SavedState) Error Unit := do
  loadRequests lim
  loadTenants lim
  loadWorkers lim
  require True (corruption "trailing corruption at end of payload")

/-- The reading part of `deserialize_locked`. What is stored is what has been
read of the image; nothing is until the format is known to be right, which is
when the source clears its maps. -/
def load (lim : Limits) : Load (Option SavedState) Error Unit := do
  let magic ← read u32
  let version ← read u32
  require (magic = 0x49534348) (corruption "bad magic")
  require (version = 1) (corruption "bad format version")
  let header ← loadHeader
  store fun _ => some { header }
  loadRecords lim

/-! ## Images that fit their fields -/

/-- The numbers are in the range of their fields. -/
@[mk_iff] structure SavedAttempt.Fits (a : SavedAttempt) : Prop where
  state : FitsInt 32 a.state
  finalStatus : FitsInt 32 a.finalStatus
  failureClass : FitsInt 32 a.failureClass
  outputTokens : FitsInt 64 a.outputTokens
  workUnits : FitsInt 64 a.workUnits
  durationUs : FitsInt 64 a.durationUs

/-- The sizes are within a reader's limits. -/
def SavedAttempt.Within (lim : Limits) (a : SavedAttempt) : Prop := a.errorMessage.length ≤ lim.string

@[mk_iff] structure SavedRequest.Fits (r : SavedRequest) : Prop where
  state : FitsInt 32 r.state
  attemptsUsed : FitsInt 32 r.attemptsUsed
  cancelReason : FitsInt 32 r.cancelReason
  phase : FitsInt 32 r.phase
  priority : FitsInt 32 r.priority
  latencyClass : FitsInt 32 r.latencyClass
  tokensInput : FitsInt 64 r.tokensInput
  tokensOutput : FitsInt 64 r.tokensOutput
  tokensDecoded : FitsInt 64 r.tokensDecoded
  estimatedMemoryBytes : FitsInt 64 r.estimatedMemoryBytes
  maxBatchSize : FitsInt 32 r.maxBatchSize
  demandMemoryBytes : FitsInt 64 r.demandMemoryBytes
  remaining : FitsInt 64 r.remaining
  history : ∀ a ∈ r.history, a.Fits

@[mk_iff] structure SavedRequest.Within (lim : Limits) (r : SavedRequest) : Prop where
  terminalReason : r.terminalReason.length ≤ lim.string
  modelName : r.modelName.length ≤ lim.string
  history : r.history.length ≤ lim.history
  attempts : ∀ a ∈ r.history, a.Within lim

@[mk_iff] structure SavedTenant.Fits (t : SavedTenant) : Prop where
  admitted : FitsInt 32 t.admitted
  queued : FitsInt 32 t.queued
  running : FitsInt 32 t.running
  servicesConsumed : FitsInt 64 t.servicesConsumed
  serviceDebt : FitsInt 64 t.serviceDebt

@[mk_iff] structure SavedWorker.Fits (w : SavedWorker) : Prop where
  state : FitsInt 32 w.state
  totalCapacityUnits : FitsInt 32 w.totalCapacityUnits
  availableCapacityUnits : FitsInt 32 w.availableCapacityUnits
  memoryBytesTotal : FitsInt 64 w.memoryBytesTotal
  memoryBytesAvailable : FitsInt 64 w.memoryBytesAvailable
  phases : ∀ p ∈ w.phases, FitsInt 32 p

@[mk_iff] structure SavedWorker.Within (lim : Limits) (w : SavedWorker) : Prop where
  backend : w.backend.length ≤ lim.string
  deviceName : w.deviceName.length ≤ lim.string
  models : w.models.length ≤ lim.models
  revisions : w.revisions.length ≤ lim.revisions
  adapters : w.adapters.length ≤ lim.adapters
  phases : w.phases.length ≤ lim.phases

@[mk_iff] structure SavedHeader.Fits (h : SavedHeader) : Prop where
  globalAdmitted : FitsInt 64 h.globalAdmitted
  globalQueued : FitsInt 64 h.globalQueued
  globalReservedUnits : FitsInt 64 h.globalReservedUnits
  globalRunningUnits : FitsInt 64 h.globalRunningUnits
  globalTokens : FitsInt 64 h.globalTokens

@[mk_iff] structure SavedState.Fits (img : SavedState) : Prop where
  header : img.header.Fits
  requests : ∀ r ∈ img.requests, r.Fits
  tenants : ∀ t ∈ img.tenants, t.Fits
  workers : ∀ w ∈ img.workers, w.Fits

@[mk_iff] structure SavedState.Within (lim : Limits) (img : SavedState) : Prop where
  requests : img.requests.length ≤ lim.requests
  eachRequest : ∀ r ∈ img.requests, r.Within lim
  tenants : img.tenants.length ≤ lim.tenants
  workers : img.workers.length ≤ lim.workers
  eachWorker : ∀ w ∈ img.workers, w.Within lim

instance (a : SavedAttempt) : Decidable a.Fits := decidable_of_iff _ (SavedAttempt.fits_iff a).symm

instance (r : SavedRequest) : Decidable r.Fits := decidable_of_iff _ (SavedRequest.fits_iff r).symm

instance (t : SavedTenant) : Decidable t.Fits := decidable_of_iff _ (SavedTenant.fits_iff t).symm

instance (w : SavedWorker) : Decidable w.Fits := decidable_of_iff _ (SavedWorker.fits_iff w).symm

instance (h : SavedHeader) : Decidable h.Fits := decidable_of_iff _ (SavedHeader.fits_iff h).symm

instance (img : SavedState) : Decidable img.Fits := decidable_of_iff _ (SavedState.fits_iff img).symm

/-! ## The reader reads what the writer writes -/

theorem exact_id {t : IdTag} : Exact (getId : Get (Id t)) putId fun _ => True :=
  exact_u64.map (f := Id.mk) (fun _ _ => ⟨rfl, trivial⟩) fun _ _ => ⟨rfl, trivial⟩

theorem exact_present {t : IdTag} (mark : UInt8) (h : mark ≠ 0) :
    Exact (do return SavedId.present mark h (← getId) : Get (SavedId t)) (fun v => putId v.restore)
      fun v => ∃ i, v = .present mark h i :=
  exact_id.map (fun i _ => ⟨rfl, i, rfl⟩) fun v hv => by
    obtain ⟨i, rfl⟩ := hv
    exact ⟨rfl, trivial⟩

theorem exact_savedId {t : IdTag} : Exact (getSavedId : Get (SavedId t)) SavedId.put fun _ => True := by
  intro r v rest
  rw [getSavedId, exact_u8.bind_iff]
  · constructor
    · intro h
      obtain ⟨mark, data, rfl, -, h⟩ := h
      split at h
      · next h0 =>
        cases h
        exact ⟨by rw [h0]; rfl, trivial⟩
      · next h0 =>
        obtain ⟨hdata, i, rfl⟩ := (exact_present mark h0 ⟨data, true⟩ v rest).1 h
        obtain ⟨rfl, -⟩ := Reader.mk.inj hdata
        exact ⟨by rw [SavedId.put, List.append_assoc]; rfl, trivial⟩
    · intro h
      obtain ⟨rfl, -⟩ := h
      cases v with
      | absent => exact ⟨0, rest, rfl, trivial, rfl⟩
      | present mark h0 i =>
        refine ⟨mark, putId i ++ rest, by rw [SavedId.put, List.append_assoc], trivial, ?_⟩
        rw [dif_neg h0]
        exact (exact_present mark h0 _ _ rest).2 ⟨rfl, i, rfl⟩
  · intro mark r v rest h
    split at h
    · cases h
      rfl
    · next h0 => exact (exact_present mark h0).ok h

section codes

variable {σ : Type} (lim : Limits)

theorem Limits.string_lt : lim.string < 2 ^ 64 := lim.sizes _ (by simp)

theorem codes_attempt : Codes (loadAttempt lim : Load σ Error SavedAttempt) SavedAttempt.pieces
    (fun a => a.Fits ∧ a.Within lim) fun _ => True := by
  refine Codes.congr (.read exact_id SavedAttempt.attemptId fun _ => .read exact_id SavedAttempt.generation fun _ =>
    .read exact_i32 SavedAttempt.state fun _ => .read exact_id SavedAttempt.worker fun _ =>
    .read exact_id SavedAttempt.batch fun _ => .read exact_i32 SavedAttempt.finalStatus fun _ =>
    .read exact_i32 SavedAttempt.failureClass fun _ =>
    .read (exact_str lim.string_lt) SavedAttempt.errorMessage fun _ => .read exact_i64 SavedAttempt.outputTokens fun _ =>
    .read exact_i64 SavedAttempt.workUnits fun _ => .read exact_i64 SavedAttempt.durationUs fun _ =>
    .require (codes_pure fun a => ?_) fun _ _ => Iff.rfl) fun a => ?_
  · rw [SavedAttempt.ext_iff]
    tauto
  · simp only [SavedAttempt.Within, true_and, and_true]
    constructor
    · intro h
      obtain ⟨h1, h2, h3, h4, h5, h6, h7⟩ := h
      exact ⟨⟨h1, h2, h3, h5, h6, h7⟩, h4⟩
    · intro h
      exact ⟨h.1.state, h.1.finalStatus, h.1.failureClass, h.2, h.1.outputTokens, h.1.workUnits, h.1.durationUs⟩

theorem codes_tenant : Codes (loadTenant : Load σ Error SavedTenant) SavedTenant.pieces SavedTenant.Fits
    fun _ => True := by
  refine Codes.congr (.read exact_id SavedTenant.tenant fun _ => .read exact_u64 SavedTenant.weight fun _ =>
    .read exact_i32 SavedTenant.admitted fun _ => .read exact_i32 SavedTenant.queued fun _ =>
    .read exact_i32 SavedTenant.running fun _ => .read exact_i64 SavedTenant.servicesConsumed fun _ =>
    .read exact_i64 SavedTenant.serviceDebt fun _ =>
    .require (codes_pure fun t => ?_) fun _ _ => Iff.rfl) fun t => ?_
  · rw [SavedTenant.ext_iff]
    tauto
  · simp only [true_and, and_true]
    constructor
    · intro h
      obtain ⟨h1, h2, h3, h4, h5⟩ := h
      exact ⟨h1, h2, h3, h4, h5⟩
    · intro h
      exact ⟨h.admitted, h.queued, h.running, h.servicesConsumed, h.serviceDebt⟩

theorem codes_header : Codes (loadHeader : Load σ Error SavedHeader) SavedHeader.pieces SavedHeader.Fits
    fun _ => True := by
  refine Codes.congr (.read exact_u64 SavedHeader.epoch fun _ => .read exact_i64 SavedHeader.globalAdmitted fun _ =>
    .read exact_i64 SavedHeader.globalQueued fun _ => .read exact_i64 SavedHeader.globalReservedUnits fun _ =>
    .read exact_i64 SavedHeader.globalRunningUnits fun _ => .read exact_i64 SavedHeader.globalTokens fun _ =>
    .read exact_u64 SavedHeader.requestsSubmitted fun _ => .read exact_u64 SavedHeader.requestsAdmitted fun _ =>
    .read exact_u64 SavedHeader.requestsCompleted fun _ => .read exact_u64 SavedHeader.requestsCancelled fun _ =>
    .read exact_u64 SavedHeader.requestsFailed fun _ => .read exact_u64 SavedHeader.requestsExpired fun _ =>
    .read exact_u64 SavedHeader.attemptsCreated fun _ => .read exact_u64 SavedHeader.dispatches fun _ =>
    .read exact_u64 SavedHeader.retries fun _ => codes_pure fun h => ?_) fun h => ?_
  · rw [SavedHeader.ext_iff]
    tauto
  · simp only [true_and, and_true]
    constructor
    · intro hh
      obtain ⟨h1, h2, h3, h4, h5⟩ := hh
      exact ⟨h1, h2, h3, h4, h5⟩
    · intro hh
      exact ⟨hh.globalAdmitted, hh.globalQueued, hh.globalReservedUnits, hh.globalRunningUnits, hh.globalTokens⟩

theorem codes_request : Codes (loadRequest lim : Load σ Error SavedRequest) SavedRequest.pieces
    (fun r => r.Fits ∧ r.Within lim) fun _ => True := by
  refine Codes.congr (.read exact_id SavedRequest.requestId fun _ => .read exact_i32 SavedRequest.state fun _ =>
    .read exact_id SavedRequest.currentAttempt fun _ => .read exact_id SavedRequest.generation fun _ =>
    .read exact_i32 SavedRequest.attemptsUsed fun _ => .require (.read exact_u8 SavedRequest.cancellationRequested fun _ =>
    .read exact_u8 SavedRequest.cancellationCommitted fun _ => .read exact_i32 SavedRequest.cancelReason fun _ =>
    .read (exact_str lim.string_lt) SavedRequest.terminalReason fun _ => .read exact_id SavedRequest.tenant fun _ =>
    .read exact_id SavedRequest.session fun _ => .read exact_id SavedRequest.sequence fun _ =>
    .read exact_id SavedRequest.model fun _ => .read exact_id SavedRequest.revision fun _ =>
    .read exact_savedId SavedRequest.adapter fun _ => .read exact_i32 SavedRequest.phase fun _ =>
    .read exact_i32 SavedRequest.priority fun _ => .read exact_i32 SavedRequest.latencyClass fun _ =>
    .read exact_i64 SavedRequest.tokensInput fun _ => .read exact_i64 SavedRequest.tokensOutput fun _ =>
    .read exact_i64 SavedRequest.tokensDecoded fun _ => .read exact_i64 SavedRequest.estimatedMemoryBytes fun _ =>
    .read exact_i32 SavedRequest.maxBatchSize fun _ => .read (exact_str lim.string_lt) SavedRequest.modelName fun _ =>
    .read exact_i64 SavedRequest.demandMemoryBytes fun _ => .read exact_u64 SavedRequest.costUnits fun _ =>
    .read exact_i64 SavedRequest.remaining fun _ =>
    .bind_last (codes_counted (lim.sizes _ (by simp)) (codes_attempt lim)) SavedRequest.history fun _ =>
    codes_pure fun r => ?_) fun _ _ => Iff.rfl) fun r => ?_
  · rw [SavedRequest.ext_iff]
    tauto
  · simp only [true_and, and_true]
    constructor
    · intro h
      obtain ⟨h1, h2, h3, h4, h5, h6, h7, h8, h9, h10, h11, h12, h13, h14, h15, h16, h17⟩ := h
      exact ⟨⟨h1, h2, h3, h5, h6, h7, h8, h9, h10, h11, h12, h14, h15, fun a ha => (h17 a ha).1⟩,
        ⟨h4, h13, h16, fun a ha => (h17 a ha).2⟩⟩
    · intro h
      exact ⟨h.1.state, h.1.attemptsUsed, h.1.cancelReason, h.2.terminalReason, h.1.phase, h.1.priority,
        h.1.latencyClass, h.1.tokensInput, h.1.tokensOutput, h.1.tokensDecoded, h.1.estimatedMemoryBytes,
        h.1.maxBatchSize, h.2.modelName, h.1.demandMemoryBytes, h.1.remaining, h.2.history,
        fun a ha => ⟨h.1.history a ha, h.2.attempts a ha⟩⟩

theorem codes_worker : Codes (loadWorker lim : Load σ Error SavedWorker) SavedWorker.pieces
    (fun w => w.Fits ∧ w.Within lim) fun _ => True := by
  refine Codes.congr (.read exact_id SavedWorker.worker fun _ => .read exact_id SavedWorker.node fun _ =>
    .read exact_id SavedWorker.accelerator fun _ => .read exact_id SavedWorker.bootId fun _ =>
    .read exact_i32 SavedWorker.state fun _ => .read (exact_str lim.string_lt) SavedWorker.backend fun _ =>
    .read (exact_str lim.string_lt) SavedWorker.deviceName fun _ =>
    .read exact_i32 SavedWorker.totalCapacityUnits fun _ => .read exact_i32 SavedWorker.availableCapacityUnits fun _ =>
    .read exact_i64 SavedWorker.memoryBytesTotal fun _ => .read exact_i64 SavedWorker.memoryBytesAvailable fun _ =>
    .bind (codes_counted (lim.sizes _ (by simp)) (codes_read exact_id)) SavedWorker.models fun _ =>
    .bind (codes_counted (lim.sizes _ (by simp)) (codes_read exact_id)) SavedWorker.revisions fun _ =>
    .bind (codes_counted (lim.sizes _ (by simp)) (codes_read exact_id)) SavedWorker.adapters fun _ =>
    .bind_last (codes_counted (lim.sizes _ (by simp)) (codes_read exact_i32)) SavedWorker.phases fun _ =>
    .require (codes_pure fun w => ?_) fun _ _ => Iff.rfl) fun w => ?_
  · rw [SavedWorker.ext_iff]
    tauto
  · simp only [true_and, and_true, implies_true]
    constructor
    · intro h
      obtain ⟨h1, h2, h3, h4, h5, h6, h7, h8, h9, h10, h11, h12⟩ := h
      exact ⟨⟨h1, h4, h5, h6, h7, h12⟩, ⟨h2, h3, h8, h9, h10, h11⟩⟩
    · intro h
      exact ⟨h.1.state, h.2.backend, h.2.deviceName, h.1.totalCapacityUnits, h.1.availableCapacityUnits,
        h.1.memoryBytesTotal, h.1.memoryBytesAvailable, h.2.models, h.2.revisions, h.2.adapters, h.2.phases,
        h.1.phases⟩

end codes

/-- Records added one by one to a field of the image. -/
theorem foldl_add {α : Type} {add : SavedState → α → SavedState} {extend : List α → SavedState → SavedState}
    (hnil : ∀ img, extend [] img = img) (hcons : ∀ a as img, extend as (add img a) = extend (a :: as) img) :
    ∀ (as : List α) (img : SavedState), as.foldl (fun s a => s.map (add · a)) (some img) = some (extend as img)
  | [], img => by rw [List.foldl_nil, hnil]
  | a :: as, img => by rw [List.foldl_cons, Option.map_some, foldl_add hnil hcons as, hcons]

theorem foldl_records (header : SavedHeader) (rs : List SavedRequest) (ts : List SavedTenant) (ws : List SavedWorker) :
    ws.foldl (fun s w => s.map (SavedState.addWorker · w)) (ts.foldl (fun s t => s.map (SavedState.addTenant · t))
      (rs.foldl (fun s r => s.map (SavedState.addRequest · r)) (some ({ header } : SavedState)))) =
      some { header, requests := rs, tenants := ts, workers := ws } := by
  rw [@foldl_add _ _ (fun rs img => { img with requests := img.requests ++ rs }),
    @foldl_add _ _ (fun ts img => { img with tenants := img.tenants ++ ts }),
    @foldl_add _ _ (fun ws img => { img with workers := img.workers ++ ws })]
  · simp only [List.nil_append]
  all_goals simp [SavedState.addRequest, SavedState.addTenant, SavedState.addWorker]

/-- The records behind a header that has been stored. -/
theorem takes_records (lim : Limits) (header : SavedHeader) :
    Takes (do store fun _ => some { header }; loadRecords lim) fun used _ _ s' => ∃ img : SavedState,
      img.header = header ∧ s' = some img ∧ used = img.putRecords ∧ (∀ r ∈ img.requests, r.Fits) ∧
      (∀ t ∈ img.tenants, t.Fits) ∧ (∀ w ∈ img.workers, w.Fits) ∧ img.Within lim := by
  intro r s _ rest s'
  have hrequests := (codes_request (σ := Option SavedState) lim).repeated (lim.sizes lim.requests (by simp))
    (corruption "bad request count") fun r s => s.map (·.addRequest r)
  have htenants := (codes_tenant (σ := Option SavedState)).repeated (lim.sizes lim.tenants (by simp))
    (corruption "bad tenant count") fun t s => s.map (·.addTenant t)
  have hworkers := (codes_worker (σ := Option SavedState) lim).repeated (lim.sizes lim.workers (by simp))
    (corruption "bad worker count") fun w s => s.map (·.addWorker w)
  have htakes := hrequests.bind fun _ => htenants.bind fun _ => hworkers.bind fun _ =>
    takes_require True (corruption "trailing corruption at end of payload")
  rw [store_bind]
  refine (htakes r (some { header }) () rest s').trans ?_
  constructor
  · intro h
    obtain ⟨_, rfl, _, _, -, _, rfl, ⟨rs, hrs, rfl, hrfit, rfl⟩, _, _, -, _, rfl, ⟨ts, hts, rfl, htfit, rfl⟩, _, _, -, _, rfl,
      ⟨ws, hws, rfl, hwfit, rfl⟩, rfl, -, rfl⟩ := h
    rw [foldl_records]
    refine ⟨_, rfl, { header, requests := rs, tenants := ts, workers := ws }, rfl, rfl, ?_, fun r hr => (hrfit r hr).1,
      htfit, fun w hw => (hwfit w hw).1, hrs, fun r hr => (hrfit r hr).2, hts, hws, fun w hw => (hwfit w hw).2⟩
    simp only [SavedState.putRecords, putCount, List.append_assoc, List.append_nil]
  · intro h
    obtain ⟨_, rfl, img, rfl, rfl, rfl, hr, ht, hw, hwithin⟩ := h
    refine ⟨img.putRecords, rfl, _, _, (), _, ?_, ⟨img.requests, hwithin.requests, rfl,
      fun r hmem => ⟨hr r hmem, hwithin.eachRequest r hmem⟩, rfl⟩, _, _, (), _, rfl, ⟨img.tenants, hwithin.tenants, rfl,
      ht, rfl⟩, _, [], (), _, rfl, ⟨img.workers, hwithin.workers, rfl,
      fun w hmem => ⟨hw w hmem, hwithin.eachWorker w hmem⟩, rfl⟩, rfl, trivial, ?_⟩
    · simp only [SavedState.putRecords, putCount, List.append_assoc, List.append_nil]
    · rw [foldl_records]

/-- **The reader goes through on what the writer makes of an image within its
limits, whatever stands behind it, and on nothing else.** -/
theorem load_iff {lim : Limits} {s s' : Option SavedState} {data rest : Bytes} :
    load lim (⟨data, true⟩, s) = (.ok (), (⟨rest, true⟩, s')) ↔
      ∃ img, s' = some img ∧ data = img.encode ++ rest ∧ img.Fits ∧ img.Within lim := by
  have htakes := (takes_read (σ := Option SavedState) (ε := Error) exact_u32).bind fun magic =>
    (takes_read exact_u32).bind fun version => (takes_require (magic = 0x49534348) (corruption "bad magic")).bind fun _ =>
    (takes_require (version = 1) (corruption "bad format version")).bind fun _ =>
    Takes.bind codes_header fun header => takes_records lim header
  refine (htakes ⟨data, true⟩ s () rest s').trans ?_
  constructor
  · intro h
    obtain ⟨_, hdata, _, _, magic, _, rfl, ⟨rfl, -, rfl⟩, _, _, version, _, rfl, ⟨rfl, -, rfl⟩, _, _, -, _, rfl,
      ⟨rfl, rfl, rfl⟩, _, _, -, _, rfl, ⟨rfl, rfl, rfl⟩, _, _, header, _, rfl, ⟨rfl, hh, -, rfl⟩, img, rfl, rfl, rfl,
      hr, ht, hw, hwithin⟩ := h
    exact ⟨img, rfl, (Reader.mk.inj hdata).1, ⟨hh, hr, ht, hw⟩, hwithin⟩
  · intro h
    obtain ⟨img, rfl, rfl, hfits, hwithin⟩ := h
    exact ⟨img.encode, rfl, _, _, _, s, rfl, ⟨rfl, trivial, rfl⟩, _, _, _, s, rfl, ⟨rfl, trivial, rfl⟩, [], _, (), s, rfl,
      ⟨rfl, rfl, rfl⟩, [], _, (), s, rfl, ⟨rfl, rfl, rfl⟩, _, _, img.header, s, rfl, ⟨rfl, hfits.header, trivial, rfl⟩,
      img, rfl, rfl, rfl, hfits.requests, hfits.tenants, hfits.workers, hwithin⟩

/-! ## Where reading stops -/

/-- The data starts as every image does. -/
def HasFormat (data : Bytes) : Prop := ∃ tail, data = putU32 0x49534348 ++ (putU32 1 ++ tail)

theorem checked_load (lim : Limits) : Checked (load lim) := by
  have hrecords : Checked (loadRecords lim) :=
    .bind (fun _ => .bind (fun _ => .bind (fun _ => checked_require True _) _) _) _
  exact .bind (fun _ => .bind (fun _ => .bind (fun _ => .bind (fun _ => .bind (fun _ =>
    .bind (fun _ => hrecords) _) _) _) _) _) _

theorem plain_header {σ : Type} : Plain (loadHeader : Load σ Error SavedHeader) :=
  .read _ fun _ => .read _ fun _ => .read _ fun _ => .read _ fun _ => .read _ fun _ => .read _ fun _ =>
  .read _ fun _ => .read _ fun _ => .read _ fun _ => .read _ fun _ => .read _ fun _ => .read _ fun _ =>
  .read _ fun _ => .read _ fun _ => .read _ fun _ => plain_pure _

section keeps

variable {P : Option SavedState → Prop} (lim : Limits)

/-- Reading a record does not touch the store. -/
theorem keeps_attempt : Keeps P (loadAttempt lim) :=
  .read _ fun _ => .read _ fun _ => .read _ fun _ => .read _ fun _ => .read _ fun _ => .read _ fun _ =>
  .read _ fun _ => .read _ fun _ => .read _ fun _ => .read _ fun _ => .read _ fun _ => .require (keeps_pure _)

theorem keeps_request : Keeps P (loadRequest lim) :=
  .read _ fun _ => .read _ fun _ => .read _ fun _ => .read _ fun _ => .read _ fun _ => .require (.read _ fun _ =>
  .read _ fun _ => .read _ fun _ => .read _ fun _ => .read _ fun _ => .read _ fun _ => .read _ fun _ =>
  .read _ fun _ => .read _ fun _ => .read _ fun _ => .read _ fun _ => .read _ fun _ => .read _ fun _ =>
  .read _ fun _ => .read _ fun _ => .read _ fun _ => .read _ fun _ => .read _ fun _ => .read _ fun _ =>
  .read _ fun _ => .read _ fun _ => .read _ fun _ => (keeps_attempt lim).counted.bind fun _ => keeps_pure _)

theorem keeps_tenant : Keeps P loadTenant :=
  .read _ fun _ => .read _ fun _ => .read _ fun _ => .read _ fun _ => .read _ fun _ => .read _ fun _ =>
  .read _ fun _ => .require (keeps_pure _)

theorem keeps_worker : Keeps P (loadWorker lim) :=
  .read _ fun _ => .read _ fun _ => .read _ fun _ => .read _ fun _ => .read _ fun _ => .read _ fun _ =>
  .read _ fun _ => .read _ fun _ => .read _ fun _ => .read _ fun _ => .read _ fun _ =>
  (keeps_read _).counted.bind fun _ => (keeps_read _).counted.bind fun _ => (keeps_read _).counted.bind fun _ =>
  (keeps_read _).counted.bind fun _ => .require (keeps_pure _)

/-- Something stays stored once it is. -/
theorem keeps_records : Keeps (fun s => s.isSome = true) (loadRecords lim) := by
  have hstore : ∀ f : SavedState → SavedState,
      Keeps (fun s => s.isSome = true) (store (Option.map f) : Load (Option SavedState) Error Unit) :=
    fun f => keeps_store fun s hs => by rwa [Option.isSome_map]
  exact Keeps.bind (.repeated ((keeps_request lim).bind fun _ => hstore _)) fun _ =>
    Keeps.bind (.repeated (keeps_tenant.bind fun _ => hstore _)) fun _ =>
    Keeps.bind (.repeated ((keeps_worker lim).bind fun _ => hstore _)) fun _ => keeps_require True _

end keeps

/-- Behind the format the header is read and stored, and then the records. -/
theorem load_of_format (lim : Limits) (tail : Bytes) (s : Option SavedState) :
    load lim (⟨putU32 0x49534348 ++ (putU32 1 ++ tail), true⟩, s) =
      (do let header ← loadHeader; store fun _ => some { header }; loadRecords lim : Load (Option SavedState) Error Unit)
        (⟨tail, true⟩, s) := by
  have hm := (exact_u32 ⟨putU32 0x49534348 ++ (putU32 1 ++ tail), true⟩ 0x49534348 (putU32 1 ++ tail)).2 ⟨rfl, trivial⟩
  have hv := (exact_u32 ⟨putU32 1 ++ tail, true⟩ 1 tail).2 ⟨rfl, trivial⟩
  rw [load, read_bind, read_bind, hm, hv, require_bind, require_bind, if_pos ⟨rfl, rfl⟩, if_pos ⟨rfl, rfl⟩]

/-- Something has been stored as soon as the format is right. -/
theorem load_isSome_iff {lim : Limits} {data : Bytes} :
    (load lim (⟨data, true⟩, none)).2.2.isSome = true ↔ HasFormat data := by
  constructor
  · intro h
    obtain ⟨⟨magic, r⟩, hm⟩ : ∃ p, u32 ⟨data, true⟩ = p := ⟨_, rfl⟩
    obtain ⟨⟨version, rest, ok⟩, hv⟩ : ∃ p, u32 r = p := ⟨_, rfl⟩
    rw [load, read_bind, read_bind, hm, hv, require_bind, require_bind] at h
    dsimp only at h
    split at h
    · next hmagic =>
      split at h
      · next hversion =>
        obtain ⟨rfl, rfl⟩ := hmagic
        obtain ⟨-, rfl⟩ := hversion
        obtain ⟨rfl, -⟩ := (exact_u32 r 1 rest).1 hv
        obtain ⟨hdata, -⟩ := (exact_u32 ⟨data, true⟩ 0x49534348 _).1 hm
        exact ⟨rest, (Reader.mk.inj hdata).1⟩
      · cases h
    · cases h
  · intro h
    obtain ⟨tail, rfl⟩ := h
    obtain ⟨header, r, hrun⟩ := (plain_header (σ := Option SavedState)).bind_run
      (fun header => do store fun _ => some { header }; loadRecords lim) (⟨tail, true⟩, none)
    rw [load_of_format, hrun, store_bind]
    exact keeps_records lim (r, some { header }) rfl

end InferenceScheduler
