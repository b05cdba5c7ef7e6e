/-
Decoding data that cannot be trusted (`src/scheduler.cpp`, `BinReader`,
`deserialize_locked`): the reading part of `deserialize_locked` once more, by
the offset of its reader, and what holds however it ends.

The walks of this module have the fields of the loads of `Codec`, one by one,
and do what these do (`shows_walk`). So the offset never leaves the data. What
is stored, also by a reading that stops halfway, stands in the data record
after record (`Stands`), which bounds how much it can be.
-/
import InferenceScheduler.Lib.Cursor
import InferenceScheduler.Recovery

namespace InferenceScheduler

open Binary (Bytes)
open Binary.Cursor

/-! ## Reading by the offset -/

def fetchId {t : IdTag} : Fetch (Id t) := do return ⟨← u64⟩

def fetchSavedId {t : IdTag} : Fetch (SavedId t) := do
  let mark ← u8
  if h : mark = 0 then return .absent else return .present mark h (← fetchId)

section walk

variable {σ : Type}

def walkAttempt (lim : Limits) : Walk σ Error SavedAttempt := do
  let attemptId ← read fetchId
  let generation ← read fetchId
  let state ← read i32
  let worker ← read fetchId
  let batch ← read fetchId
  let finalStatus ← read i32
  let failureClass ← read i32
  let errorMessage ← read (str lim.string)
  let outputTokens ← read i64
  let workUnits ← read i64
  let durationUs ← read i64
  require True (corruption "attempt record truncated")
  return { attemptId, generation, state, worker, batch, finalStatus, failureClass, errorMessage, outputTokens,
           workUnits, durationUs }

def walkRequest (lim : Limits) : Walk σ Error SavedRequest := do
  let requestId ← read fetchId
  let state ← read i32
  let currentAttempt ← read fetchId
  let generation ← read fetchId
  let attemptsUsed ← read i32
  require True (corruption "request record truncated")
  let cancellationRequested ← read u8
  let cancellationCommitted ← read u8
  let cancelReason ← read i32
  let terminalReason ← read (str lim.string)
  let tenant ← read fetchId
  let session ← read fetchId
  let sequence ← read fetchId
  let model ← read fetchId
  let revision ← read fetchId
  let adapter ← read fetchSavedId
  let phase ← read i32
  let priority ← read i32
  let latencyClass ← read i32
  let tokensInput ← read i64
  let tokensOutput ← read i64
  let tokensDecoded ← read i64
  let estimatedMemoryBytes ← read i64
  let maxBatchSize ← read i32
  let modelName ← read (str lim.string)
  let demandMemoryBytes ← read i64
  let costUnits ← read u64
  let remaining ← read i64
  let history ← counted lim.history (corruption "bad history count") (walkAttempt lim)
  return { requestId, state, currentAttempt, generation, attemptsUsed, cancellationRequested, cancellationCommitted,
           cancelReason, terminalReason, tenant, session, sequence, model, revision, adapter, phase, priority,
           latencyClass, tokensInput, tokensOutput, tokensDecoded, estimatedMemoryBytes, maxBatchSize, modelName,
           demandMemoryBytes, costUnits, remaining, history }

def walkTenant : Walk σ Error SavedTenant := do
  let tenant ← read fetchId
  let weight ← read u64
  let admitted ← read i32
  let queued ← read i32
  let running ← read i32
  let servicesConsumed ← read i64
  let serviceDebt ← read i64
  require True (corruption "tenant record corrupted")
  return { tenant, weight, admitted, queued, running, servicesConsumed, serviceDebt }

def walkWorker (lim : Limits) : Walk σ Error SavedWorker := do
  let worker ← read fetchId
  let node ← read fetchId
  let accelerator ← read fetchId
  let bootId ← read fetchId
  let state ← read i32
  let backend ← read (str lim.string)
  let deviceName ← read (str lim.string)
  let totalCapacityUnits ← read i32
  let availableCapacityUnits ← read i32
  let memoryBytesTotal ← read i64
  let memoryBytesAvailable ← read i64
  let models ← counted lim.models (corruption "bad model count") (read fetchId)
  let revisions ← counted lim.revisions (corruption "bad revision count") (read fetchId)
  let adapters ← counted lim.adapters (corruption "bad adapter count") (read fetchId)
  let phases ← counted lim.phases (corruption "bad phase count") (read i32)
  require True (corruption "worker record corrupted")
  return { worker, node, accelerator, bootId, state, backend, deviceName, totalCapacityUnits, availableCapacityUnits,
           memoryBytesTotal, memoryBytesAvailable, models, revisions, adapters, phases }

def walkHeader : Walk σ Error SavedHeader := do
  let epoch ← read u64
  let globalAdmitted ← read i64
  let globalQueued ← read i64
  let globalReservedUnits ← read i64
  let globalRunningUnits ← read i64
  let globalTokens ← read i64
  let requestsSubmitted ← read u64
  let requestsAdmitted ← read u64
  let requestsCompleted ← read u64
  let requestsCancelled ← read u64
  let requestsFailed ← read u64
  let requestsExpired ← read u64
  let attemptsCreated ← read u64
  let dispatches ← read u64
  let retries ← read u64
  return { epoch, globalAdmitted, globalQueued, globalReservedUnits, globalRunningUnits, globalTokens,
           requestsSubmitted, requestsAdmitted, requestsCompleted, requestsCancelled, requestsFailed,
           requestsExpired, attemptsCreated, dispatches, retries }

end walk

def walkRequests (lim : Limits) : Walk (Option SavedState) Error Unit :=
  repeated lim.requests (corruption "bad request count") do
    let r ← walkRequest lim
    store (Option.map (·.addRequest r))

def walkTenants (lim : Limits) : Walk (Option SavedState) Error Unit :=
  repeated lim.tenants (corruption "bad tenant count") do
    let t ← walkTenant
    store (Option.map (·.addTenant t))

def walkWorkers (lim : Limits) : Walk (Option SavedState) Error Unit :=
  repeated lim.workers (corruption "bad worker count") do
    let w ← walkWorker lim
    store (Option.map (·.addWorker w))

def walkRecords (lim : Limits) : Walk (Option SavedState) Error Unit := do
  walkRequests lim
  walkTenants lim
  walkWorkers lim
  require True (corruption "trailing corruption at end of payload")

/-- The reading part of `deserialize_locked`, as `load` is. -/
def walk (lim : Limits) : Walk (Option SavedState) Error Unit := do
  let magic ← read u32
  let version ← read u32
  require (magic = 0x49534348) (corruption "bad magic")
  require (version = 1) (corruption "bad format version")
  let header ← walkHeader
  store fun _ => some { header }
  walkRecords lim

/-! ## The walks do what the loads do -/

theorem mirrors_id {t : IdTag} : Mirrors (fetchId : Fetch (Id t)) getId := mirrors_u64.map _

theorem mirrors_savedId {t : IdTag} : Mirrors (fetchSavedId : Fetch (SavedId t)) getSavedId := by
  refine mirrors_u8.bind fun mark => ?_
  by_cases h : mark = 0
  · simp only [dif_pos h]
    exact mirrors_pure _
  · simp only [dif_neg h]
    exact mirrors_id.map _

section shows

variable {σ : Type} (lim : Limits)

theorem shows_attempt : Shows (walkAttempt lim : Walk σ Error SavedAttempt) (loadAttempt lim) :=
  .read mirrors_id fun _ => .read mirrors_id fun _ => .read mirrors_i32 fun _ => .read mirrors_id fun _ =>
  .read mirrors_id fun _ => .read mirrors_i32 fun _ => .read mirrors_i32 fun _ => .read (mirrors_str _) fun _ =>
  .read mirrors_i64 fun _ => .read mirrors_i64 fun _ => .read mirrors_i64 fun _ => .require (shows_pure _)

theorem shows_request : Shows (walkRequest lim : Walk σ Error SavedRequest) (loadRequest lim) :=
  .read mirrors_id fun _ => .read mirrors_i32 fun _ => .read mirrors_id fun _ => .read mirrors_id fun _ =>
  .read mirrors_i32 fun _ => .require (.read mirrors_u8 fun _ => .read mirrors_u8 fun _ => .read mirrors_i32 fun _ =>
  .read (mirrors_str _) fun _ => .read mirrors_id fun _ => .read mirrors_id fun _ => .read mirrors_id fun _ =>
  .read mirrors_id fun _ => .read mirrors_id fun _ => .read mirrors_savedId fun _ => .read mirrors_i32 fun _ =>
  .read mirrors_i32 fun _ => .read mirrors_i32 fun _ => .read mirrors_i64 fun _ => .read mirrors_i64 fun _ =>
  .read mirrors_i64 fun _ => .read mirrors_i64 fun _ => .read mirrors_i32 fun _ => .read (mirrors_str _) fun _ =>
  .read mirrors_i64 fun _ => .read mirrors_u64 fun _ => .read mirrors_i64 fun _ =>
  ((shows_attempt lim).counted _ _).bind fun _ => shows_pure _)

theorem shows_tenant : Shows (walkTenant : Walk σ Error SavedTenant) loadTenant :=
  .read mirrors_id fun _ => .read mirrors_u64 fun _ => .read mirrors_i32 fun _ => .read mirrors_i32 fun _ =>
  .read mirrors_i32 fun _ => .read mirrors_i64 fun _ => .read mirrors_i64 fun _ => .require (shows_pure _)

theorem shows_worker : Shows (walkWorker lim : Walk σ Error SavedWorker) (loadWorker lim) :=
  .read mirrors_id fun _ => .read mirrors_id fun _ => .read mirrors_id fun _ => .read mirrors_id fun _ =>
  .read mirrors_i32 fun _ => .read (mirrors_str _) fun _ => .read (mirrors_str _) fun _ =>
  .read mirrors_i32 fun _ => .read mirrors_i32 fun _ => .read mirrors_i64 fun _ => .read mirrors_i64 fun _ =>
  ((shows_read mirrors_id).counted _ _).bind fun _ => ((shows_read mirrors_id).counted _ _).bind fun _ =>
  ((shows_read mirrors_id).counted _ _).bind fun _ => ((shows_read mirrors_i32).counted _ _).bind fun _ =>
  .require (shows_pure _)

theorem shows_header : Shows (walkHeader : Walk σ Error SavedHeader) loadHeader :=
  .read mirrors_u64 fun _ => .read mirrors_i64 fun _ => .read mirrors_i64 fun _ => .read mirrors_i64 fun _ =>
  .read mirrors_i64 fun _ => .read mirrors_i64 fun _ => .read mirrors_u64 fun _ => .read mirrors_u64 fun _ =>
  .read mirrors_u64 fun _ => .read mirrors_u64 fun _ => .read mirrors_u64 fun _ => .read mirrors_u64 fun _ =>
  .read mirrors_u64 fun _ => .read mirrors_u64 fun _ => .read mirrors_u64 fun _ => shows_pure _

theorem shows_records : Shows (walkRecords lim) (loadRecords lim) :=
  (((shows_request lim).bind fun _ => shows_store _).repeated _ _).bind fun _ =>
  ((shows_tenant.bind fun _ => shows_store _).repeated _ _).bind fun _ =>
  (((shows_worker lim).bind fun _ => shows_store _).repeated _ _).bind fun _ => shows_require True _

theorem shows_walk : Shows (walk lim) (load lim) :=
  .read mirrors_u32 fun _ => .read mirrors_u32 fun _ => .require (.require (shows_header.bind fun _ =>
  (shows_store _).bind fun _ => shows_records lim))

end shows

/-- What `deserialize_locked` does with what has been read, and how it answers. -/
def Impl.takeOver (s : Impl) : Except Error Unit → Option SavedState → Impl × Result Unit
  | res, none => (s, res)
  | .error e, some img => (s.overwrite img, .error e)
  | .ok _, some img => ((s.overwrite img).rebuildReady, .ok ())

/-- `deserialize_locked`, with its reader as it is left. -/
def Impl.deserializeAt (s : Impl) (data : Bytes) : (Impl × Result Unit) × Binary.Cursor :=
  let out := walk readerLimits ({ data }, none)
  (s.takeOver out.1 out.2.2, out.2.1)

theorem Impl.deserializeLocked_eq (s : Impl) (data : Bytes) :
    s.deserializeLocked data =
      s.takeOver (load readerLimits (⟨data, true⟩, none)).1 (load readerLimits (⟨data, true⟩, none)).2.2 := by
  rw [deserializeLocked]
  rcases load readerLimits (⟨data, true⟩, none) with ⟨_ | _, r, _ | img⟩ <;> rfl

/-- It answers and leaves what `deserializeLocked` does, and its reader is sound. -/
theorem Impl.deserializeAt_eq (s : Impl) (data : Bytes) :
    (s.deserializeAt data).1 = s.deserializeLocked data ∧ (s.deserializeAt data).2.Sound ∧
      (s.deserializeAt data).2.data = data := by
  obtain ⟨hload, hsound, hdata⟩ := shows_walk readerLimits { data } none (sound_start data)
  have hview : Binary.Cursor.view { data } = ⟨data, true⟩ := rfl
  rw [hview] at hload
  refine ⟨?_, hsound, hdata⟩
  rw [deserializeLocked_eq, hload]
  rfl

/-! ## What is stored stands in the data -/

/-- The records of an image stand in the data, one behind the other. -/
structure SavedState.Stands (data : Bytes) (img : SavedState) : Prop where
  bytes : ∃ a b c d, data = a ++ img.requests.flatMap (·.pieces.flatten) ++ b ++
    img.tenants.flatMap (·.pieces.flatten) ++ c ++ img.workers.flatMap (·.pieces.flatten) ++ d
  requests : ∀ r ∈ img.requests, r.Fits
  tenants : ∀ t ∈ img.tenants, t.Fits
  workers : ∀ w ∈ img.workers, w.Fits

section leaves

open Binary

variable (lim : Limits)

theorem checked_attempt {σ : Type} : Checked (loadAttempt lim : Load σ Error SavedAttempt) :=
  .read _ fun _ => .read _ fun _ => .read _ fun _ => .read _ fun _ => .read _ fun _ => .read _ fun _ =>
  .read _ fun _ => .read _ fun _ => .read _ fun _ => .read _ fun _ => .read _ fun _ =>
  (checked_require True _).bind_careful fun _ => careful_pure _

theorem checked_request {σ : Type} : Checked (loadRequest lim : Load σ Error SavedRequest) :=
  .read _ fun _ => .read _ fun _ => .read _ fun _ => .read _ fun _ => .read _ fun _ => .bind (fun _ =>
  .read _ fun _ => .read _ fun _ => .read _ fun _ => .read _ fun _ => .read _ fun _ => .read _ fun _ =>
  .read _ fun _ => .read _ fun _ => .read _ fun _ => .read _ fun _ => .read _ fun _ => .read _ fun _ =>
  .read _ fun _ => .read _ fun _ => .read _ fun _ => .read _ fun _ => .read _ fun _ => .read _ fun _ =>
  .read _ fun _ => .read _ fun _ => .read _ fun _ => .read _ fun _ =>
  ((checked_attempt lim).careful.counted).bind_careful fun _ => careful_pure _) _

theorem checked_tenant {σ : Type} : Checked (loadTenant : Load σ Error SavedTenant) :=
  .read _ fun _ => .read _ fun _ => .read _ fun _ => .read _ fun _ => .read _ fun _ => .read _ fun _ =>
  .read _ fun _ => (checked_require True _).bind_careful fun _ => careful_pure _

theorem checked_worker {σ : Type} : Checked (loadWorker lim : Load σ Error SavedWorker) :=
  .read _ fun _ => .read _ fun _ => .read _ fun _ => .read _ fun _ => .read _ fun _ => .read _ fun _ =>
  .read _ fun _ => .read _ fun _ => .read _ fun _ => .read _ fun _ => .read _ fun _ =>
  .bind (fun _ => .bind (fun _ => .bind (fun _ => .bind (fun _ =>
  (checked_require True _).bind_careful fun _ => careful_pure _) _) _) _) _

/-- What the records leave behind a header, wherever they stop. -/
theorem stands_records (header : SavedHeader) (r : Reader) : ∃ img : SavedState,
    (loadRecords lim (r, some { header })).2.2 = some img ∧ img.Stands r.rest := by
  have hrequests := (codes_request (σ := Option SavedState) lim).leaves (checked_request lim)
    (fun _ => keeps_request lim) lim.requests (corruption "bad request count") fun r s => s.map (·.addRequest r)
  have htenants := (codes_tenant (σ := Option SavedState)).leaves checked_tenant
    (fun _ => keeps_tenant) lim.tenants (corruption "bad tenant count") fun t s => s.map (·.addTenant t)
  have hworkers := (codes_worker (σ := Option SavedState) lim).leaves (checked_worker lim)
    (fun _ => keeps_worker lim) lim.workers (corruption "bad worker count") fun w s => s.map (·.addWorker w)
  have hend := hworkers.bind (leaves_require True (corruption "trailing corruption at end of payload"))
    fun _ => ⟨rfl, rfl⟩
  have hmore := htenants.bind hend fun s =>
    ⟨[], [], s, rfl, ⟨[], [], rfl, List.forall_mem_nil _, rfl⟩, rfl, rfl⟩
  have hleaves := hrequests.bind hmore fun s =>
    ⟨[], [], s, rfl, ⟨[], [], rfl, List.forall_mem_nil _, rfl⟩, [], [], s, rfl,
      ⟨[], [], rfl, List.forall_mem_nil _, rfl⟩, rfl, rfl⟩
  obtain ⟨used, rest, hrest, ⟨_, _, _, rfl, ⟨f₁, rs, rfl, hrs, rfl⟩, _, _, _, rfl, ⟨f₂, ts, rfl, hts, rfl⟩, _, _, _, rfl,
    ⟨f₃, ws, rfl, hws, rfl⟩, rfl, hstored⟩, -⟩ := hleaves r (some { header })
  rw [foldl_records] at hstored
  refine ⟨{ header, requests := rs, tenants := ts, workers := ws }, hstored, ?_, fun r hr => (hrs r hr).1, hts,
    fun w hw => (hws w hw).1⟩
  refine ⟨f₁, f₂, f₃, rest, ?_⟩
  rw [hrest]
  simp only [List.append_assoc, List.nil_append]

theorem SavedState.Stands.behind {data : Bytes} {img : SavedState} (h : img.Stands data) (front : Bytes) :
    img.Stands (front ++ data) := by
  obtain ⟨⟨a, b, c, d, rfl⟩, hr, ht, hw⟩ := h
  refine ⟨⟨front ++ a, b, c, d, ?_⟩, hr, ht, hw⟩
  simp only [List.append_assoc]

/-- What is stored of any data stands in it. -/
theorem stands_of_readable {data : Bytes} {img : SavedState} (h : readable data = some img) : img.Stands data := by
  obtain ⟨tail, rfl⟩ := readable_isSome_iff.1 (Option.isSome_iff_exists.2 ⟨img, h⟩)
  obtain ⟨header, ⟨rest, ok⟩, hheader⟩ := plain_header (σ := Option SavedState) (⟨tail, true⟩, none)
  have hrun : load readerLimits (⟨putU32 0x49534348 ++ (putU32 1 ++ tail), true⟩, none) =
      loadRecords readerLimits (⟨rest, ok⟩, some { header }) := by
    rw [load_of_format, Binary.bind_of_ok hheader, Binary.store_bind]
  rw [readable, hrun] at h
  refine SavedState.Stands.behind (SavedState.Stands.behind ?_ _) _
  cases ok with
  | true =>
    -- the header was read well, so its bytes are in front of the records
    obtain ⟨used, hused, -⟩ := (codes_header ⟨tail, true⟩ none header rest none).1 hheader
    obtain ⟨rfl, -⟩ := Reader.mk.inj hused
    obtain ⟨img', himg, hstands⟩ := stands_records readerLimits header ⟨rest, true⟩
    rw [h] at himg
    cases himg
    exact hstands.behind used
  | false =>
    have hstopped : (loadRecords readerLimits (⟨rest, false⟩, some { header })).2.2 = some { header } := by
      have hrequests : ∃ e r, loadRequests readerLimits (⟨rest, false⟩, some { header }) =
          (.error e, (r, some { header })) :=
        ⟨_, _, Binary.repeated_of_fault (r := ⟨rest, false⟩) rfl _⟩
      obtain ⟨e, r, hrequests⟩ := hrequests
      rw [loadRecords, Binary.bind_of_error hrequests]
    rw [hstopped] at h
    cases h
    refine ⟨⟨tail, [], [], [], ?_⟩, List.forall_mem_nil _, List.forall_mem_nil _, List.forall_mem_nil _⟩
    simp only [List.flatMap_nil, List.append_nil]

end leaves

/-! ## How much it can be -/

section sizes

open Binary

theorem length_putId {t : IdTag} (i : Id t) : (putId i).length = 8 := length_ofNat 8 _

theorem SavedAttempt.one_le_length (a : SavedAttempt) : 1 ≤ a.pieces.flatten.length := by
  simp only [pieces, List.flatten_cons, List.length_append, length_putId]
  omega

/-- A request takes two bytes and one for each of its attempts, at least. -/
theorem SavedRequest.le_length (r : SavedRequest) : 2 + r.history.length ≤ r.pieces.flatten.length := by
  have hhistory : ∀ as : List SavedAttempt, as.length ≤ (as.flatMap (·.pieces)).flatten.length := by
    intro as
    induction as with
    | nil => exact le_rfl
    | cons a as ih =>
      have ha := a.one_le_length
      rw [List.flatMap_cons, List.flatten_append, List.length_append, List.length_cons]
      omega
  have hr := hhistory r.history
  simp only [pieces, List.flatten_append, List.flatten_cons, List.length_append, length_putId]
  omega

theorem SavedTenant.one_le_length (t : SavedTenant) : 1 ≤ t.pieces.flatten.length := by
  simp only [pieces, List.flatten_cons, List.length_append, length_putId]
  omega

/-- Items that take so many bytes each. -/
theorem sum_le_length_flatMap {α : Type} {f : α → ℕ} {g : α → Bytes} (h : ∀ a, f a ≤ (g a).length) (l : List α) :
    (l.map f).sum ≤ (l.flatMap g).length := by
  induction l with
  | nil => exact le_rfl
  | cons a l ih =>
    have ha := h a
    rw [List.map_cons, List.sum_cons, List.flatMap_cons, List.length_append]
    omega

/-- Requests count twice, for a tenant may be created for each. -/
theorem SavedState.Stands.size_le {data : Bytes} {img : SavedState} (h : img.Stands data) :
    (img.requests.map fun r => 2 + r.history.length).sum + img.tenants.length ≤ data.length := by
  obtain ⟨⟨a, b, c, d, hdata⟩, -⟩ := h
  have hrequests := sum_le_length_flatMap SavedRequest.le_length img.requests
  have htenants := sum_le_length_flatMap SavedTenant.one_le_length img.tenants
  have hlength := congrArg List.length hdata
  simp only [List.length_append] at hlength
  rw [List.map_const', List.sum_replicate_nat, mul_one] at htenants
  omega

end sizes

/-! ## What the scheduler holds then -/

theorem Keyed.mem_of_mem_insertNew {κ ν : Type} [DecidableEq κ] {key : ν → κ} {l : List ν} {k : κ} {v : ν}
    (h : (l.foldl Keyed.insertNew (∅ : Keyed key)).find k = some v) : v ∈ l := by
  rw [Impl.find_rebuilt] at h
  exact List.mem_of_find?_eq_some h

theorem Keyed.subperm_insertNew {κ ν : Type} [DecidableEq κ] {key : ν → κ} (l : List ν) :
    (l.foldl Keyed.insertNew (∅ : Keyed key)).records.Subperm l :=
  List.subperm_of_subset (Keyed.nodup_records _).of_map fun _ hv => Keyed.mem_of_mem_insertNew (Keyed.mem_records.1 hv)

namespace Impl

theorem tenants_enqueueLocked (s : Impl) (rec : RequestRecord) : (s.enqueueLocked rec).tenants =
    s.tenants.put { s.tenantOf rec.spec.tenant with queued := (s.tenantOf rec.spec.tenant).queued + 1 } := rfl

/-- A tenant behind the loop was there before, or it was created for a request
of the loop. -/
theorem tenant_of_foldl_enqueueLocked {l : List RequestRecord} {s : Impl} {k : TenantId} {t : TenantRecord}
    (h : (l.foldl enqueueLocked s).tenants.find k = some t) :
    (∃ t₀, s.tenants.find k = some t₀ ∧ t = { t₀ with queued := t.queued }) ∨
      (∃ rec ∈ l, rec.spec.tenant = k) ∧ t = { tenant := k, weight := tenantWeight s.cfg k, queued := t.queued } := by
  induction l generalizing s with
  | nil => exact .inl ⟨t, h, rfl⟩
  | cons rec l ih =>
    rcases ih h with ⟨t₁, ht₁, htq⟩ | ⟨⟨rec', hrec', hk⟩, htq⟩
    · rw [tenants_enqueueLocked] at ht₁
      rcases Keyed.find_put_cases ht₁ with ⟨rfl, hk⟩ | ⟨-, ht₁⟩
      · cases hfind : s.tenants.find rec.spec.tenant with
        | none =>
          have hnew : s.tenantOf rec.spec.tenant =
              { tenant := rec.spec.tenant, weight := tenantWeight s.cfg rec.spec.tenant } := by
            rw [tenantOf, hfind, Option.getD_none]
          rw [hnew] at hk htq
          exact .inr ⟨⟨rec, List.mem_cons_self, hk⟩, hk ▸ htq⟩
        | some t₂ =>
          have hof : s.tenantOf rec.spec.tenant = t₂ := by rw [tenantOf, hfind, Option.getD_some]
          rw [hof] at hk htq
          have htenant : t₂.tenant = rec.spec.tenant := Keyed.key_of_find hfind
          exact .inl ⟨t₂, by rwa [← hk, htenant], htq⟩
      · exact .inl ⟨t₁, ht₁, htq⟩
    · exact .inr ⟨⟨rec', List.mem_cons_of_mem _ hrec', hk⟩, htq⟩

/-- What the scheduler holds is what was read of an image: the requests and
workers, those that wait being queued, and the tenants, with their number of
queued requests counted anew. A tenant may also be created, for a request that
is queued and whose tenant has no record. -/
structure HoldsOf (cfg : SchedulerConfig) (now : ClockTime) (img : SavedState) (s : Impl) : Prop where
  requests : ∀ id rec, s.requests.find id = some rec → ∃ r ∈ img.requests,
    rec = r.restore now ∨ waiting (r.restore now) = true ∧ rec = (r.restore now).requeue
  workers : ∀ w wr, s.pool.workers.find w = some wr → ∃ w' ∈ img.workers, wr = w'.restore
  tenants : ∀ k t, s.tenants.find k = some t →
    (∃ t' ∈ img.tenants, t = { t'.restore with queued := t.queued }) ∨
      (∃ id rec, s.requests.find id = some rec ∧ rec.state = .queued ∧ rec.spec.tenant = k) ∧
        t = { tenant := k, weight := tenantWeight cfg k, queued := t.queued }

theorem holdsOf_overwrite (s : Impl) (img : SavedState) : HoldsOf s.cfg s.now img (s.overwrite img) where
  requests id rec h := by
    obtain ⟨r, hr, rfl⟩ := List.mem_map.1 (Keyed.mem_of_mem_insertNew h)
    exact ⟨r, hr, .inl rfl⟩
  workers w wr h := by
    obtain ⟨w', hw, rfl⟩ := List.mem_map.1 (Keyed.mem_of_mem_insertNew h)
    exact ⟨w', hw, rfl⟩
  tenants k t h := by
    obtain ⟨t', ht, rfl⟩ := List.mem_map.1 (Keyed.mem_of_mem_insertNew h)
    exact .inl ⟨t', ht, rfl⟩

theorem holdsOf_rebuildReady (s : Impl) (img : SavedState) :
    HoldsOf s.cfg s.now img (s.overwrite img).rebuildReady where
  requests id rec hrec := by
    rw [requests_rebuildReady, Option.map_eq_some_iff] at hrec
    obtain ⟨rec₀, hfind, rfl⟩ := hrec
    obtain ⟨r, hr, rfl⟩ := List.mem_map.1 (Keyed.mem_of_mem_insertNew hfind)
    refine ⟨r, hr, ?_⟩
    split
    · next hwaiting => exact .inr ⟨hwaiting, rfl⟩
    · exact .inl rfl
  workers w wr hw := by
    have hpool : (s.overwrite img).rebuildReady.pool = (s.overwrite img).pool :=
      (foldl_enqueueLocked_frame _ (s.overwrite img).resetQueued).1
    rw [hpool] at hw
    exact (s.holdsOf_overwrite img).workers w wr hw
  tenants k t ht := by
    rcases tenant_of_foldl_enqueueLocked ht with ⟨t₀, ht₀, htq⟩ | ⟨⟨rec, hrec, hk⟩, htq⟩
    · rw [resetQueued, Keyed.find_modify, Option.map_eq_some_iff] at ht₀
      obtain ⟨t₁, ht₁, rfl⟩ := ht₀
      obtain ⟨t', ht', rfl⟩ := List.mem_map.1 (Keyed.mem_of_mem_insertNew ht₁)
      exact .inl ⟨t', ht', htq⟩
    · -- the request that the tenant was created for has been queued
      obtain ⟨hmem, hwaiting⟩ := List.mem_filter.1 hrec
      have hfind : (s.overwrite img).rebuildReady.requests.find rec.requestId = some rec.requeue := by
        rw [requests_rebuildReady, Keyed.mem_records.1 hmem, Option.map_some, if_pos hwaiting]
      exact .inr ⟨⟨rec.requestId, rec.requeue, hfind, rfl, hk⟩, htq⟩

/-- Requests, attempts and tenants. -/
def stored (s : Impl) : ℕ :=
  s.requests.records.length + (s.requests.records.map (·.history.length)).sum + s.tenants.records.length

/-- The tenants that are held belong to tenants and requests of the image. -/
theorem HoldsOf.tenants_length_le {cfg : SchedulerConfig} {now : ClockTime} {img : SavedState} {s : Impl}
    (h : HoldsOf cfg now img s) : s.tenants.records.length ≤ img.tenants.length + img.requests.length := by
  have hsubset : s.tenants.records.map (·.tenant) ⊆ img.tenants.map (·.tenant) ++ img.requests.map (·.tenant) := by
    intro k hk
    obtain ⟨t, ht, rfl⟩ := List.mem_map.1 hk
    rcases h.tenants _ t (Keyed.mem_records.1 ht) with ⟨t', ht', heq⟩ | ⟨⟨id, rec, hrec, -, htenant⟩, -⟩
    · exact List.mem_append_left _ (List.mem_map.2 ⟨t', ht', (congrArg (·.tenant) heq).symm⟩)
    · obtain ⟨r, hr, hof⟩ := h.requests id rec hrec
      refine List.mem_append_right _ (List.mem_map.2 ⟨r, hr, ?_⟩)
      rcases hof with rfl | ⟨-, rfl⟩
      · exact htenant
      · exact htenant
  have hle := (List.subperm_of_subset s.tenants.nodup_records hsubset).length_le
  rwa [List.length_append, List.length_map, List.length_map, List.length_map] at hle

/-- A request and its attempts. -/
def requestSize (rec : RequestRecord) : ℕ := 1 + rec.history.length

theorem sum_requestSize_overwrite (s : Impl) (img : SavedState) :
    ((s.overwrite img).requests.records.map requestSize).sum ≤ (img.requests.map fun r => 1 + r.history.length).sum := by
  have hsubperm : (s.overwrite img).requests.records.Subperm (img.requests.map (·.restore s.now)) :=
    Keyed.subperm_insertNew _
  obtain ⟨l, hperm, hsub⟩ := hsubperm
  have hsize : ∀ r : SavedRequest, requestSize (r.restore s.now) = 1 + r.history.length := by
    intro r
    rw [requestSize, SavedRequest.restore, List.length_map]
  calc ((s.overwrite img).requests.records.map requestSize).sum
      = (l.map requestSize).sum := (hperm.map requestSize).sum_eq.symm
    _ ≤ ((img.requests.map (·.restore s.now)).map requestSize).sum :=
        (hsub.map requestSize).sum_le_sum fun _ _ => Nat.zero_le _
    _ = (img.requests.map fun r => 1 + r.history.length).sum := by
        rw [List.map_map]
        exact congrArg List.sum (List.map_congr_left fun r _ => hsize r)

theorem sum_requestSize_rebuildReady (s : Impl) :
    (s.rebuildReady.requests.records.map requestSize).sum = (s.requests.records.map requestSize).sum := by
  have hperm : s.rebuildReady.requests.records.Perm
      (s.requests.records.map fun rec => if waiting rec then rec.requeue else rec) := by
    refine Keyed.records_perm_map (fun rec => ?_) s.requests_rebuildReady
    split <;> rfl
  rw [(hperm.map requestSize).sum_eq, List.map_map]
  refine congrArg List.sum (List.map_congr_left fun rec _ => ?_)
  simp only [Function.comp_apply]
  split <;> rfl

theorem stored_le {cfg : SchedulerConfig} {now : ClockTime} {data : Bytes} {img : SavedState} {s : Impl}
    (hstands : img.Stands data) (hholds : HoldsOf cfg now img s)
    (hsum : (s.requests.records.map requestSize).sum ≤ (img.requests.map fun r => 1 + r.history.length).sum) :
    s.stored ≤ data.length := by
  have hsize := hstands.size_le
  have htenants := hholds.tenants_length_le
  have hsplit : (s.requests.records.map requestSize).sum =
      s.requests.records.length + (s.requests.records.map (·.history.length)).sum := by
    show (s.requests.records.map fun rec => 1 + rec.history.length).sum = _
    simp only [List.sum_map_add, List.map_const', List.sum_replicate_nat, mul_one]
  have htwo : (img.requests.map fun r => 2 + r.history.length).sum =
      img.requests.length + (img.requests.map fun r => 1 + r.history.length).sum := by
    simp only [List.sum_map_add, List.map_const', List.sum_replicate_nat]
    omega
  rw [stored]
  omega

/-- What data in the right format leaves, whether it is read to the end or not. -/
theorem holds_of_readable (s : Impl) {data : Bytes} {img : SavedState} (h : readable data = some img) :
    HoldsOf s.cfg s.now img (s.deserializeLocked data).1 ∧ (s.deserializeLocked data).1.stored ≤ data.length := by
  have hstands := stands_of_readable h
  have hsum := s.sum_requestSize_overwrite img
  rw [deserializeLocked_eq]
  rw [readable] at h
  rw [h]
  cases (load readerLimits (⟨data, true⟩, none)).1 with
  | error e => exact ⟨s.holdsOf_overwrite img, stored_le hstands (s.holdsOf_overwrite img) hsum⟩
  | ok =>
    rw [← sum_requestSize_rebuildReady] at hsum
    exact ⟨s.holdsOf_rebuildReady img, stored_le hstands (s.holdsOf_rebuildReady img) hsum⟩

theorem unchanged_of_unreadable (s : Impl) {data : Bytes} (h : readable data = none) :
    (s.deserializeLocked data).1 = s := by
  rw [deserializeLocked_eq]
  rw [readable] at h
  rw [h]
  rfl

end Impl

/-- **Decoding is bounded, whatever the data.** The reading comes to an end, its
offset only grows and stays within the data, and no byte outside is touched.
Data that is not in the right format leaves the scheduler as it was. Otherwise
what it holds stands in the data, record after record, but for tenants that
are created for requests that are queued, and there are no more requests,
attempts and tenants than there are bytes. -/
theorem deserialize_bounded (s : Impl) (data : Bytes) :
    ((s.deserializeAt data).1 = s.deserializeLocked data ∧ (s.deserializeAt data).2.data = data ∧
      (s.deserializeAt data).2.trail.head? = some (s.deserializeAt data).2.off ∧
      (s.deserializeAt data).2.trail.Pairwise (· ≥ ·) ∧
      (∀ o ∈ (s.deserializeAt data).2.trail, o ≤ data.length) ∧
      ∀ t ∈ (s.deserializeAt data).2.touched, t.1 + t.2 ≤ data.length) ∧
    (readable data = none → (s.deserializeLocked data).1 = s) ∧
    ∀ img, readable data = some img → img.Stands data ∧
      Impl.HoldsOf s.cfg s.now img (s.deserializeLocked data).1 ∧ (s.deserializeLocked data).1.stored ≤ data.length := by
  obtain ⟨hsame, hsound, hdata⟩ := s.deserializeAt_eq data
  have hwithin := hsound.within
  have htouched := hsound.touched
  rw [hdata] at hwithin htouched
  refine ⟨⟨hsame, hdata, hsound.current, hsound.grown, fun o ho => (hsound.trail_le ho).trans hwithin, htouched⟩,
    s.unchanged_of_unreadable, fun img himg => ?_⟩
  exact ⟨stands_of_readable himg, s.holds_of_readable himg⟩

/-- An image with a request that waits and without tenants. -/
def orphanState : SavedState :=
  { header := Impl.durable.saveHeader
    requests := [({ requestId := ⟨7⟩, state := .queued, spec := { tenant := ⟨5⟩ } } : RequestRecord).save 0] }

theorem readable_orphanState : readable orphanState.encode = some orphanState := by decide +kernel

theorem deserialize_bounded_orphan : readable orphanState.encode = some orphanState ∧
    orphanState.Stands orphanState.encode ∧
    (Impl.durable.deserializeLocked orphanState.encode).1.stored ≤ orphanState.encode.length := by
  obtain ⟨-, -, hstored⟩ := deserialize_bounded .durable orphanState.encode
  obtain ⟨hstands, -, hle⟩ := hstored orphanState readable_orphanState
  exact ⟨readable_orphanState, hstands, hle⟩

/-- The tenant of that request is created: no tenant is in the data. -/
theorem created_tenant_not_decoded : ¬∀ (s : Impl) (data : Bytes) (img : SavedState), readable data = some img →
    ∀ t ∈ (s.deserializeLocked data).1.tenants.records, ∃ t' ∈ img.tenants, t'.tenant = t.tenant := by
  intro h
  have hcreated : ((Impl.durable.deserializeLocked orphanState.encode).1.tenants.find ⟨5⟩).isSome = true := by
    decide +kernel
  obtain ⟨t, ht⟩ := Option.isSome_iff_exists.1 hcreated
  obtain ⟨t', ht', -⟩ := h .durable _ _ readable_orphanState t (Keyed.mem_records.2 (Keyed.find_key ht))
  cases ht'

end InferenceScheduler
