/-
Where the requests on workers are. When reports come from the worker holding
the batch, target a request on a worker and do not say `Stale`, every request
on a worker is in a batch, and the `in_flight` table of a worker lists exactly
the requests running in its batches, with their attempts.
-/
import InferenceScheduler.Accounting
import InferenceScheduler.Wraparound

namespace InferenceScheduler

open Machine

namespace Core

/-- A request runs in a batch of the worker `wr`, as the attempt `att`. -/
def RunsOn (c : Core) (wr : WorkerRecord) (r : RequestId) (att : AttemptId) : Prop :=
  ∃ rec, c.requests.find r = some rec ∧ rec.state = .running ∧ rec.currentAttempt = att ∧ rec.batchId ∈ wr.batchUnits

variable {c : Core} {wr : WorkerRecord} {r : RequestId} {att : AttemptId}

theorem runsOn_put {rec : RequestRecord} (fin : RequestRecord) (hf : c.Holds rec)
    (hid : fin.requestId = rec.requestId)
    (hsame : fin.state ≠ .running ∧ rec.state ≠ .running ∨ fin.state = rec.state ∧
      fin.currentAttempt = rec.currentAttempt ∧ fin.batchId = rec.batchId) :
    (c.put fin).RunsOn wr r att ↔ c.RunsOn wr r att := by
  by_cases hr : r = rec.requestId
  · subst hr
    have hfin : (c.put fin).requests.find rec.requestId = some fin := by
      rw [← hid]
      exact Keyed.find_put_self _ _
    simp only [RunsOn, hfin, show c.requests.find rec.requestId = some rec from hf, Option.some.injEq,
      exists_eq_left']
    rcases hsame with ⟨h₁, h₂⟩ | ⟨h₁, h₂, h₃⟩
    · simp [h₁, h₂]
    · rw [h₁, h₂, h₃]
  · have hsame : (c.put fin).requests.find r = c.requests.find r :=
      Keyed.find_put_ne _ (by rw [hid]; exact Ne.symm hr)
    simp only [RunsOn, hsame]

theorem runsOn_store (new : RequestRecord) (hf : c.requests.find new.requestId = none) (hs : new.state ≠ .running) :
    (c.put new).RunsOn wr r att ↔ c.RunsOn wr r att := by
  by_cases hr : r = new.requestId
  · subst hr
    have hnew : (c.put new).requests.find new.requestId = some new := Keyed.find_put_self _ _
    simp [RunsOn, hnew, hf, hs]
  · have hsame : (c.put new).requests.find r = c.requests.find r := Keyed.find_put_ne _ (Ne.symm hr)
    simp only [RunsOn, hsame]

end Core

/-- Requests on workers are in batches, and the workers know which run. -/
structure Placed (c : Core) : Prop where
  live : ∀ r rec, c.requests.find r = some rec → rec.onWorker = true →
    rec.inBatch = true ∧ (rec.state = .reserved ∨ rec.state = .running)
  flight : ∀ w wr, c.pool.workers.find w = some wr →
    ∀ r att, wr.inFlight.lookup r = some att ↔ c.RunsOn wr r att

/-- Reports conclude requests on workers, and not as `Stale`. -/
def Working : Move → Prop
  | .finish rec _ e => rec.onWorker = true ∧ e ≠ .stale
  | .retry rec _ => rec.onWorker = true
  | _ => True

namespace Placed

variable {c : Core}

/-- A record is written whose request neither ran nor runs, or goes on as it
was. -/
theorem put {rec : RequestRecord} (h : Placed c) (fin : RequestRecord) (hf : c.Holds rec)
    (hid : fin.requestId = rec.requestId)
    (hsame : fin.state ≠ .running ∧ rec.state ≠ .running ∨ fin.state = rec.state ∧
      fin.currentAttempt = rec.currentAttempt ∧ fin.batchId = rec.batchId)
    (hlive : fin.onWorker = true → fin.inBatch = true ∧ (fin.state = .reserved ∨ fin.state = .running)) :
    Placed (c.put fin) := by
  refine ⟨fun r rec' hf' hon => ?_, fun w wr hw r att => ?_⟩
  · rcases Keyed.find_put_cases hf' with ⟨rfl, _⟩ | ⟨_, hold⟩
    · exact hlive hon
    · exact h.live r rec' hold hon
  · rw [Core.runsOn_put fin hf hid hsame]
    exact h.flight w wr hw r att

theorem store (h : Placed c) (new : RequestRecord) (hf : c.requests.find new.requestId = none)
    (hoff : new.onWorker = false) : Placed (c.put new) := by
  refine ⟨fun r rec' hf' hon => ?_, fun w wr hw r att => ?_⟩
  · rcases Keyed.find_put_cases hf' with ⟨rfl, _⟩ | ⟨_, hold⟩
    · rw [hoff] at hon
      cases hon
    · exact h.live r rec' hold hon
  · rw [Core.runsOn_store new hf (fun hs => by simp [RequestRecord.onWorker, hs] at hoff)]
    exact h.flight w wr hw r att

theorem frame {c' : Core} (h : Placed c) (hreq : c'.requests = c.requests) (hpool : c'.pool = c.pool) :
    Placed c' := by
  obtain ⟨cfg, now, ids, requests, ready, pool⟩ := c'
  obtain rfl : requests = c.requests := hreq
  obtain rfl : pool = c.pool := hpool
  exact ⟨h.live, h.flight⟩

/-- A request that left its batch is in flight on no worker. -/
theorem not_inFlight_leave {rec : RequestRecord} {w w' : WorkerId} {wr' : WorkerRecord} (h : Placed c)
    (hb : Batched c) (hf : c.Holds rec) (hw : c.pool.Holds w rec.batchId)
    (hw' : (c.pool.releaseMember w rec).workers.find w' = some wr') :
    wr'.inFlight.lookup rec.requestId = none := by
  obtain ⟨wr, hwr, hunits⟩ := hw
  rcases Pool.find_releaseMember_cases hwr hw' with ⟨rfl, rfl⟩ | ⟨hne, hold⟩
  · simp [WorkerRecord.leave_inFlight]
  · refine Option.eq_none_iff_forall_not_mem.2 fun att hl => ?_
    obtain ⟨rec', hf', _, _, hb'⟩ := (h.flight w' wr' hold _ att).1 hl
    obtain rfl : rec = rec' := Option.some.inj (hf.symm.trans hf')
    exact hne (hb.unique _ w w' ⟨wr, hwr, hunits⟩ ⟨wr', hold, hb'⟩)

/-- A member leaves through the worker holding its batch and no longer runs. -/
theorem leave {rec : RequestRecord} {w : WorkerId} (h : Placed c) (hb : Batched c) (fin : RequestRecord)
    (hf : c.Holds rec) (hw : c.pool.Holds w rec.batchId) (hid : fin.requestId = rec.requestId)
    (hoff : fin.onWorker = false)
    (hrest : ∀ r rec', (c.requests.put fin).find r = some rec' → rec'.inBatch = true →
      ∃ w', (c.pool.releaseMember w rec).Holds w' rec'.batchId) :
    Placed ({ c with pool := c.pool.releaseMember w rec }.put fin) := by
  refine ⟨fun r rec' hf' hon => ?_, fun w' wr' hw' r att => ?_⟩
  · rcases Keyed.find_put_cases hf' with ⟨rfl, _⟩ | ⟨_, hold⟩
    · rw [hoff] at hon
      cases hon
    · exact h.live r rec' hold hon
  by_cases hr : r = rec.requestId
  · subst hr
    have hfin : (c.requests.put fin).find rec.requestId = some fin := by
      rw [← hid]
      exact Keyed.find_put_self _ _
    rw [h.not_inFlight_leave hb hf hw hw']
    refine ⟨nofun, fun hrun => ?_⟩
    obtain ⟨rec', hf', hs, _⟩ := hrun
    obtain rfl : fin = rec' := Option.some.inj (hfin.symm.trans hf')
    simp [RequestRecord.onWorker, hs] at hoff
  · obtain ⟨wr, hwr, _⟩ := hw
    have hsame : ({ c with pool := c.pool.releaseMember w rec }.put fin).requests.find r = c.requests.find r :=
      Keyed.find_put_ne _ (by rw [hid]; exact Ne.symm hr)
    rcases Pool.find_releaseMember_cases hwr hw' with ⟨rfl, rfl⟩ | ⟨_, hold⟩
    · rw [WorkerRecord.leave_inFlight, AList.lookup_erase_ne hr, h.flight w wr hwr]
      simp only [Core.RunsOn, hsame]
      refine exists_congr fun rec' => and_congr_right fun hf' => and_congr_right fun hs => and_congr_right fun _ => ?_
      refine ⟨fun hmem => ?_, WorkerRecord.mem_of_mem_leave⟩
      -- Another request still runs in the batch, so the worker still holds it.
      have hon : rec'.onWorker = true := by simp [RequestRecord.onWorker, hs]
      obtain ⟨w'', wr'', hw'', hmem''⟩ := hrest r rec' (hsame.trans hf') (h.live r rec' hf' hon).1
      rcases Pool.find_releaseMember_cases hwr hw'' with ⟨rfl, rfl⟩ | ⟨hne, hold''⟩
      · exact hmem''
      · exact absurd (hb.unique _ w w'' ⟨wr, hwr, hmem⟩ ⟨wr'', hold'', hmem''⟩) hne
    · rw [h.flight w' wr' hold]
      simp only [Core.RunsOn, hsame]

theorem reserve {wr : WorkerRecord} {members : List RequestId} (h : Placed c) (hb : Batched c)
    (hen : Enabled c (.reserve wr members)) (hd : c.ids.tick.Distinct) : Placed (c.act (.reserve wr members)) := by
  obtain ⟨hnodup, _, hwr, _, hmem⟩ := hen
  have hpool := (c.act_reserve_frame wr members).2.2.2
  have hruns : ∀ wr' r att, (c.act (.reserve wr members)).RunsOn wr' r att ↔ c.RunsOn wr' r att := by
    intro wr' r att
    simp only [Core.RunsOn, Core.act_reserve_find hnodup]
    split
    · next hr =>
      obtain ⟨rec, hf, hs⟩ := hmem r hr
      rw [hf]
      have : rec.state ≠ .running := by rcases hs with hs | hs <;> simp [hs]
      simp [RequestRecord.reserve, this]
    · rfl
  refine ⟨fun r rec' hf' hon => ?_, fun w' wr' hw' r att => ?_⟩
  · rw [Core.act_reserve_find hnodup] at hf'
    split at hf'
    · next hr =>
      obtain ⟨rec, hf, _⟩ := hmem r hr
      rw [hf] at hf'
      cases hf'
      exact ⟨rfl, .inl rfl⟩
    · exact h.live r rec' hf' hon
  · rw [hruns]
    rw [hpool, Pool.find_reserve hwr] at hw'
    split at hw'
    · cases hw'
      refine (h.flight wr.id wr hwr r att).trans ?_
      refine exists_congr fun rec => and_congr_right fun hf => and_congr_right fun hs => and_congr_right fun _ => ?_
      -- The new batch is not the batch of a request that already runs.
      have hon : rec.onWorker = true := by simp [RequestRecord.onWorker, hs]
      obtain ⟨_, _, w'', hw''⟩ := hb.member r rec hf (h.live r rec hf hon).1
      have hne : rec.batchId ≠ c.ids.peek := fun he => hb.peek_not_held hd w'' (he ▸ hw'')
      simp only [WorkerRecord.takeBatch, AList.mem_insert, hne, false_or]
    · exact h.flight w' wr' hw' r att

theorem start {rec : RequestRecord} {wr : WorkerRecord} {snap : ResourceSnapshot} (h : Placed c) (hb : Batched c)
    (hen : Enabled c (.start rec wr snap)) (hk : Kept c (.start rec wr snap)) :
    Placed (c.act (.start rec wr snap)) := by
  obtain ⟨hf, hs, hwr, _⟩ := hen
  have hon : rec.onWorker = true := by simp [RequestRecord.onWorker, hs]
  have hi := (h.live _ rec hf hon).1
  have hunits := hk hi
  refine ⟨fun r rec' hf' hon' => ?_, fun w' wr' hw' r att => ?_⟩
  · rcases Keyed.find_put_cases hf' with ⟨rfl, _⟩ | ⟨_, hold⟩
    · exact ⟨hi, .inr rfl⟩
    · exact h.live r rec' hold hon'
  simp only [Core.act, Core.put, Pool.find_start] at hw'
  by_cases hr : r = rec.requestId
  · subst hr
    have hfin : (c.act (.start rec wr snap)).requests.find rec.requestId = some (rec.start wr.id c.now) :=
      Keyed.find_put_self c.requests (rec.start wr.id c.now)
    have hruns : (c.act (.start rec wr snap)).RunsOn wr' rec.requestId att ↔
        rec.currentAttempt = att ∧ rec.batchId ∈ wr'.batchUnits := by
      simp [Core.RunsOn, hfin, RequestRecord.start]
    rw [hruns]
    split at hw'
    · cases hw'
      simp [WorkerRecord.startMember, hunits]
    · next hne =>
      -- Another worker neither lists the request nor holds its batch.
      rw [h.flight w' wr' hw']
      refine ⟨?_, fun hmem => absurd (hb.unique _ _ _ ⟨wr, hwr, hunits⟩ ⟨wr', hw', hmem.2⟩) hne⟩
      intro hx
      obtain ⟨rec', hf', hs', _⟩ := hx
      obtain rfl : rec = rec' := Option.some.inj (hf.symm.trans hf')
      rw [hs] at hs'
      cases hs'
  · have hsame : (c.act (.start rec wr snap)).requests.find r = c.requests.find r :=
      Keyed.find_put_ne c.requests (Ne.symm hr)
    have hruns : ∀ wr', (c.act (.start rec wr snap)).RunsOn wr' r att ↔ c.RunsOn wr' r att := by
      intro wr'
      simp only [Core.RunsOn, hsame]
    rw [hruns]
    split at hw'
    · cases hw'
      refine Iff.trans ?_ (h.flight wr.id wr hwr r att)
      simp only [WorkerRecord.startMember, AList.lookup_insert_ne hr]
    · exact h.flight w' wr' hw' r att

theorem act {m : Move} (h : Placed c) (hb : Batched c) (hen : Enabled c m) (hk : Kept c m) (hw : Working m)
    (hb' : Batched (c.act m)) (hd : (c.act m).ids.Distinct) : Placed (c.act m) := by
  cases m with
  | advance | draw | pop | sleep => exact h.frame rfl rfl
  | refuse rec => exact h.store rec hen.1 (onWorker_of_terminal hen.2.1)
  | accept spec rid =>
    have hstore := h.store (Impl.admittedRecord spec rid c.ids.peek c.ids.tick.peek c.now) hen rfl
    exact hstore.frame rfl rfl
  | expire rec =>
    have hput := h.put rec.expire hen.1 rfl (.inl ⟨by simp [RequestRecord.expire], by simp [hen.2]⟩)
      (by simp [RequestRecord.onWorker, RequestRecord.expire])
    exact hput.frame rfl rfl
  | reserve wr members =>
    rw [(c.act_reserve_frame wr members).2.2.1] at hd
    exact h.reserve hb hen hd
  | start rec wr snap => exact h.start hb hen hk
  | finish rec w e =>
    have hi := (h.live _ rec hen.1 hw.1).1
    refine h.leave hb _ hen.1 (hk hi) ?_ ?_ fun r rec' hf' hi' => (hb'.member r rec' hf' hi').2.2
    · rw [Ending.close_requestId, Pool.released_requestId, Ending.note_requestId]
    · cases e with
      | stale => exact absurd rfl hw.2
      | success r => simp [RequestRecord.onWorker, Ending.close, Ending.note, RequestRecord.succeed]
      | failed r | expired => rfl
  | cancel rec asked w reason =>
    have hid := c.unworked_requestId w { rec with cancelReason := asked }
    cases hon : rec.onWorker with
    | true =>
      have hpool : (c.act (.cancel rec asked w reason)).pool = c.pool.releaseMember w rec := by
        simp only [Core.act, Core.put, hon, ↓reduceIte]
      have hleave := h.leave hb ((c.unworked w { rec with cancelReason := asked }).cancel reason) hen.1
        (hk (h.live _ rec hen.1 hon).1) hid rfl fun r rec' hf' hi' => hpool ▸ (hb'.member r rec' hf' hi').2.2
      exact hleave.frame rfl hpool
    | false =>
      have hpool : (c.act (.cancel rec asked w reason)).pool = c.pool := by
        simp only [Core.act, Core.put, hon, Bool.false_eq_true, ↓reduceIte]
      have hrun : rec.state ≠ .running := fun hs => by simp [RequestRecord.onWorker, hs] at hon
      have hput := h.put ((c.unworked w { rec with cancelReason := asked }).cancel reason) hen.1 hid
        (.inl ⟨by simp [RequestRecord.cancel], hrun⟩) (by simp [RequestRecord.onWorker, RequestRecord.cancel])
      exact hput.frame rfl hpool
  | flag rec asked =>
    refine h.put _ hen.1 rfl (.inr ⟨rfl, rfl, rfl⟩) fun hon => ?_
    exact h.live _ rec hen.1 hon
  | retry rec r =>
    have hi := (h.live _ rec hen.1 hw).1
    have hleave := h.leave hb
      ((c.pool.released r.worker (rec.noteFailure r)).retry c.ids.peek c.ids.tick.peek c.now) hen.1 (hk hi)
      (c.pool.released_requestId r.worker _) rfl fun r rec' hf' hi' => (hb'.member r rec' hf' hi').2.2
    exact hleave.frame rfl rfl
  | sweep | dropWorker => exact hk.elim
  | setWorker wr =>
    refine ⟨h.live, fun w' wr' hw' r att => ?_⟩
    simp only [Core.act, Pool.find_putWorker] at hw'
    split at hw'
    · next he =>
      cases hw'
      obtain ⟨_, _, hunits, _, _, _, hfl⟩ := hen
      have hruns : (c.act (.setWorker wr)).RunsOn wr r att ↔
          c.RunsOn ((c.pool.workers.find wr.id).getD {}) r att := by
        simp only [Core.RunsOn, hunits]
        rfl
      rw [hruns, hfl]
      cases hf : c.pool.workers.find wr.id with
      | none => simp [Core.RunsOn]
      | some old => exact h.flight _ old hf r att
    · exact h.flight w' wr' hw' r att

end Placed

/-! ## Along a run -/

/-- A report targets a request on the worker that holds its batch. -/
def Targets (s : Impl) (r : CompletionReport) : Prop :=
  ∀ rec ∈ s.requests.find r.requestId,
    (rec.state = .reserved ∨ rec.state = .running) ∧ s.pool.Holds r.worker rec.batchId

instance (s : Impl) (r : CompletionReport) : Decidable (Targets s r) :=
  inferInstanceAs (Decidable (∀ rec ∈ s.requests.find r.requestId,
    (rec.state = .reserved ∨ rec.state = .running) ∧ s.pool.Holds r.worker rec.batchId))

/-- Reports target requests on the reporting worker and do not say `Stale`, no
reserved request is cancelled and no worker is lost. -/
def Accountable (s : Impl) : Op → Prop
  | .confirmStart r => Targets s r
  | .complete r => Targets s r ∧ r.status ≠ .stale
  | .cancel req _ _ => ∀ rec ∈ s.requests.find req, rec.state ≠ .reserved
  | .registerWorker reg => s.bootChanged reg = false
  | .unregisterWorker _ => False
  | _ => True

instance (s : Impl) (op : Op) : Decidable (Accountable s op) := by
  apply @Op.casesOn _ op <;> (intros; dsimp only [Accountable]; infer_instance)

theorem Accountable.leakFree {s : Impl} {op : Op} (h : Accountable s op) : LeakFree s op := by
  cases op with
  | confirmStart r => exact fun rec hf _ => (h rec hf).2
  | complete r => exact fun rec hf _ => (h.1 rec hf).2
  | cancel req reason detail => exact fun rec hf hr => h rec hf hr.1
  | registerWorker reg => exact h
  | unregisterWorker w => exact h
  | _ => trivial

theorem working_of_accountable {s : Impl} {op : Op} {c : Core} {m : Move} (hop : Accountable s op)
    (hstep : Step s op c m) : Working m := by
  obtain ⟨hen, hdoes⟩ := hstep
  have htarget : ∀ {r : CompletionReport} {rec}, Targets s r → Matches s r rec → s.core.Holds rec →
      rec.onWorker = true := by
    intro r rec ht hm hf
    have hs := (ht rec (hm.request ▸ hf)).1
    rcases hs with hs | hs <;> simp [RequestRecord.onWorker, hs]
  have hlost : ∀ {w}, ¬Loses s op w := by
    intro w hx
    rcases hx with _ | ⟨reg, hboot⟩
    · exact hop
    · rw [Accountable, hboot] at hop
      cases hop
  cases hdoes with
  | @finish r rec e hm he =>
    refine ⟨htarget hop.1 hm hen.1, ?_⟩
    intro heq
    subst heq
    exact hop.2 he
  | retry hm => exact htarget hop.1 hm hen.1
  | recoverRetry hl | recoverFail hl => exact absurd hl hlost
  | _ => trivial

/-- The five records of who holds which units agree. -/
structure ExactAccounting (s : Impl) : Prop where
  reserved : ∀ w wr, s.pool.workers.find w = some wr →
    wr.reservedUnits = wr.batchUnits.sum fun b u => if b ∈ wr.startedBatches then 0 else u
  running : ∀ w wr, s.pool.workers.find w = some wr →
    wr.runningUnits = wr.batchUnits.sum fun b u => if b ∈ wr.startedBatches then u else 0
  keys : ∀ w wr, s.pool.workers.find w = some wr → ∀ b,
    (b ∈ wr.batchPending ↔ b ∈ wr.batchUnits) ∧ (b ∈ wr.startedBatches → b ∈ wr.batchUnits)
  pending : ∀ w wr b n, s.pool.workers.find w = some wr → wr.batchPending.lookup b = some n → 1 ≤ n ∧
    n = s.requests.count fun rec =>
      (rec.state == .reserved || rec.state == .running) && rec.inBatch && rec.batchId == b
  inFlight : ∀ w wr, s.pool.workers.find w = some wr → ∀ r, r ∈ wr.inFlight ↔
    ∃ rec, s.requests.find r = some rec ∧ rec.state = .running ∧ rec.batchId ∈ wr.batchUnits
  placed : ∀ r rec, s.requests.find r = some rec → rec.state = .reserved ∨ rec.state = .running →
    rec.inBatch = true ∧ ∃! w, s.pool.Holds w rec.batchId
  globalReserved : s.pool.globalReservedUnits = s.pool.workers.sum (·.reservedUnits)
  globalRunning : s.pool.globalRunningUnits = s.pool.workers.sum (·.runningUnits)

theorem exactAccounting_of_placed {s : Impl} (hb : Batched s.core) (hp : Placed s.core) : ExactAccounting s := by
  refine ⟨fun w wr hw => ?_, fun w wr hw => ?_, hb.tidy, fun w wr b n hw hn => ?_, fun w wr hw r => ?_,
    fun r rec hf hs => ?_, hb.balanced.reserved, hb.balanced.running⟩
  · rw [(hb.balanced.workers w wr hw).reserved, WorkerRecord.unitsWhere_false]
  · rw [(hb.balanced.workers w wr hw).running, WorkerRecord.unitsWhere_true]
  · obtain ⟨hcount, hpos⟩ := hb.pending w wr b n hw hn
    refine ⟨hpos, hcount.trans ?_⟩
    refine congrArg _ (Keyed.count_congr fun r rec hf => ?_)
    cases hi : rec.inBatch with
    | false => simp
    | true =>
      have hs := (hp.live r rec hf (hb.member r rec hf hi).1).2
      rcases hs with hs | hs <;> simp [hs]
  · rw [Table.mem_iff]
    constructor
    · intro hx
      obtain ⟨att, hl⟩ := hx
      obtain ⟨rec, hf, hs, _, hm⟩ := (hp.flight w wr hw r att).1 hl
      exact ⟨rec, hf, hs, hm⟩
    · intro hx
      obtain ⟨rec, hf, hs, hm⟩ := hx
      exact ⟨rec.currentAttempt, (hp.flight w wr hw r _).2 ⟨rec, hf, hs, rfl, hm⟩⟩
  · have hon : rec.onWorker = true := by rcases hs with hs | hs <;> simp [RequestRecord.onWorker, hs]
    have hi := (hp.live r rec hf hon).1
    obtain ⟨_, _, w, hw⟩ := hb.member r rec hf hi
    exact ⟨hi, w, hw, fun w' hw' => hb.unique _ w' w hw' hw⟩

end InferenceScheduler
