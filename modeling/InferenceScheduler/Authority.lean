/-
Who may report on an attempt. A worker is granted an attempt when a plan
reserves it there, in a batch under a fresh id, and the grant ends when the
request leaves the batch or the worker gives the batch up; a restart under
another boot gives up all of them, and so does a recovery, which leaves no
request in a batch. Neither report checks the grant: both take the word of any
worker that is registered.
-/
import InferenceScheduler.Members
import InferenceScheduler.Attempts
import InferenceScheduler.Tenancy

namespace InferenceScheduler

open Machine

/-! ## Batch ids on records -/

/-- A request is in a batch only while it is on a worker, or after it ended
there, and the batches of records and workers are under ids drawn. -/
structure Stamped (c : Core) : Prop where
  request : ∀ r rec, c.requests.find r = some rec → rec.inBatch = true →
    c.ids.Issued rec.batchId ∧ (rec.state = .reserved ∨ rec.state = .running ∨ isTerminal rec.state)
  worker : ∀ w wr, c.pool.workers.find w = some wr → ∀ b ∈ wr.batchUnits, c.ids.Issued b ∧ w.valid

theorem Pool.released_of_isSome {p : Pool} {w : WorkerId} (h : (p.workers.find w).isSome) (rec : RequestRecord) :
    p.released w rec = { rec with inBatch := false, batchId := .invalid } := by
  rw [released, if_pos h]

/-- An ended attempt leaves its batch. -/
theorem Ending.inBatch_close {p : Pool} {w : WorkerId} (h : (p.workers.find w).isSome) (now : ClockTime)
    (rec : RequestRecord) (e : Ending) : (e.close (p.released w (e.note now rec))).inBatch = false := by
  rw [Pool.released_of_isSome h]
  cases e <;> rfl

/-- A record written is in the batch it was in, or it is reserved in the one
under the next id. -/
theorem Writes.batch {c : Core} {m : Move} {rec rec' : RequestRecord} (hw : Writes c m rec rec') (hen : Enabled c m)
    (hi : rec'.inBatch = true) :
    rec'.currentAttempt = rec.currentAttempt ∧
      ((∃ wr members, m = .reserve wr members ∧ rec.requestId ∈ members ∧ rec'.batchId = c.ids.peek ∧
          rec'.state = .reserved) ∨
        rec.inBatch = true ∧ rec'.batchId = rec.batchId ∧
          (rec'.state = rec.state ∨ rec'.state = .running ∨ isTerminal rec'.state)) := by
  cases hw with
  | expire => exact ⟨rfl, .inr ⟨hi, rfl, .inr (.inr rfl)⟩⟩
  | @reserve wr members _ hmem => exact ⟨rfl, .inl ⟨wr, members, rfl, hmem, rfl, rfl⟩⟩
  | start => exact ⟨rfl, .inr ⟨hi, rfl, .inr (.inl rfl)⟩⟩
  | finish =>
    rw [Ending.inBatch_close hen.2.2.1] at hi
    cases hi
  | @cancel _ asked w reason =>
    rcases c.unworked_cases w { rec with cancelReason := asked } with h | h <;> rw [h] at hi ⊢
    · exact ⟨rfl, .inr ⟨hi, rfl, .inr (.inr rfl)⟩⟩
    · cases hi
  | flag => exact ⟨rfl, .inr ⟨hi, rfl, .inl rfl⟩⟩
  | retry => cases hi

/-- A worker record written holds no batch it did not hold, but the one it
takes under the next id. -/
theorem Updates.batch {c : Core} {m : Move} {wr wr' : WorkerRecord} (hu : Updates c m wr wr') {b : BatchId}
    (hb : b ∈ wr'.batchUnits) : b ∈ wr.batchUnits ∨ b = c.ids.peek ∧ ∃ members, m = .reserve wr members := by
  cases hu with
  | @reserve _ members => exact ((AList.mem_insert _).1 hb).symm.imp_right fun h => ⟨h, members, rfl⟩
  | start => exact .inl hb
  | finish | cancel | retry => exact .inl (WorkerRecord.mem_of_mem_leave hb)
  | sweep => exact absurd hb (AList.notMem_empty b)
  | set _ hs => exact .inl (hs.2.2.1 ▸ hb)

theorem Stores.inBatch {c : Core} {m : Move} {rec : RequestRecord} (hs : Stores c m rec) (hen : Enabled c m) :
    rec.inBatch = false := by
  cases hs with
  | refuse => exact hen.2.2.1
  | accept => rfl

theorem Stamped.init (cfg : SchedulerConfig) (now : ClockTime) (salt : UInt64) (epoch : Option SchedulerEpoch) :
    Stamped (Impl.init cfg now salt epoch).core := ⟨by simp [Impl.core, Impl.init], by simp [Impl.core, Impl.init]⟩

theorem Stamped.act {c : Core} {m : Move} (h : Stamped c) (hen : Enabled c m) : Stamped (c.act m) := by
  have hext := c.act_ids_extends m
  have hpeek : ∀ {wr members}, m = .reserve wr members → (c.act m).ids.Issued (c.ids.peek : BatchId) := by
    intro wr members heq
    subst heq
    rw [(c.act_reserve_frame wr members).2.2.1]
    exact c.ids.issued_peek
  refine ⟨fun r rec' hf' hi => ?_, fun w wr' hf' b hb => ?_⟩
  · rcases Core.find_act hen hf' with hs | ⟨rec, hf, rfl | hw⟩
    · rw [hs.inBatch hen] at hi
      cases hi
    · obtain ⟨hissued, hstate⟩ := h.request r rec' hf hi
      exact ⟨hissued.of_extends hext, hstate⟩
    · rcases (hw.batch hen hi).2 with ⟨wr, members, hm, _, hb, hs⟩ | ⟨hi₀, hb, hs⟩
      · exact ⟨hb ▸ hpeek hm, .inl hs⟩
      · obtain ⟨hissued, hstate⟩ := h.request r rec hf hi₀
        refine ⟨hb ▸ hissued.of_extends hext, ?_⟩
        rcases hs with hs | hs | hs
        · rwa [hs]
        · exact .inr (.inl hs)
        · exact .inr (.inr hs)
  · rcases Core.find_worker_act hen hf' with ⟨_, _, hs⟩ | ⟨wr, hf, rfl | hu⟩
    · rw [hs.2.2.1] at hb
      exact absurd hb (AList.notMem_empty b)
    · obtain ⟨hissued, hv⟩ := h.worker w wr' hf b hb
      exact ⟨hissued.of_extends hext, hv⟩
    · rcases hu.batch hb with hb | ⟨rfl, members, rfl⟩
      · obtain ⟨hissued, hv⟩ := h.worker w wr hf b hb
        exact ⟨hissued.of_extends hext, hv⟩
      · refine ⟨hpeek rfl, ?_⟩
        rw [← show wr.id = w from Keyed.key_of_find hf]
        exact hen.2.2.2.1

/-! ## Grants -/

/-- A worker, under a boot, holds the batch that an attempt is in. -/
def Core.Granted (c : Core) (r : RequestId) (att : AttemptId) (w : WorkerId) (boot : WorkerBootId) : Prop :=
  ∃ rec wr, c.requests.find r = some rec ∧ rec.inBatch = true ∧ rec.currentAttempt = att ∧
    c.pool.workers.find w = some wr ∧ rec.batchId ∈ wr.batchUnits ∧ wr.registration.bootId = boot

/-- A worker that holds a batch is under the boot it was under. -/
theorem boot_of_setWorker {s : Impl} {op : Op} {c : Core} {wr wr' : WorkerRecord} {b : BatchId} (h : Stamped c)
    (hdoes : Does s op c (.setWorker wr')) (hf : c.pool.workers.find wr'.id = some wr) (hb : b ∈ wr.batchUnits) :
    wr'.registration.bootId = wr.registration.bootId := by
  have hid : wr.id = wr'.id := Keyed.key_of_find hf
  have hv := (h.worker _ wr hf b hb).2
  cases hdoes with
  | @reregister reg c _ =>
    -- The sweep before left the worker no batch.
    rw [show (c.act (.sweep reg.worker)).pool = c.pool.sweep reg.worker from rfl] at hf
    obtain ⟨old, _, rfl⟩ := Option.map_eq_some_iff.1 ((c.pool.find_sweep_self reg.worker).symm.trans hf)
    exact absurd hb (AList.notMem_empty b)
  | @register reg hboot =>
    have hw : s.pool.workers.find reg.worker = some wr := hf
    simp only [Impl.bootChanged, hw, Option.any_some, Bool.and_eq_false_iff, bne_eq_false_iff_eq] at hboot
    rcases hboot with hboot | hboot
    · rw [show wr.registration.worker = _ from hid, hv] at hboot
      cases hboot
    · exact hboot.symm
  | @capability w cap old hold =>
    have hw : s.pool.workers.find old.id = some wr := hf
    rw [Keyed.find_key hold] at hw
    cases hw
    rfl
  | @workerState w state snap old hold =>
    have hw : s.pool.workers.find old.id = some wr := hf
    rw [Keyed.find_key hold] at hw
    cases hw
    rfl

/-- The request side of a grant, after a move. -/
theorem inBatch_act {c : Core} {m : Move} {r : RequestId} {rec' : RequestRecord} (hen : Enabled c m)
    (hf' : (c.act m).requests.find r = some rec') (hi : rec'.inBatch = true) :
    (∃ wr members, m = .reserve wr members ∧ r ∈ members ∧ rec'.batchId = c.ids.peek) ∨
      ∃ rec, c.requests.find r = some rec ∧ rec.inBatch = true ∧ rec'.batchId = rec.batchId ∧
        rec'.currentAttempt = rec.currentAttempt := by
  rcases Core.find_act hen hf' with hs | ⟨rec, hf, rfl | hw⟩
  · rw [hs.inBatch hen] at hi
    cases hi
  · exact .inr ⟨rec', hf, hi, rfl, rfl⟩
  · obtain ⟨hatt, ⟨wr, members, hm, hmem, hb, _⟩ | ⟨hi, hb, _⟩⟩ := hw.batch hen hi
    · rw [show rec.requestId = r from Keyed.key_of_find hf] at hmem
      exact .inl ⟨wr, members, hm, hmem, hb⟩
    · exact .inr ⟨rec, hf, hi, hb, hatt⟩

/-- The worker side. -/
theorem held_act {s : Impl} {op : Op} {c : Core} {m : Move} {w : WorkerId} {wr' : WorkerRecord} {b : BatchId}
    (h : Stamped c) (hstep : Step s op c m) (hf' : (c.act m).pool.workers.find w = some wr')
    (hb : b ∈ wr'.batchUnits) :
    (∃ wr members, m = .reserve wr members ∧ wr.id = w ∧ b = c.ids.peek) ∨
      ∃ wr, c.pool.workers.find w = some wr ∧ b ∈ wr.batchUnits ∧
        wr'.registration.bootId = wr.registration.bootId := by
  obtain ⟨hen, hdoes⟩ := hstep
  rcases Core.find_worker_act hen hf' with ⟨_, _, hs⟩ | ⟨wr, hf, rfl | hu⟩
  · rw [hs.2.2.1] at hb
    exact absurd hb (AList.notMem_empty b)
  · exact .inr ⟨wr', hf, hb, rfl⟩
  have hid : wr.id = w := Keyed.key_of_find hf
  rcases hu.batch hb with hb | ⟨rfl, members, rfl⟩
  · refine .inr ⟨wr, hf, hb, ?_⟩
    cases hu with
    | set hw =>
      rw [← hid, ← hw] at hf
      exact boot_of_setWorker h hdoes hf hb
    | reserve | start | sweep => rfl
    | finish | cancel | retry => rw [WorkerRecord.leave_registration]
  · exact .inl ⟨wr, members, rfl, hid, rfl⟩

/-- A move grants nothing, but a reservation: it grants its worker the
attempts of its members. -/
theorem granted_act {s : Impl} {op : Op} {c : Core} {m : Move} {r : RequestId} {att : AttemptId} {w : WorkerId}
    {boot : WorkerBootId} (h : Stamped c) (hstep : Step s op c m) (hids : (c.act m).ids.Distinct)
    (hg : (c.act m).Granted r att w boot) :
    c.Granted r att w boot ∨ ∃ wr members, m = .reserve wr members ∧ wr.id = w ∧ r ∈ members := by
  obtain ⟨rec', wr', hf', hi, rfl, hw', hb, rfl⟩ := hg
  -- The id a reservation draws is on no record.
  have hfresh : ∀ {wr members}, m = .reserve wr members → ¬c.ids.Issued (c.ids.peek : BatchId) := by
    intro wr members heq hb
    subst heq
    rw [(c.act_reserve_frame wr members).2.2.1] at hids
    exact IdFactory.peek_ne_of_issued hids hb rfl
  rcases inBatch_act hstep.1 hf' hi, held_act h hstep hw' hb with
    ⟨⟨wr, members, hm, hmem, hpeek⟩ | ⟨rec, hf, hi, hbatch, hatt⟩,
      ⟨wr₁, members₁, hm₁, hw₁, hpeek₁⟩ | ⟨wr₁, hf₁, hb₁, hboot⟩⟩
  · obtain ⟨rfl, rfl⟩ := Move.reserve.inj (hm.symm.trans hm₁)
    exact .inr ⟨wr, members, hm, hw₁, hmem⟩
  · rw [hpeek] at hb₁
    exact absurd (h.worker w wr₁ hf₁ _ hb₁).1 (hfresh hm)
  · have hissued := (h.request r rec hf hi).1
    rw [← hbatch, hpeek₁] at hissued
    exact absurd hissued (hfresh hm₁)
  · exact .inl ⟨rec, wr₁, hf, hi, hatt.symm, hf₁, hbatch ▸ hb₁, hboot.symm⟩

/-! ## Runs -/

/-- Some plan of the past reserved this attempt on this worker, under this
boot. -/
def ReservedBy (past : List (Event Impl ServiceOp Answer)) (r : RequestId) (att : AttemptId) (w : WorkerId)
    (boot : WorkerBootId) : Prop :=
  ∃ e ∈ past, ∃ request ex out, e.input = .op (.planDispatch request ex) ∧ e.out = .dispatch (.ok out) ∧
    out.decision = .dispatch ∧ out.workerId = w ∧ r ∈ out.batchMembers ∧
    (∃ rec, e.post.requests.find r = some rec ∧ rec.currentAttempt = att) ∧
    ∃ wr, e.post.pool.workers.find w = some wr ∧ wr.registration.bootId = boot

/-- Every grant goes back to a plan. -/
structure Traceable (past : List (Event Impl ServiceOp Answer)) (c : Core) : Prop where
  stamped : Stamped c
  reserved : ∀ r att w boot, c.Granted r att w boot → ReservedBy past r att w boot

theorem ReservedBy.append {past : List (Event Impl ServiceOp Answer)} {r : RequestId} {att : AttemptId} {w : WorkerId}
    {boot : WorkerBootId} (h : ReservedBy past r att w boot) (e : Event Impl ServiceOp Answer) :
    ReservedBy (past ++ [e]) r att w boot := by
  obtain ⟨e', he', h⟩ := h
  exact ⟨e', List.mem_append_left _ he', h⟩

theorem Traceable.append {past : List (Event Impl ServiceOp Answer)} {c : Core} (h : Traceable past c)
    (e : Event Impl ServiceOp Answer) : Traceable (past ++ [e]) c :=
  ⟨h.stamped, fun r att w boot hg => (h.reserved r att w boot hg).append e⟩

/-- A move that reserves nothing keeps the grants as they are. -/
theorem Traceable.act {past : List (Event Impl ServiceOp Answer)} {s : Impl} {op : Op} {c : Core} {m : Move}
    (h : Traceable past c) (hstep : Step s op c m) (hm : ∀ wr members, m ≠ .reserve wr members)
    (hids : (c.act m).ids.Distinct) : Traceable past (c.act m) := by
  refine ⟨h.stamped.act hstep.1, fun r att w boot hg => ?_⟩
  rcases granted_act h.stamped hstep hids hg with hg | ⟨wr, members, he, _⟩
  · exact h.reserved r att w boot hg
  · exact absurd he (hm wr members)

/-- Moves that reserve nothing keep the grants as they are. -/
theorem Traceable.leads {past : List (Event Impl ServiceOp Answer)} {s : Impl} {op : Op} {c c' : Core}
    {P : Core → Move → Prop} (h : Traceable past c) (hlead : moves.Leads P c c')
    (hP : ∀ c m, P c m → Step s op c m ∧ ∀ wr members, m ≠ .reserve wr members) (hids : c'.ids.Distinct) :
    Traceable past c' := by
  refine hlead.invariant (I := fun c => c.ids.Distinct → Traceable past c) ?_ (fun _ => h) hids
  intro c m hm hc hdist
  obtain ⟨hstep, hne⟩ := hP c m hm
  exact (hc (hdist.of_extends (c.act_ids_extends m))).act hstep hne hdist

theorem Traceable.step {past : List (Event Impl ServiceOp Answer)} {s : Impl} {op : Op} (h : Traceable past s.core)
    (hfresh : FreshSubmit s op) (hids : (scheduler.next s op).idFactory.Distinct) :
    Traceable (past ++ [recoverable.event s (.op op)]) (scheduler.next s op).core := by
  by_cases hop : ∃ request ex, op = .planDispatch request ex
  · obtain ⟨request, ex, rfl⟩ := hop
    let P : Core → Move → Prop := fun c m => Step s (.planDispatch request ex) c m ∧ ∃ rec, m = .expire rec
    have hexpire : ∀ c rec, Enabled c (.expire rec) → P c (.expire rec) :=
      fun c rec hen => ⟨⟨hen, .planExpire⟩, rec, rfl⟩
    have hP : ∀ c m, P c m → Step s (.planDispatch request ex) c m ∧ ∀ wr members, m ≠ .reserve wr members := by
      intro c m hx
      obtain ⟨hstep, rec, rfl⟩ := hx
      exact ⟨hstep, fun _ _ => by simp⟩
    rcases s.doPlanDispatch_cases request ex hexpire with ⟨hlead, _⟩ | ⟨wr, out, hout, hd⟩
    · exact (h.leads hlead hP hids).append _
    · have hcore : (scheduler.next s (.planDispatch request ex)).core =
          (s.expireScan s.now).core.act (.reserve wr out.batchMembers) := hd.core
      have hids' : ((s.expireScan s.now).core.act (.reserve wr out.batchMembers)).ids.Distinct := hcore ▸ hids
      have hscan := h.leads (s.expireScan_leads s.now hexpire) hP
        (hids'.of_extends (Core.act_ids_extends _ _))
      have hstep : Step s (.planDispatch request ex) (s.expireScan s.now).core (.reserve wr out.batchMembers) :=
        ⟨hd.enabled, .reserve hd.planned⟩
      refine ⟨hcore ▸ hscan.stamped.act hd.enabled, fun r att w boot hg => ?_⟩
      rcases granted_act hscan.stamped hstep hids' (hcore ▸ hg) with hold | ⟨wr', members, hm, rfl, hmem⟩
      · exact (hscan.reserved r att w boot hold).append _
      · obtain ⟨rfl, rfl⟩ := Move.reserve.inj hm
        obtain ⟨rec, wr₁, hf, _, hatt, hw, _, hboot⟩ := hg
        refine ⟨recoverable.event s (.op (.planDispatch request ex)), by simp, request, ex, out, rfl, ?_, hd.decision,
          hd.worker, hmem, ⟨rec, hf, hatt⟩, wr₁, hw, hboot⟩
        exact congrArg Answer.dispatch hout
  · refine (h.leads (step_leads hfresh) (fun c m hstep => ⟨hstep, ?_⟩) hids).append _
    intro wr members heq
    subst heq
    obtain ⟨_, hdoes⟩ := hstep
    cases hdoes with
    | @reserve request ex => exact hop ⟨request, ex, rfl⟩

/-- A recovery leaves nothing granted. -/
theorem Traceable.recovered {past : List (Event Impl ServiceOp Answer)} {s : Impl} {img : SavedState} {c : Core}
    (hc : s.Recovered img c) : Traceable past c := by
  refine ⟨⟨fun r rec hf hi => ?_, fun w wr hf b hb => ?_⟩, fun r att w boot hg => ?_⟩
  · rw [(hc.inBatch hf).1] at hi
    cases hi
  · obtain ⟨saved, _, rfl⟩ := hc.worker hf
    exact absurd hb (AList.notMem_empty b)
  · obtain ⟨rec, _, hf, hi, _⟩ := hg
    rw [(hc.inBatch hf).1] at hi
    cases hi

/-- Submissions use new ids. -/
def FreshService (s : Impl) : ServiceOp → Prop
  | .op op => FreshSubmit s op
  | .recover _ => True

instance (s : Impl) : (op : ServiceOp) → Decidable (FreshService s op)
  | .op op => inferInstanceAs (Decidable (FreshSubmit s op))
  | .recover _ => .isTrue trivial

theorem serve_ids_extends (s : Impl) (op : ServiceOp) :
    (recoverable.next s op).idFactory.Extends s.idFactory := by
  cases op with
  | op op => exact step_ids_extends s op
  | recover file =>
    have hids : (s.doRecover file).1.core.ids = s.idFactory := by
      rcases s.doRecover_recovered file with h | ⟨img, _, h⟩
      · rw [h]
        rfl
      · exact h.ids
    exact hids ▸ .refl _

theorem Traceable.serve {past : List (Event Impl ServiceOp Answer)} {s : Impl} {op : ServiceOp}
    (h : Traceable past s.core) (hfresh : FreshService s op) (hids : (recoverable.next s op).idFactory.Distinct) :
    Traceable (past ++ [recoverable.event s op]) (recoverable.next s op).core := by
  cases op with
  | op op => exact h.step hfresh hids
  | recover file =>
    show Traceable _ (s.doRecover file).1.core
    rcases s.doRecover_recovered file with heq | ⟨img, _, hc⟩
    · rw [heq]
      exact h.append _
    · exact .recovered hc

theorem traceable_served {cfg : SchedulerConfig} {now : ClockTime} {salt : UInt64} {epoch : Option SchedulerEpoch}
    {ops : List ServiceOp} (hok : recoverable.Allowed FreshService (Impl.init cfg now salt epoch) ops)
    (hids : (recoverable.run (Impl.init cfg now salt epoch) ops).idFactory.Distinct) :
    Traceable (recoverable.trace (Impl.init cfg now salt epoch) ops)
      (recoverable.run (Impl.init cfg now salt epoch) ops).core := by
  refine history_invariant (P := FreshService) (I := fun past s => s.idFactory.Distinct → Traceable past s.core)
    ?_ ?_ hok hids
  · intro past s op hfresh h hdist
    exact (h (hdist.of_extends (serve_ids_extends _ _))).serve hfresh hdist
  · refine fun _ => ⟨.init cfg now salt epoch, ?_⟩
    intro r att w boot hx
    obtain ⟨rec, _, hf, _⟩ := hx
    simp [Impl.core, Impl.init] at hf

/-! ## Reports -/

/-- The request of a report is on a worker, and a plan reserved its current
attempt on the reporting worker, under the reporting boot. -/
def Authorised (past : List (Event Impl ServiceOp Answer)) (s : Impl) (r : CompletionReport) : Prop :=
  ∃ rec, s.requests.find r.requestId = some rec ∧ (rec.state = .reserved ∨ rec.state = .running) ∧
    ReservedBy past r.requestId rec.currentAttempt r.worker r.bootId

/-- The request of a report is in a batch, and the reporting worker holds it. -/
def HeldByReporter (s : Impl) (r : CompletionReport) : Prop :=
  ∃ rec, s.requests.find r.requestId = some rec ∧ rec.inBatch = true ∧ s.pool.Holds r.worker rec.batchId

instance (s : Impl) (r : CompletionReport) : Decidable (HeldByReporter s r) :=
  decidable_of_iff ((s.requests.find r.requestId).any fun rec =>
      rec.inBatch && decide (s.pool.Holds r.worker rec.batchId)) (by
    simp [HeldByReporter, Option.any_eq_true])

theorem authorised_of_matches {past : List (Event Impl ServiceOp Answer)} {s : Impl} {r : CompletionReport}
    {rec : RequestRecord} (h : Traceable past s.core) (hf : s.core.Holds rec) (hm : Matches s r rec)
    (ht : isTerminal rec.state = false) (hheld : HeldByReporter s r) : Authorised past s r := by
  have hf : s.requests.find r.requestId = some rec := hm.request ▸ hf
  obtain ⟨rec', hf', hi, wr, hw, hb⟩ := hheld
  obtain rfl : rec = rec' := Option.some.inj (hf.symm.trans hf')
  obtain ⟨wr', hw', hboot⟩ := hm.worker
  obtain rfl : wr = wr' := Option.some.inj (hw.symm.trans hw')
  refine ⟨rec, hf, ?_, h.reserved _ _ _ _ ⟨rec, wr, hf, hi, rfl, hw, hb, hboot⟩⟩
  rcases (h.stamped.request _ rec hf hi).2 with hs | hs | hs
  · exact .inl hs
  · exact .inr hs
  · rw [ht] at hs
    cases hs

/-- **Completion authority.** After any run, with recoveries from any files, a
report from a worker that holds the batch of the request is taken only on the
attempt a plan gave that worker, under the boot it gave it to. -/
theorem authority_bound {cfg : SchedulerConfig} {now : ClockTime} {salt : UInt64} {epoch : Option SchedulerEpoch}
    {ops : List ServiceOp} {r : CompletionReport}
    (hok : recoverable.Allowed FreshService (Impl.init cfg now salt epoch) ops)
    (hids : (recoverable.run (Impl.init cfg now salt epoch) ops).idFactory.Distinct)
    (hheld : HeldByReporter (recoverable.run (Impl.init cfg now salt epoch) ops) r) :
    let past := recoverable.trace (Impl.init cfg now salt epoch) ops
    let s := recoverable.run (Impl.init cfg now salt epoch) ops
    ((s.doConfirmStart r).2 = .ok () → Authorised past s r) ∧
      ((s.doComplete r).2.acceptance = .accepted → Authorised past s r) := by
  intro past s
  have h : Traceable past s.core := traceable_served hok hids
  refine ⟨fun hacc => ?_, fun hacc => ?_⟩
  · rcases s.doConfirmStart_cases r with ⟨_, hne⟩ | ⟨rec, wr, hm, _, hen, _⟩
    · exact absurd hacc hne
    · exact authorised_of_matches h hen.1 hm (by simp [hen.2.1, isTerminal]) hheld
  · rcases s.doComplete_cases r with ⟨_, hne, _⟩ | ⟨rec, hf, hm, ht, _⟩
    · exact absurd hacc hne
    · exact authorised_of_matches h hf hm ht hheld

/-- Request 7 is submitted, and what is persisted then is recovered. -/
def submittedAndRecovered : List ServiceOp :=
  [.op (.submit plainSpec (some ⟨7⟩)),
    .recover (scheduler.run .durable [.submit plainSpec (some ⟨7⟩)]).doPersist.toOption]

/-- The start of a request that came back from a file, on the worker it was
reserved on then. -/
theorem authority_bound_start :
    let ops := submittedAndRecovered ++ [.op (.registerWorker (plainWorker 3)), .op (.planDispatch ⟨7⟩ false)]
    Authorised (recoverable.trace .durable ops) (recoverable.run .durable ops) (firstReport 3 .succeeded) := by
  intro ops
  exact (authority_bound (by decide +kernel) (by decide +kernel) (by decide +kernel)).1 (by decide +kernel)

/-- A worker that was never given anything completes a queued request, and a
request reserved on worker 3 starts on worker 4. -/
theorem authority_unchecked :
    let s := Impl.init {} 0 0x80000001 none
    let queued : List ServiceOp := [.op (.registerWorker (plainWorker 3)), .op (.submit plainSpec (some ⟨7⟩))]
    let planned : List ServiceOp := [.op (.registerWorker (plainWorker 3)), .op (.registerWorker (plainWorker 4)),
      .op (.submit plainSpec (some ⟨7⟩)), .op (.planDispatch ⟨7⟩ false)]
    (((recoverable.run s queued).doComplete (firstReport 3 .succeeded)).2.acceptance = .accepted ∧
        ¬Authorised (recoverable.trace s queued) (recoverable.run s queued) (firstReport 3 .succeeded)) ∧
      ((recoverable.run s planned).doConfirmStart (firstReport 4 .succeeded)).2 = .ok () ∧
        ¬Authorised (recoverable.trace s planned) (recoverable.run s planned) (firstReport 4 .succeeded) := by
  intro s queued planned
  refine ⟨⟨by decide +kernel, ?_⟩, by decide +kernel, ?_⟩
  · intro hx
    obtain ⟨rec, hf, hs, _⟩ := hx
    have hq : rec.state = .queued :=
      Keyed.forall_find (P := fun rec => rec.state = .queued) (t := (recoverable.run s queued).requests)
        (by decide +kernel) _ rec hf
    simp [hq] at hs
  · intro hx
    obtain ⟨rec, _, _, e, he, request, ex, out, _, hout, _, hw, _⟩ := hx
    have hall : (recoverable.trace s planned).all fun e => match e.out with
        | .dispatch (.ok out) => out.workerId == ⟨3⟩
        | _ => true := by decide +kernel
    have := List.all_eq_true.1 hall e he
    simp [hout, hw, firstReport] at this

end InferenceScheduler
