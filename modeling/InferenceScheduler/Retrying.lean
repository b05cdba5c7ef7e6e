/-
When a failed attempt is followed by another. `do_complete` retries on the
report of a failure and `recover_in_flight` when a worker is lost; nothing else
creates an attempt of a request that is there. Both ask `can_retry`, but the
switches of the policy are consulted for ambiguous dispatches only: transport
and worker failures are retried with `retry_on_transport` and
`retry_on_worker_failure` turned off.

A request that is reserved on a lost worker and has not started is not failed by
the loss (`Loss`), so there is no retry to make.
-/
import InferenceScheduler.Histories
import InferenceScheduler.Loss

namespace InferenceScheduler

open Machine

/-! ## The policy -/

/-- The failures a policy retries. -/
def RetryPolicy.enables (p : RetryPolicy) : FailureClass → Bool
  | .retryableTransport => p.retryOnTransport
  | .retryableWorker => p.retryOnWorkerFailure
  | .ambiguousDispatch => p.retryOnAmbiguous
  | _ => false

/-- The failures that are retried against a policy: their switch is off and is
not looked at. -/
def RetryPolicy.overrides (p : RetryPolicy) : FailureClass → Bool
  | .retryableTransport => !p.retryOnTransport
  | .retryableWorker => !p.retryOnWorkerFailure
  | _ => false

/-- The class of a failure admits a retry if the policy enables it, or has no say. -/
theorem retryable_eq (cfg : SchedulerConfig) (r : CompletionReport) :
    Impl.retryable cfg r = (cfg.retry.enables r.failureClass || cfg.retry.overrides r.failureClass) := by
  unfold Impl.retryable
  cases r.failureClass <;> simp [RetryPolicy.enables, RetryPolicy.overrides]

/-- There are attempts left, the deadline has not passed, and no cancellation was
asked for. -/
structure RequestRecord.MayRetry (rec : RequestRecord) (cfg : SchedulerConfig) (now : ClockTime) : Prop where
  room : (rec.history.length : ℤ) < cfg.retry.maxAttempts
  inTime : ¬(rec.spec.deadline.valid && rec.spec.deadline.expired now) = true
  wanted : rec.cancellationRequested = false ∧ rec.cancellationCommitted = false

theorem canRetry_iff {cfg : SchedulerConfig} {rec : RequestRecord} {now : ClockTime} :
    Impl.canRetry cfg rec now = true ↔ rec.MayRetry cfg now := by
  unfold Impl.canRetry
  constructor
  · intro h
    split at h
    · cases h
    next hwanted =>
    split at h
    · cases h
    next hroom =>
    split at h
    · cases h
    next htime => exact ⟨not_le.1 hroom, htime, by simpa using hwanted⟩
  · intro h
    have hwanted : ¬(rec.cancellationRequested || rec.cancellationCommitted) = true := by simp [h.wanted]
    rw [if_neg hwanted, if_neg (not_le.2 h.room), if_neg h.inTime]

/-- An operation fails the live attempt of a request: a worker reports it as
failed or ambiguous, or the worker it is in flight on is lost. -/
inductive Impl.Fails (s : Impl) : Op → RequestRecord → FailureClass → Prop
  | reported {r rec} : Matches s r rec → isTerminal rec.state = false → r.status = .failed ∨ r.status = .ambiguous →
      Fails s (.complete r) rec r.failureClass
  | lost {op w rec} : Loses s op w → s.core.InFlight w rec.requestId → isTerminal rec.state = false →
      Fails s op rec .retryableWorker

/-- The last attempt is noted as failed for the reason given, and another
follows it. -/
def RequestRecord.Retried (rec rec' : RequestRecord) (c : FailureClass) : Prop :=
  ∃ text new, rec'.history = onLast (fun a =>
    { a with state := .failed, finalStatus := .failed, failureClass := c, errorMessage := text }) rec.history ++ [new]

/-! ## Reports -/

section report

variable {s : Impl} {rid : RequestId} {rec rec' : RequestRecord}

theorem Writes.retried {c : Core} {r : CompletionReport} (hw : Writes c (.retry rec r) rec rec') :
    rec.Retried rec' r.failureClass := by
  cases hw with
  | retry =>
    refine ⟨r.errorMessage,
      { attemptId := c.ids.tick.peek, generation := c.ids.peek, state := .created, createdAt := c.now }, ?_⟩
    rw [RequestRecord.retry, Pool.released_history]
    rfl

/-- A write that lengthens the history is that of a retry. -/
theorem Writes.retry_of_length {c : Core} {m : Move} (hw : Writes c m rec rec')
    (hlt : rec.history.length < rec'.history.length) : ∃ r, m = .retry rec r := by
  rcases hw.history with ⟨f, hrw⟩ | ⟨r, rfl, _⟩
  · rw [hrw.history, length_onLast] at hlt
    omega
  · exact ⟨r, rfl⟩

/-- Of the requests that are there, a report gives a new attempt to the one whose
failure it brings. -/
theorem doComplete_grows {r : CompletionReport} (hf : s.requests.find rid = some rec)
    (hf' : (s.doComplete r).1.requests.find rid = some rec') (hlt : rec.history.length < rec'.history.length) :
    s.Fails (.complete r) rec r.failureClass ∧ Impl.retryable s.cfg r = true ∧ rec.MayRetry s.cfg s.now ∧
      rec.Retried rec' r.failureClass := by
  rcases s.doComplete_cases r with ⟨hkept, _⟩ | ⟨rec₀, hrec₀, hm, ht, hn, _, he⟩
  · have hreq : (s.doComplete r).1.requests = s.requests := by
      rcases hkept with h | h
      · rw [h]
      · rw [h]
        rfl
    rw [hreq, hf, Option.some.injEq] at hf'
    subst hf'
    omega
  obtain ⟨m, hposted, henters, _⟩ := Impl.conclude_enters hrec₀ hm ht hn
  have hcore : (s.doComplete r).1.core = s.core.act m := by
    rw [he]
    exact henters.core
  obtain ⟨⟨hen, hdoes⟩, hbacked⟩ := hposted
  obtain ⟨new, hnew, hwrites⟩ := Core.act_find (c := s.core) hen hf
  rw [← hcore] at hnew
  obtain rfl : rec' = new := Option.some.inj (hf'.symm.trans hnew)
  rcases hwrites with hsame | hw
  · rw [hsame] at hlt
    omega
  obtain ⟨r', rfl⟩ := hw.retry_of_length hlt
  obtain ⟨_, hstatus, hretryable⟩ := hbacked r rfl
  cases hdoes with
  | retry hm => exact ⟨.reported hm hen.2.1 hstatus, hretryable, canRetry_iff.1 hen.2.2.2, hw.retried⟩
  | recoverRetry hl => cases hl

/-- A failure that is reported leads to a new attempt where one may be made. -/
theorem doComplete_retries {r : CompletionReport} (hf : s.core.Holds rec) (hm : Matches s r rec)
    (ht : isTerminal rec.state = false) (hstatus : r.status = .failed ∨ r.status = .ambiguous)
    (hretryable : Impl.retryable s.cfg r = true) (hmay : rec.MayRetry s.cfg s.now) :
    ∃ rec', (s.doComplete r).1.requests.find rec.requestId = some rec' ∧ rec.Retried rec' r.failureClass := by
  have hcan : Impl.canRetry s.cfg rec s.now = true := canRetry_iff.2 hmay
  have hen : Enabled s.core (.retry rec r) := by
    obtain ⟨wr, hwr, _⟩ := hm.worker
    exact ⟨hf, ht, Option.isSome_iff_exists.2 ⟨wr, hwr⟩, hcan⟩
  have hconclude : (s.conclude rec r).1 = s.makeRetry rec r := by
    unfold Impl.conclude
    rcases hstatus with h | h <;> simp only [h, hretryable, hcan, Bool.and_self, if_true]
  refine ⟨_, ?_, Writes.retried (.retry (c := s.core))⟩
  rw [s.doComplete_of_matches hf hm ht hmay.wanted.2, hconclude]
  show (s.makeRetry rec r).core.requests.find rec.requestId = _
  rw [(s.makeRetry_enters rec r).core]
  exact Core.find_of_writes .retry hen hf

end report

/-! ## Lost workers -/

section loss

variable {rid : RequestId} {rec : RequestRecord}

/-- Cores that agree on a request and on what decides about a retry. -/
structure Core.Agrees (c c' : Core) (rid : RequestId) : Prop where
  cfg : c'.cfg = c.cfg
  now : c'.now = c.now
  find : c'.requests.find rid = c.requests.find rid

theorem Core.Agrees.trans {c₁ c₂ c₃ : Core} (h : c₁.Agrees c₂ rid) (h' : c₂.Agrees c₃ rid) : c₁.Agrees c₃ rid :=
  ⟨h'.cfg.trans h.cfg, h'.now.trans h.now, h'.find.trans h.find⟩

/-- The recovery of one request leaves the others alone. -/
theorem Core.recover_agrees (w : WorkerId) (boot : WorkerBootId) (c : Core) {r : RequestId} (hne : rid ≠ r) :
    c.Agrees (c.recover w boot r) rid := by
  unfold recover
  split
  · exact ⟨rfl, rfl, rfl⟩
  next old hold =>
  have hid : old.requestId = r := Keyed.key_of_find hold
  -- Either way one record is written, over the one found.
  have hothers : ∀ {fin : RequestRecord}, fin.requestId = old.requestId →
      (c.requests.put fin).find rid = c.requests.find rid := by
    intro fin hfin
    refine Keyed.find_put_ne c.requests ?_
    rw [hfin, hid]
    exact hne.symm
  split
  · exact ⟨rfl, rfl, rfl⟩
  split
  · exact ⟨rfl, rfl, hothers (c.pool.released_requestId _ _)⟩
  · refine ⟨rfl, rfl, hothers ?_⟩
    rw [Ending.close_requestId, Pool.released_requestId, Ending.note_requestId]

theorem Core.foldl_recover_agrees (w : WorkerId) (boot : WorkerBootId) : ∀ (l : List RequestId) (c : Core), rid ∉ l →
    c.Agrees (l.foldl (recover w boot) c) rid
  | [], _, _ => ⟨rfl, rfl, rfl⟩
  | r :: l, c, hnot => by
    obtain ⟨hne, hnot⟩ := not_or.1 (mt List.mem_cons.2 hnot)
    exact (recover_agrees w boot c hne).trans (foldl_recover_agrees w boot l _ hnot)

/-- The recovery of a list of requests does for each of them what its own
recovery does. -/
theorem Core.foldl_recover_find {l : List RequestId} (c : Core) (w : WorkerId) (boot : WorkerBootId) (hn : l.Nodup)
    (hmem : rid ∈ l) :
    ∃ c', c.Agrees c' rid ∧
      (l.foldl (recover w boot) c).requests.find rid = (c'.recover w boot rid).requests.find rid := by
  obtain ⟨l₁, l₂, rfl⟩ := List.append_of_mem hmem
  obtain ⟨_, hn₂, hdisj⟩ := List.nodup_append.1 hn
  have hbefore : rid ∉ l₁ := fun h => hdisj rid h rid List.mem_cons_self rfl
  refine ⟨l₁.foldl (recover w boot) c, foldl_recover_agrees w boot l₁ c hbefore, ?_⟩
  rw [List.foldl_append, List.foldl_cons]
  exact (foldl_recover_agrees w boot l₂ _ (List.nodup_cons.1 hn₂).1).find

/-- A live request of a lost worker is retried if it may be, and otherwise gets no
new attempt. -/
theorem Core.recover_history {c : Core} (w : WorkerId) (boot : WorkerBootId) (hf : c.requests.find rid = some rec)
    (ht : isTerminal rec.state = false) :
    ∃ rec', (c.recover w boot rid).requests.find rid = some rec' ∧
      (rec.MayRetry c.cfg c.now ∧ rec.Retried rec' .retryableWorker ∨
        ¬rec.MayRetry c.cfg c.now ∧ rec'.history.length = rec.history.length) := by
  have hput : ∀ fin : RequestRecord, fin.requestId = rec.requestId → (c.requests.put fin).find rid = some fin := by
    intro fin hfin
    rw [← Keyed.key_of_find hf, ← hfin]
    exact Keyed.find_put_self _ _
  unfold recover
  simp only [hf, ht, Bool.false_eq_true, if_false]
  split
  · next hcan =>
    refine ⟨_, hput _ (c.pool.released_requestId _ _), .inl ⟨canRetry_iff.1 hcan, ?_⟩⟩
    exact Writes.retried (c := c) (r := Impl.restartReport w boot rec) .retry
  · next hcan =>
    refine ⟨_, hput _ ?_, .inr ⟨mt canRetry_iff.2 hcan, ?_⟩⟩
    · rw [Ending.close_requestId, Pool.released_requestId, Ending.note_requestId]
    · exact Writes.length (c := c) .finish rfl

theorem requests_of_loses_core {w : WorkerId} {s : Impl} {op : Op} {wr : WorkerRecord} (hl : Loses s op w)
    (hw : s.pool.workers.find w = some wr) :
    (scheduler.next s op).requests =
      ((Impl.inFlightIds wr).foldl (Core.recover w wr.registration.bootId) s.core).requests := by
  rw [requests_of_loses hl hw, ← foldl_recoverRequest_core]
  rfl

theorem Loses.worker_eq {s : Impl} {op : Op} {w w' : WorkerId} (hl : Loses s op w) (hl' : Loses s op w') : w' = w := by
  cases hl <;> cases hl' <;> rfl

/-- A request that is not in flight on the lost worker, or is over, stays as it
is. -/
theorem kept_of_loses {s : Impl} {op : Op} {w : WorkerId} (hl : Loses s op w) (hf : s.requests.find rid = some rec)
    (hnot : ¬(s.core.InFlight w rid ∧ isTerminal rec.state = false)) :
    (scheduler.next s op).requests.find rid = some rec := by
  cases hw : s.pool.workers.find w with
  | none =>
    rw [next_of_loses_unknown hl hw]
    exact hf
  | some wr =>
    rw [requests_of_loses_core hl hw]
    by_cases hmem : rid ∈ Impl.inFlightIds wr
    · have ht : isTerminal rec.state = true := by
        by_contra ht
        exact hnot ⟨⟨wr, hw, mem_inFlightIds.1 hmem⟩, by simpa using ht⟩
      obtain ⟨c', hagrees, hfold⟩ := s.core.foldl_recover_find w wr.registration.bootId (inFlightIds_nodup wr) hmem
      have hf' : c'.requests.find rid = some rec := hagrees.find.trans hf
      rw [hfold]
      unfold Core.recover
      simp only [hf', ht, if_true]
    · exact (Core.foldl_recover_agrees w wr.registration.bootId _ s.core hmem).find.trans hf

/-- What a lost worker means for a request: if it is in flight there and live it
is recovered, and otherwise it stays as it is. -/
theorem find_of_loses {s : Impl} {op : Op} {w : WorkerId} (hl : Loses s op w) (hf : s.requests.find rid = some rec) :
    ∃ rec', (scheduler.next s op).requests.find rid = some rec' ∧
      (s.Fails op rec .retryableWorker ∧ rec.MayRetry s.cfg s.now ∧ rec.Retried rec' .retryableWorker ∨
        ¬((∃ c, s.Fails op rec c) ∧ rec.MayRetry s.cfg s.now) ∧ rec'.history.length = rec.history.length) := by
  have hid : rec.requestId = rid := Keyed.key_of_find hf
  by_cases hin : s.core.InFlight w rid ∧ isTerminal rec.state = false
  · obtain ⟨⟨wr, hw, hmem⟩, ht⟩ := hin
    obtain ⟨c', hagrees, hfold⟩ :=
      s.core.foldl_recover_find w wr.registration.bootId (inFlightIds_nodup wr) (mem_inFlightIds.2 hmem)
    obtain ⟨rec', hf', hcases⟩ := Core.recover_history w wr.registration.bootId (hagrees.find.trans hf) ht
    rw [hagrees.cfg, hagrees.now] at hcases
    refine ⟨rec', by rw [requests_of_loses_core hl hw, hfold, hf'], ?_⟩
    rcases hcases with ⟨hmay, hretried⟩ | ⟨hmay, hlength⟩
    · exact .inl ⟨.lost hl ⟨wr, hw, hid ▸ hmem⟩ ht, hmay, hretried⟩
    · exact .inr ⟨fun h => hmay h.2, hlength⟩
  · refine ⟨rec, kept_of_loses hl hf hin, .inr ⟨fun h => ?_, rfl⟩⟩
    obtain ⟨⟨c, hfails⟩, _⟩ := h
    cases hfails with
    | reported => cases hl
    | lost hl' hin' ht =>
      obtain rfl := hl.worker_eq hl'
      exact hin ⟨hid ▸ hin', ht⟩

end loss

/-! ## All operations -/

/-- Only reports and lost workers make retries. -/
theorem Does.retry_origin {s : Impl} {op : Op} {c : Core} {rec : RequestRecord} {r : CompletionReport}
    (h : Does s op c (.retry rec r)) : (∃ r, op = .complete r) ∨ ∃ w, Loses s op w := by
  cases h with
  | retry => exact .inl ⟨r, rfl⟩
  | recoverRetry hl => exact .inr ⟨_, hl⟩

/-- The other operations create no attempt of a request that is there. -/
theorem history_kept {s : Impl} {op : Op} {rid : RequestId} {rec : RequestRecord} (hreport : ¬∃ r, op = .complete r)
    (hloss : ¬∃ w, Loses s op w) (hf : s.requests.find rid = some rec) :
    ∃ rec', (scheduler.next s op).requests.find rid = some rec' ∧ rec'.history.length = rec.history.length := by
  refine posts_invariant (I := fun b => ∃ rec', b.core.requests.find rid = some rec' ∧
    rec'.history.length = rec.history.length) (fun b e he hb => ?_) ⟨rec, hf, rfl⟩
  obtain ⟨cur, hcur, hlength⟩ := hb
  cases e with
  | turnAway | dismiss | settle => exact ⟨cur, hcur, hlength⟩
  | again old spec =>
    obtain ⟨_, hold, _⟩ := he
    obtain ⟨rec', hf', rfl | ⟨rfl, rfl⟩⟩ :=
      Keyed.find_put_over (w := { old with state := .queued, queuedAt := b.core.now }) hold rfl hcur
    · exact ⟨rec', hf', hlength⟩
    · exact ⟨_, hf', hlength⟩
  | move m =>
    obtain ⟨⟨hen, hdoes⟩, _⟩ := he
    rw [Book.act, Book.move_core]
    obtain ⟨rec', hf', rfl | hw⟩ := Core.act_find hen hcur
    · exact ⟨rec', hf', hlength⟩
    · refine ⟨rec', hf', ?_⟩
      rcases hw.history with ⟨f, hrw⟩ | ⟨r, rfl, _⟩
      · rw [hrw.history, length_onLast, hlength]
      · exact (hdoes.retry_origin.elim hreport hloss).elim

/-- No failure of a request that may be retried is of a class whose switch is off
and not looked at. -/
def Impl.Heeds (s : Impl) (op : Op) (rec : RequestRecord) : Prop :=
  ∀ c, s.Fails op rec c → rec.MayRetry s.cfg s.now → s.cfg.retry.overrides c = false

/-- **Retries obey the policy.** In every state, for every configuration and every
operation: a request that is there gets a new attempt only after a failure of a
class the policy enables, with attempts left, in time and with no cancellation
asked for, unless the failure is one whose switch is not looked at. Every such
failure does lead to a new attempt. -/
theorem retries_obey_policy (s : Impl) (op : Op) {rid : RequestId} {rec : RequestRecord}
    (hf : s.requests.find rid = some rec) :
    (s.Heeds op rec → ∀ rec', (scheduler.next s op).requests.find rid = some rec' →
      rec.history.length < rec'.history.length →
        ∃ c, s.Fails op rec c ∧ rec.Retried rec' c ∧ s.cfg.retry.enables c = true ∧ rec.MayRetry s.cfg s.now) ∧
    (∀ c, s.Fails op rec c → s.cfg.retry.enables c = true → rec.MayRetry s.cfg s.now →
      ∃ rec', (scheduler.next s op).requests.find rid = some rec' ∧ rec.Retried rec' c) := by
  constructor
  · intro hheeds rec' hf' hlt
    by_cases hreport : ∃ r, op = .complete r
    · obtain ⟨r, rfl⟩ := hreport
      obtain ⟨hfails, hretryable, hmay, hretried⟩ := doComplete_grows hf hf' hlt
      rw [retryable_eq, hheeds _ hfails hmay, Bool.or_false] at hretryable
      exact ⟨_, hfails, hretried, hretryable, hmay⟩
    by_cases hloss : ∃ w, Loses s op w
    · obtain ⟨w, hl⟩ := hloss
      obtain ⟨new, hnew, hcases⟩ := find_of_loses hl hf
      obtain rfl : rec' = new := Option.some.inj (hf'.symm.trans hnew)
      rcases hcases with ⟨hfails, hmay, hretried⟩ | ⟨_, hlength⟩
      · have hswitch : s.cfg.retry.retryOnWorkerFailure = true := by
          simpa [RetryPolicy.overrides] using hheeds _ hfails hmay
        exact ⟨_, hfails, hretried, hswitch, hmay⟩
      · omega
    · obtain ⟨new, hnew, hlength⟩ := history_kept hreport hloss hf
      obtain rfl : rec' = new := Option.some.inj (hf'.symm.trans hnew)
      omega
  · intro c hfails henables hmay
    cases hfails with
    | @reported r _ hm ht hstatus =>
      have hretryable : Impl.retryable s.cfg r = true := by rw [retryable_eq, henables, Bool.true_or]
      have hid : rec.requestId = rid := Keyed.key_of_find hf
      rw [← hid]
      exact doComplete_retries (Keyed.find_key hf) hm ht hstatus hretryable hmay
    | lost hl hin ht =>
      obtain ⟨rec', hf', ⟨_, _, hretried⟩ | ⟨hnot, _⟩⟩ := find_of_loses hl hf
      · exact ⟨rec', hf', hretried⟩
      · exact absurd ⟨⟨_, .lost hl hin ht⟩, hmay⟩ hnot

/-- Request 7 runs on worker 3. -/
def runningOn3 (policy : RetryPolicy) : Impl :=
  scheduler.run (Impl.init { retry := policy } 0 0x80000001 none)
    [.registerWorker (plainWorker 3), .submit plainSpec (some ⟨7⟩), .planDispatch ⟨7⟩ false,
      .confirmStart (firstReport 3 .failed)]

/-- A failure of the worker, with its switch on. -/
theorem retries_obey_policy_failed :
    let s := runningOn3 {}
    let op := Op.complete (firstReport 3 .failed)
    ∃ rec rec' c, s.requests.find ⟨7⟩ = some rec ∧ (scheduler.next s op).requests.find ⟨7⟩ = some rec' ∧
      s.Fails op rec c ∧ rec.Retried rec' c ∧ s.cfg.retry.enables c = true ∧ rec.MayRetry s.cfg s.now := by
  intro s op
  have hf : s.requests.find ⟨7⟩ = some ((s.requests.find ⟨7⟩).getD {}) := by decide +kernel
  have hf' : (scheduler.next s op).requests.find ⟨7⟩ = some (((scheduler.next s op).requests.find ⟨7⟩).getD {}) := by
    decide +kernel
  have hheeds : s.Heeds op ((s.requests.find ⟨7⟩).getD {}) := fun c _ _ => by cases c <;> decide +kernel
  obtain ⟨c, hretry⟩ := (retries_obey_policy s op hf).1 hheeds _ hf' (by decide +kernel)
  exact ⟨_, _, c, hf, hf', hretry⟩

/-- With every switch off, a failed attempt is followed by another when the worker
reports its own failure or one of the transport, and when it restarts. -/
theorem retried_against_policy :
    let s := runningOn3 { retryOnTransport := false, retryOnWorkerFailure := false }
    (∀ c, s.cfg.retry.enables c = false) ∧ (s.requests.find ⟨7⟩).map (·.history.length) = some 1 ∧
      ∀ op ∈ [Op.complete (firstReport 3 .failed),
          .complete { firstReport 3 .failed with failureClass := .retryableTransport },
          .registerWorker { plainWorker 3 with bootId := ⟨2⟩ }],
        ((scheduler.next s op).requests.find ⟨7⟩).map (·.history.length) = some 2 := by
  intro s
  refine ⟨fun c => by cases c <;> decide +kernel, by decide +kernel, ?_⟩
  simp only [List.mem_cons, List.not_mem_nil, or_false, forall_eq_or_imp, forall_eq]
  exact ⟨by decide +kernel, by decide +kernel, by decide +kernel⟩

end InferenceScheduler
