/-
What is final for a request. A terminal request is never written again and
never in a later batch, whatever is reported about it; a request whose cancel
succeeded neither completes nor gets another attempt.
-/
import InferenceScheduler.Records

namespace InferenceScheduler

open Machine

/-! ## Terminal requests -/

/-- No move writes a terminal record. -/
theorem Writes.not_terminal {c : Core} {m : Move} {rec rec' : RequestRecord} (hw : Writes c m rec rec')
    (h : Enabled c m) (hf : c.Holds rec) : isTerminal rec.state = false := by
  cases hw with
  | expire => rw [h.2]; rfl
  | reserve hmem =>
    obtain ⟨rec', hf', hs⟩ := h.2.2.2.2 _ hmem
    obtain rfl : rec = rec' := Option.some.inj (hf.symm.trans hf')
    rcases hs with hs | hs <;> rw [hs] <;> rfl
  | start => rw [h.2.1]; rfl
  | finish => exact h.2.1
  | cancel => exact h.2
  | flag => rcases h.2 with hs | hs <;> rw [hs] <;> rfl
  | retry => exact h.2.1

theorem act_find_terminal {c : Core} {m : Move} {rid : RequestId} {rec : RequestRecord} (h : Enabled c m)
    (hf : c.requests.find rid = some rec) (ht : isTerminal rec.state = true) :
    (c.act m).requests.find rid = some rec := by
  obtain ⟨rec', hf', rfl | hw⟩ := Core.act_find h hf
  · exact hf'
  · have := hw.not_terminal h (Keyed.find_key hf)
    rw [ht] at this
    cases this

/-- The members of a batch are not terminal before the plan. -/
theorem dispatch_members {s : Impl} {op : Op} {out : DispatchOutcome} {r : RequestId} {rec : RequestRecord}
    (ho : (scheduler.step s op).2 = .dispatch (.ok out)) (hd : out.decision = .dispatch) (hr : r ∈ out.batchMembers)
    (hf : s.requests.find r = some rec) : isTerminal rec.state = false := by
  cases op with
  | planDispatch request ex =>
    have ho' : (s.doPlanDispatch request ex).2 = .ok out := by
      simpa [scheduler, Impl.step] using ho
    rcases s.doPlanDispatch_cases request ex (P := Enabled) fun _ _ h => h with ⟨_, hno⟩ | ⟨wr, out', hout, hp⟩
    · exact absurd hd (hno out ho')
    · obtain rfl : out = out' := by simpa [hout] using ho'.symm
      obtain ⟨rec', hf', hs⟩ := hp.enabled.2.2.2.2 r hr
      -- A terminal record would have come through the expiry scan unchanged.
      by_contra hterm
      simp only [Bool.not_eq_false] at hterm
      have hscan := (Impl.expireScan_leads s s.now (P := Enabled) fun _ _ h => h).invariant
        (I := fun c => c.requests.find r = some rec) (fun c m hm hc => act_find_terminal hm hc hterm) hf
      obtain rfl : rec = rec' := Option.some.inj (hscan.symm.trans hf')
      rcases hs with hs | hs <;> rw [hs] at hterm <;> cases hterm
  | _ => simp [scheduler, Impl.step] at ho

theorem run_find_terminal {s : Impl} {ops : List Op} {r : RequestId} {rec : RequestRecord}
    (hfresh : scheduler.Allowed FreshSubmit s ops) (hf : s.requests.find r = some rec)
    (ht : isTerminal rec.state = true) : (scheduler.run s ops).requests.find r = some rec :=
  run_invariant_of_leads (a := moves) (q := Step) (v := Impl.core)
    (I := fun c => c.requests.find r = some rec) (fun _ _ h => step_leads h)
    (fun _ _ _ _ _ hm hc => act_find_terminal hm.1 hc ht) hf hfresh

/-- **Terminal requests are frozen.** From the state in which a request is
terminal on, its record stays as it is through every run with fresh ids, and
no plan puts it in a batch. -/
theorem terminal_frozen {cfg : SchedulerConfig} {now : ClockTime} {salt : UInt64} {epoch : Option SchedulerEpoch}
    {before after : List Op} {r : RequestId} {rec : RequestRecord}
    (hfresh : scheduler.Allowed FreshSubmit (Impl.init cfg now salt epoch) (before ++ after))
    (hf : (scheduler.run (Impl.init cfg now salt epoch) before).requests.find r = some rec)
    (ht : isTerminal rec.state = true) :
    (scheduler.run (Impl.init cfg now salt epoch) (before ++ after)).requests.find r = some rec ∧
      ∀ e ∈ scheduler.trace (scheduler.run (Impl.init cfg now salt epoch) before) after,
        ∀ out, e.out = .dispatch (.ok out) → out.decision = .dispatch → r ∉ out.batchMembers := by
  rw [allowed_append] at hfresh
  rw [run_append]
  refine ⟨run_find_terminal hfresh.2 hf ht, fun e he out ho hd hr => ?_⟩
  obtain ⟨js, op, ks, rfl, rfl⟩ := exists_of_mem_trace he
  have hjs := run_find_terminal (allowed_append.1 hfresh.2).1 hf ht
  have := dispatch_members ho hd hr hjs
  rw [ht] at this
  cases this

/-- A request of tenant 1 for model 1. -/
def plainSpec : RequestSpec := { tenant := ⟨1⟩, model := ⟨1⟩ }

/-- A request cancelled while queued, then submitted to everything a run can
bring. -/
theorem terminal_frozen_cancelled :
    let s := Impl.init {} 0 0x80000001 none
    let before : List Op := [.submit plainSpec (some ⟨7⟩), .cancel ⟨7⟩ .clientRequested ""]
    let after : List Op := [.planNextSeed, .planDispatch ⟨7⟩ false, .complete { requestId := ⟨7⟩ }, .rollEpoch]
    (scheduler.run s (before ++ after)).requests.find ⟨7⟩ = (scheduler.run s before).requests.find ⟨7⟩ := by
  intro s before after
  have hf : (scheduler.run s before).requests.find ⟨7⟩ =
      some (((scheduler.run s before).requests.find ⟨7⟩).getD {}) := by decide +kernel
  rw [hf]
  exact (terminal_frozen (by decide +kernel) hf (by decide +kernel)).1

/-! ## Cancelled requests -/

/-- The attempts of a request, by id. -/
def RequestRecord.attempts (rec : RequestRecord) : List AttemptId := rec.history.map (·.attemptId)

/-- Only a retry changes the attempts of a request. -/
theorem Writes.attempts {c : Core} {m : Move} {rec rec' : RequestRecord} (hw : Writes c m rec rec') :
    rec'.currentAttempt = rec.currentAttempt ∧ rec'.attempts = rec.attempts ∨ ∃ r, m = .retry rec r := by
  rcases hw.history with ⟨f, hf⟩ | ⟨r, hm, _⟩
  · refine .inl ⟨hf.attempt, ?_⟩
    rw [RequestRecord.attempts, hf.history]
    exact map_onLast (fun a => (hf.keeps a).1) _
  · exact .inr ⟨r, hm⟩

/-- A request whose cancel was accepted when it had the record `rec₀`: it has
ended without completing, or it is on a worker and marked. -/
structure Withdrawn (rec₀ rec : RequestRecord) : Prop where
  ending : isTerminal rec.state = true ∧ rec.state ≠ .completed ∨
    (rec.state = .dispatched ∨ rec.state = .running) ∧ rec.cancellationRequested = true
  attempt : rec.currentAttempt = rec₀.currentAttempt
  attempts : rec.attempts = rec₀.attempts

/-- No move takes a withdrawn request back. -/
theorem Withdrawn.writes {c : Core} {m : Move} {rec₀ rec rec' : RequestRecord} (h : Withdrawn rec₀ rec)
    (hw : Writes c m rec rec') (hen : Enabled c m) (hf : c.Holds rec) : Withdrawn rec₀ rec' := by
  obtain ⟨hon, hflag⟩ : (rec.state = .dispatched ∨ rec.state = .running) ∧ rec.cancellationRequested = true := by
    have hnt := hw.not_terminal hen hf
    rcases h.ending with ⟨ht, _⟩ | hon
    · rw [hnt] at ht
      cases ht
    · exact hon
  have hsame : rec'.currentAttempt = rec.currentAttempt ∧ rec'.attempts = rec.attempts := by
    rcases hw.attempts with hs | ⟨r, rfl⟩
    · exact hs
    · have hcan := hen.2.2.2
      simp [Impl.canRetry, hflag] at hcan
  refine ⟨?_, hsame.1.trans h.attempt, hsame.2.trans h.attempts⟩
  cases hw with
  | expire =>
    rw [hen.2] at hon
    simp at hon
  | reserve hmem =>
    obtain ⟨rec', hf', hs⟩ := hen.2.2.2.2 _ hmem
    obtain rfl : rec = rec' := Option.some.inj (hf.symm.trans hf')
    rcases hs with hs | hs <;> rw [hs] at hon <;> simp at hon
  | start =>
    rw [hen.2.1] at hon
    simp at hon
  | @finish _ w e =>
    cases e with
    | success r =>
      have := hen.2.2.2 r rfl
      rw [hflag] at this
      cases this
    | failed r => exact .inl ⟨rfl, by simp [Ending.close, RequestRecord.fail]⟩
    | expired => exact .inl ⟨rfl, by simp [Ending.close]⟩
    | stale =>
      refine .inr ?_
      simp only [Ending.close, Ending.note, RequestRecord.noteStale, Pool.released_state,
        Pool.released_cancellationRequested]
      exact ⟨hon, hflag⟩
  | cancel => exact .inl ⟨rfl, by simp [RequestRecord.cancel]⟩
  | flag => exact .inr ⟨hon, rfl⟩
  | retry =>
    have hcan := hen.2.2.2
    simp [Impl.canRetry, hflag] at hcan

theorem Withdrawn.run {s : Impl} {ops : List Op} {r : RequestId} {rec₀ : RequestRecord}
    (hfresh : scheduler.Allowed FreshSubmit s ops) (h : ∃ rec, s.requests.find r = some rec ∧ Withdrawn rec₀ rec) :
    ∃ rec, (scheduler.run s ops).requests.find r = some rec ∧ Withdrawn rec₀ rec := by
  refine run_invariant_of_leads (a := moves) (q := Step) (v := Impl.core)
    (I := fun c => ∃ rec, c.requests.find r = some rec ∧ Withdrawn rec₀ rec) (fun _ _ h => step_leads h) ?_ h hfresh
  intro _ _ _ c m hx hy
  obtain ⟨hen, _⟩ := hx
  obtain ⟨rec, hf, hwd⟩ := hy
  obtain ⟨rec', hf', rfl | hw⟩ := Core.act_find hen hf
  · exact ⟨rec', hf', hwd⟩
  · exact ⟨rec', hf', hwd.writes hw hen (Keyed.find_key hf)⟩

theorem Withdrawn.cancel (c : Core) (rec : RequestRecord) (asked : CancellationReason) (w : WorkerId)
    (reason : String) : ∃ rec', (c.act (.cancel rec asked w reason)).requests.find rec.requestId = some rec' ∧
      Withdrawn rec rec' := by
  have hid := c.unworked_requestId w { rec with cancelReason := asked }
  have hw : Writes c (.cancel rec asked w reason) rec _ := .cancel
  refine ⟨(c.unworked w { rec with cancelReason := asked }).cancel reason, ?_, .inl ⟨rfl, ?_⟩, ?_, ?_⟩
  · have hput := Keyed.find_put_self c.requests ((c.unworked w { rec with cancelReason := asked }).cancel reason)
    rwa [show ((c.unworked w { rec with cancelReason := asked }).cancel reason).requestId = rec.requestId from hid]
      at hput
  · simp [RequestRecord.cancel]
  · exact (hw.attempts.resolve_right (by simp)).1
  · exact (hw.attempts.resolve_right (by simp)).2

/-- A cancel that succeeds withdraws the request. -/
theorem doCancel_withdrawn {s : Impl} {req : RequestId} {reason : CancellationReason} {detail : String}
    (hok : (s.doCancel req reason detail).2 = .ok ()) :
    ∃ rec₀, s.requests.find req = some rec₀ ∧
      ∃ rec, (s.doCancel req reason detail).1.requests.find req = some rec ∧ Withdrawn rec₀ rec := by
  unfold Impl.doCancel at hok ⊢
  cases hf : s.requests.find req with
  | none => simp [hf] at hok
  | some rec =>
    obtain rfl : rec.requestId = req := Keyed.key_of_find hf
    simp only [hf] at hok ⊢
    refine ⟨rec, rfl, ?_⟩
    split at hok
    · cases hok
    next ht =>
    simp only [Bool.not_eq_true] at ht
    simp only [ht, Bool.false_eq_true, ↓reduceIte]
    have hcancel : ∀ w, ∃ rec',
        (s.finishCancelled { rec with cancelReason := reason } w "cancelled").core.requests.find
          rec.requestId = some rec' ∧ Withdrawn rec rec' := by
      intro w
      rw [(Impl.finishCancelled_enters reason w "cancelled" ht).core]
      exact Withdrawn.cancel s.core rec reason w "cancelled"
    split
    · exact hcancel rec.lastWorker
    · split
      · next hon =>
        exact ⟨{ rec with cancelReason := reason, cancellationRequested := true },
          Keyed.find_put_self s.requests _, .inr ⟨hon, rfl⟩, rfl, rfl⟩
      · exact hcancel .invalid

/-- **A successful cancel is final.** Whatever follows a cancel of `r` that
succeeded, `r` does not complete, is not queued again and has the attempts it
had. -/
theorem cancel_final {cfg : SchedulerConfig} {now : ClockTime} {salt : UInt64} {epoch : Option SchedulerEpoch}
    {before after : List Op} {r : RequestId} {reason : CancellationReason} {detail : String}
    (hfresh : scheduler.Allowed FreshSubmit (Impl.init cfg now salt epoch)
      (before ++ .cancel r reason detail :: after))
    (hok : ((scheduler.run (Impl.init cfg now salt epoch) before).doCancel r reason detail).2 = .ok ()) :
    ∃ rec₀ rec, (scheduler.run (Impl.init cfg now salt epoch) before).requests.find r = some rec₀ ∧
      (scheduler.run (Impl.init cfg now salt epoch) (before ++ .cancel r reason detail :: after)).requests.find r =
        some rec ∧
      rec.state ≠ .completed ∧ rec.state ≠ .queued ∧ rec.currentAttempt = rec₀.currentAttempt ∧
      rec.attempts = rec₀.attempts := by
  rw [allowed_append] at hfresh
  obtain ⟨rec₀, hf₀, hwd⟩ := doCancel_withdrawn hok
  obtain ⟨rec, hf, h⟩ := Withdrawn.run hfresh.2.2 hwd
  rw [run_append]
  refine ⟨rec₀, rec, hf₀, hf, ?_, ?_, h.attempt, h.attempts⟩
  · rcases h.ending with ⟨_, hne⟩ | ⟨hs | hs, _⟩
    · exact hne
    · simp [hs]
    · simp [hs]
  · rcases h.ending with ⟨ht, _⟩ | ⟨hs | hs, _⟩
    · intro hq
      rw [hq] at ht
      cases ht
    · simp [hs]
    · simp [hs]

/-- A worker with room for eight units, under boot 1. -/
def plainWorker (w : UInt64) : WorkerRegistration :=
  { worker := ⟨w⟩, bootId := ⟨1⟩, capability := { totalCapacityUnits := 8, availableCapacityUnits := 8 } }

/-- A report of worker `w` on request 7, when its generation and attempt are
the first two ids of a factory with salt 0x80000001. -/
def firstReport (w : UInt64) (status : CompletionStatus) : CompletionReport :=
  { worker := ⟨w⟩, bootId := ⟨1⟩, epoch := ⟨1⟩, requestId := ⟨7⟩, attemptId := ⟨0x8000000100000002⟩,
    generation := ⟨0x8000000100000001⟩, status := status, failureClass := .retryableWorker,
    workerSnapshot := { availableCapacityUnits := 8 } }

/-- A request cancelled while it runs, and a retryable failure reported for
it. -/
theorem cancel_final_running :
    let s := Impl.init {} 0 0x80000001 none
    let report := firstReport 3 .failed
    let before : List Op := [.registerWorker (plainWorker 3), .submit plainSpec (some ⟨7⟩),
      .planDispatch ⟨7⟩ false, .confirmStart report]
    ∃ rec₀ rec, (scheduler.run s before).requests.find ⟨7⟩ = some rec₀ ∧
      (scheduler.run s (before ++ .cancel ⟨7⟩ .clientRequested "" :: [.complete report])).requests.find ⟨7⟩ =
        some rec ∧
      rec.state ≠ .completed ∧ rec.state ≠ .queued ∧ rec.currentAttempt = rec₀.currentAttempt ∧
      rec.attempts = rec₀.attempts :=
  cancel_final (by decide +kernel) (by decide +kernel)

end InferenceScheduler
