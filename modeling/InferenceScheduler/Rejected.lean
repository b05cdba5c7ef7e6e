/-
Reports that the scheduler turns down. Every refusal of `confirm_dispatch_start`
and all but one of `complete_attempt` come before anything is written, so the
state is as before, but for the count of stale reports. The one that is not: a
report on a live attempt whose status is `Stale` is answered as a stale attempt
after the request has been taken out of its batch.
-/
import InferenceScheduler.Simulation
import InferenceScheduler.Frozen

namespace InferenceScheduler

/-- The answers of `complete_attempt` that turn a report down. -/
def CompletionAcceptance.turnsDown : CompletionAcceptance → Bool
  | .staleEpoch | .staleWorker | .staleAttempt | .duplicate | .invalid => true
  | .accepted | .cancelledOutcome => false

namespace Impl

/-- The state without `stats_.stale_rejected`. -/
def uncounted (s : Impl) : Impl := { s with stats := { s.stats with staleRejected := 0 } }

theorem uncounted_countStale (s : Impl) : s.countStale.uncounted = s.uncounted := rfl

/-- A report that passes every check on a request that has not ended, and calls
its attempt stale. -/
def CalledStale (s : Impl) (r : CompletionReport) : Prop :=
  r.status = .stale ∧ ∃ rec, s.core.Holds rec ∧ Matches s r rec ∧ isTerminal rec.state = false ∧
    rec.cancellationCommitted = false

variable {s : Impl} {r : CompletionReport}

/-- A start that is not confirmed leaves the state alone. -/
theorem doConfirmStart_error {e : Error} (h : (s.doConfirmStart r).2 = .error e) : (s.doConfirmStart r).1 = s := by
  rcases s.doConfirmStart_cases r with ⟨hsame, _⟩ | ⟨rec, wr, _, _, _, _, hconfirmed⟩
  · exact hsame
  · cases h.symm.trans hconfirmed

/-- Of the reports that are concluded, only those that call the attempt stale are
turned down. -/
theorem conclude_turnsDown {rec : RequestRecord} (hn : r.status.hasName = true)
    (h : (s.conclude rec r).2.acceptance.turnsDown = true) : r.status = .stale := by
  unfold conclude at h
  split at h
  · split at h <;> cases h
  · cases h
  · cases h
  · assumption
  · split at h <;> cases h
  · split at h <;> cases h
  · next hs =>
    rw [hs] at hn
    cases hn

/-- A completion that is turned down is counted at most, unless it calls a live
attempt stale. -/
theorem doComplete_uncounted (h : (s.doComplete r).2.acceptance.turnsDown = true) (hstale : ¬s.CalledStale r) :
    (s.doComplete r).1.uncounted = s.uncounted := by
  rcases s.doComplete_cases r with ⟨hkept, _⟩ | ⟨rec, hrec, hm, ht, hn, hcommitted, he⟩
  · rcases hkept with hsame | hcounted
    · rw [hsame]
    · rw [hcounted]
      exact uncounted_countStale s
  · rw [he] at h
    exact absurd ⟨conclude_turnsDown hn h, rec, hrec, hm, ht, hcommitted⟩ hstale

end Impl

/-- **Rejected reports change nothing.** In every state and for every report: a
start that is refused leaves the state as it was, and so does a completion that
is turned down, but for `stats_.stale_rejected`, unless the report calls the live
attempt of a request stale. -/
theorem rejected_unchanged (s : Impl) (r : CompletionReport) :
    (∀ e, (s.doConfirmStart r).2 = .error e → (s.doConfirmStart r).1 = s) ∧
      (¬s.CalledStale r → (s.doComplete r).2.acceptance.turnsDown = true →
        (s.doComplete r).1.uncounted = s.uncounted) :=
  ⟨fun _ => Impl.doConfirmStart_error, fun hstale h => Impl.doComplete_uncounted h hstale⟩

/-- A start reported twice, and a completion under an old epoch. -/
theorem rejected_unchanged_running :
    let s := scheduler.run (Impl.init {} 0 0x80000001 none)
      [.registerWorker (plainWorker 3), .submit plainSpec (some ⟨7⟩), .planDispatch ⟨7⟩ false,
        .confirmStart (firstReport 3 .succeeded), .rollEpoch]
    (s.doConfirmStart (firstReport 3 .succeeded)).1 = s ∧
      (s.doComplete (firstReport 3 .succeeded)).1.uncounted = s.uncounted := by
  intro s
  refine ⟨?_, ?_⟩
  · exact (rejected_unchanged s (firstReport 3 .succeeded)).1 ⟨.staleEpoch, "stale epoch"⟩ (by decide +kernel)
  · exact (rejected_unchanged s (firstReport 3 .succeeded)).2 (fun h => nomatch h.1) (by decide +kernel)

/-- A worker that calls its running attempt stale is answered as the reporter of a
stale attempt, and the request is no longer on the worker. -/
theorem stale_report_releases :
    let s := scheduler.run (Impl.init {} 0 0x80000001 none)
      [.registerWorker (plainWorker 3), .submit plainSpec (some ⟨7⟩), .planDispatch ⟨7⟩ false,
        .confirmStart (firstReport 3 .stale)]
    (s.doComplete (firstReport 3 .stale)).2.acceptance = .staleAttempt ∧
      (s.doComplete (firstReport 3 .stale)).1.uncounted ≠ s.uncounted ∧
      s.pool.globalRunningUnits = 1 ∧ (s.doComplete (firstReport 3 .stale)).1.pool.globalRunningUnits = 0 := by
  intro s
  have hbefore : s.uncounted.pool.globalRunningUnits = 1 := by decide +kernel
  have hafter : (s.doComplete (firstReport 3 .stale)).1.uncounted.pool.globalRunningUnits = 0 := by decide +kernel
  refine ⟨by decide +kernel, fun h => ?_, hbefore, hafter⟩
  rw [h, hbefore] at hafter
  cases hafter

/-- Reports that are turned down, none of which calls a live attempt stale. -/
def Impl.Refuses (s : Impl) : Op → Prop
  | .confirmStart r => (s.doConfirmStart r).2 ≠ .ok ()
  | .complete r => ¬s.CalledStale r ∧ (s.doComplete r).2.acceptance.turnsDown = true
  | _ => False

/-- However many of them arrive, one after the other, the state stays as it was. -/
theorem refused_run {s : Impl} {ops : List Op} (hok : scheduler.Allowed Impl.Refuses s ops) :
    (scheduler.run s ops).uncounted = s.uncounted := by
  refine scheduler.run_invariant (I := fun t => t.uncounted = s.uncounted) (fun t op hop ht => ?_) rfl hok
  rw [← ht]
  cases op with
  | confirmStart r =>
    cases hans : (t.doConfirmStart r).2 with
    | ok u => exact absurd hans hop
    | error e => exact congrArg Impl.uncounted (Impl.doConfirmStart_error hans)
  | complete r => exact Impl.doComplete_uncounted hop.2 hop.1
  | _ => exact hop.elim

end InferenceScheduler
