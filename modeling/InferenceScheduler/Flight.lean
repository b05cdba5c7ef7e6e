/-
The requests in flight. A worker lists a request when it starts there, under
the attempt that then names the worker, and stops listing it when the request
is released through that worker. What is still listed after the request went
on elsewhere would be retried a second time when the worker is lost.
-/
import InferenceScheduler.Records

namespace InferenceScheduler

theorem getLast?_onLast (f : AttemptRecord → AttemptRecord) :
    ∀ l : List AttemptRecord, (onLast f l).getLast? = l.getLast?.map f
  | [] => rfl
  | [_] => rfl
  | a :: b :: l => by
    have h := getLast?_onLast f (b :: l)
    obtain ⟨x, l', hl⟩ : ∃ x l', onLast f (b :: l) = x :: l' := by
      cases l with
      | nil => exact ⟨f b, [], rfl⟩
      | cons d l => exact ⟨b, onLast f (d :: l), rfl⟩
    rw [onLast, hl, List.getLast?_cons_cons, ← hl, h, List.getLast?_cons_cons]

theorem onLast_ne_nil {f : AttemptRecord → AttemptRecord} {l : List AttemptRecord} (h : l ≠ []) :
    onLast f l ≠ [] := by
  intro he
  have hl := getLast?_onLast f l
  rw [he, List.getLast?_eq_some_getLast h] at hl
  cases hl

/-- A start names the worker. -/
theorem lastWorker_start {rec : RequestRecord} (h : rec.history ≠ []) (w : WorkerId) (now : ClockTime) :
    (rec.start w now).lastWorker = w := by
  simp only [RequestRecord.lastWorker, RequestRecord.start, getLast?_onLast, List.getLast?_eq_some_getLast h]
  rfl

/-- An attempt noted without its worker. -/
theorem lastWorker_onLast {f : AttemptRecord → AttemptRecord} {rec rec' : RequestRecord}
    (h : rec'.history = onLast f rec.history) (hf : ∀ a, (f a).worker = a.worker) :
    rec'.lastWorker = rec.lastWorker := by
  simp only [RequestRecord.lastWorker, h, getLast?_onLast]
  cases rec.history.getLast? with
  | none => rfl
  | some a => exact hf a

/-- A request that ended, or that runs on the worker its attempt names. -/
def RequestRecord.RunsOn (rec : RequestRecord) (w : WorkerId) : Prop :=
  isTerminal rec.state = true ∨ rec.state = .running ∧ rec.lastWorker = w

structure Flighted (c : Core) : Prop where
  flight : ∀ w wr, c.pool.workers.find w = some wr → ∀ r ∈ wr.inFlight,
    ∃ rec, c.requests.find r = some rec ∧ rec.RunsOn w
  attempts : ∀ r rec, c.requests.find r = some rec → isTerminal rec.state = true ∨ rec.history ≠ []

/-- A running request is retried on the word of the worker it runs on. -/
def FromRunner : Move → Prop
  | .retry rec r => rec.state = .running → rec.lastWorker = r.worker
  | _ => True

/-- A worker lists no request it did not list, but the one it starts. -/
theorem Updates.inFlight {c : Core} {m : Move} {wr wr' : WorkerRecord} {r : RequestId} (hu : Updates c m wr wr')
    (hr : r ∈ wr'.inFlight) : r ∈ wr.inFlight ∨ ∃ rec snap, m = .start rec wr snap ∧ r = rec.requestId := by
  cases hu with
  | reserve => exact .inl hr
  | @start rec _ snap => exact ((AList.mem_insert _).1 hr).symm.imp_right fun h => ⟨rec, snap, rfl, h⟩
  | finish | cancel | retry =>
    rw [WorkerRecord.leave_inFlight] at hr
    exact .inl (AList.mem_erase.1 hr).2
  | sweep => exact absurd hr (AList.notMem_empty r)
  | set _ hs => exact .inl (hs.2.2.2.2.2.2 ▸ hr)

/-- A request that runs on a worker goes on doing so, or it is retried. -/
theorem Writes.runsOn {c : Core} {m : Move} {rec rec' : RequestRecord} {w : WorkerId} (hw : Writes c m rec rec')
    (hen : Enabled c m) (hf : c.Holds rec) (h : rec.RunsOn w) :
    rec'.RunsOn w ∨ ∃ r, m = .retry rec r ∧ rec.state = .running ∧ rec.lastWorker = w := by
  cases hw with
  | expire => exact .inl (.inl rfl)
  | reserve hmem =>
    obtain ⟨rec₀, hf₀, hs⟩ := hen.2.2.2.2 _ hmem
    obtain rfl : rec = rec₀ := Option.some.inj (hf.symm.trans hf₀)
    rcases h with h | h <;> rcases hs with hs | hs <;> simp [hs, isTerminal] at h
  | start => rcases h with h | h <;> simp [hen.2.1, isTerminal] at h
  | @finish _ w' e =>
    left
    cases e with
    | success => exact .inl (by simp [Ending.close, Ending.note, RequestRecord.succeed, isTerminal])
    | failed | expired => exact .inl rfl
    | stale =>
      rcases h with ht | hr
      · exact .inl (by simpa [Ending.close, Ending.note, RequestRecord.noteStale] using ht)
      · refine .inr ⟨by simpa [Ending.close, Ending.note, RequestRecord.noteStale] using hr.1, ?_⟩
        rw [← hr.2]
        exact lastWorker_onLast (congrArg (onLast _) (c.pool.released_history w' rec)) fun _ => rfl
  | cancel => exact .inl (.inl rfl)
  | flag => exact .inl h
  | @retry _ r =>
    rcases h with h | h
    · rw [hen.2.1] at h
      cases h
    · exact .inr ⟨r, rfl, h⟩

theorem Flighted.init (cfg : SchedulerConfig) (now : ClockTime) (salt : UInt64) (epoch : Option SchedulerEpoch) :
    Flighted (Impl.init cfg now salt epoch).core := ⟨by simp [Impl.core, Impl.init], by simp [Impl.core, Impl.init]⟩

theorem Flighted.act {c : Core} {m : Move} (h : Flighted c) (hen : Enabled c m) (hm : FromRunner m) :
    Flighted (c.act m) := by
  refine ⟨fun w wr' hf' r hr => ?_, fun r rec' hf' => ?_⟩
  · rcases Core.find_worker_act hen hf' with ⟨_, _, hs⟩ | ⟨wr, hf, hu⟩
    · rw [hs.2.2.2.2.2.2] at hr
      exact absurd hr (AList.notMem_empty r)
    have hmem : r ∈ wr.inFlight ∨ ∃ rec snap, m = .start rec wr snap ∧ r = rec.requestId := by
      rcases hu with rfl | hu
      · exact .inl hr
      · exact hu.inFlight hr
    rcases hmem with hmem | ⟨rec, snap, rfl, rfl⟩
    · obtain ⟨rec, hrec, hon⟩ := h.flight w wr hf r hmem
      obtain ⟨rec', hrec', rfl | hw⟩ := Core.act_find hen hrec
      · exact ⟨rec', hrec', hon⟩
      rcases hw.runsOn hen (Keyed.find_key hrec) hon with hon | ⟨rep, rfl, hs, hl⟩
      · exact ⟨rec', hrec', hon⟩
      · -- The worker that had it retried no longer lists it.
        have hw : rep.worker = w := (hm hs).symm.trans hl
        have hid : rec.requestId = r := Keyed.key_of_find hrec
        have hrel := (c.pool.find_releaseMember rep.worker rec w).symm.trans hf'
        rw [if_pos hw, hf, Option.map_some, Option.some.injEq] at hrel
        rw [← hrel, WorkerRecord.leave_inFlight] at hr
        exact absurd hid.symm (AList.mem_erase.1 hr).1
    · have hid : wr.id = w := Keyed.key_of_find hf
      refine ⟨_, Core.find_of_writes .start hen hen.1, .inr ⟨rfl, ?_⟩⟩
      rcases h.attempts _ rec hen.1 with ht | hne
      · simp [hen.2.1, isTerminal] at ht
      · rw [lastWorker_start hne, hid]
  · rcases Core.find_act hen hf' with hs | ⟨rec, hf, rfl | hw⟩
    · cases hs with
      | refuse => exact .inl hen.2.1
      | accept => exact .inr (by simp [Impl.admittedRecord])
    · exact h.attempts r rec' hf
    · have hold := h.attempts r rec hf
      cases hw with
      | expire | cancel => exact .inl rfl
      | reserve hmem =>
        obtain ⟨rec₀, hf₀, hs⟩ := hen.2.2.2.2 _ hmem
        obtain rfl : rec = rec₀ := Option.some.inj ((Keyed.find_key hf).symm.trans hf₀)
        refine .inr (onLast_ne_nil (hold.resolve_left ?_))
        rcases hs with hs | hs <;> simp [hs, isTerminal]
      | start => exact .inr (onLast_ne_nil (hold.resolve_left (by simp [hen.2.1, isTerminal])))
      | flag => exact hold
      | @finish _ w e =>
        have hne := hold.resolve_left (by simp [hen.2.1])
        cases e with
        | success => exact .inl (by simp [Ending.close, Ending.note, RequestRecord.succeed, isTerminal])
        | failed | expired => exact .inl rfl
        | stale =>
          refine .inr (onLast_ne_nil ?_)
          simpa [Ending.note] using hne
      | retry => exact .inr (by simp [RequestRecord.retry])

end InferenceScheduler
