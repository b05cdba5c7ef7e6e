/-
What a scheduler persists is consistent. `deserialize_locked` checks sizes and
nothing else (`overlooked_accepted`), so what it accepts is only as good as what
was written. What `serialize_locked` writes is good: the counter of admitted
requests is exact (`Conserved`), histories end in the current attempt (`Logged`),
and every code is that of an enumerator, if every value that operations bring is
one (`Coded`).
-/
import InferenceScheduler.Histories
import InferenceScheduler.TableIndex

namespace InferenceScheduler

open Binary Machine

/-! ## Codes in use -/

/-- The phases of a worker that an operation brings are enumerators. -/
def NamedPhases : Op → Prop
  | .registerWorker reg => ∀ p ∈ reg.capability.phases, Named 3 (phaseInt p)
  | .updateCapability _ cap => ∀ p ∈ cap.phases, Named 3 (phaseInt p)
  | _ => True

instance (op : Op) : Decidable (NamedPhases op) := by
  apply @Op.casesOn _ op <;> (intros; dsimp only [NamedPhases]; infer_instance)

/-- The final statuses and the phases that are stored are enumerators. -/
structure Core.Coded (c : Core) : Prop where
  status : ∀ r rec, c.requests.find r = some rec → ∀ a ∈ rec.history, Named 6 (statusInt a.finalStatus)
  phase : ∀ w wr, c.pool.workers.find w = some wr → ∀ p ∈ wr.registration.capability.phases, Named 3 (phaseInt p)

theorem forall_mem_onLast {P : AttemptRecord → Prop} {f : AttemptRecord → AttemptRecord} (hf : ∀ a, P a → P (f a)) :
    ∀ {l : List AttemptRecord}, (∀ a ∈ l, P a) → ∀ a ∈ onLast f l, P a
  | [], h => h
  | [a], h => by simpa [onLast] using hf a (h a List.mem_cons_self)
  | a :: b :: l, h => by
    rw [onLast, List.forall_mem_cons]
    exact ⟨h a List.mem_cons_self, forall_mem_onLast hf fun x hx => h x (List.mem_cons_of_mem a hx)⟩

/-- An attempt ends as a success, a failure or a cancellation. -/
theorem Writes.status {c : Core} {m : Move} {rec rec' : RequestRecord} (hw : Writes c m rec rec')
    (h : ∀ a ∈ rec.history, Named 6 (statusInt a.finalStatus)) :
    ∀ a ∈ rec'.history, Named 6 (statusInt a.finalStatus) := by
  rcases hw.history with ⟨f, hf⟩ | ⟨_, _, _, _, f, new, hf⟩
  · rw [hf.history]
    refine forall_mem_onLast (fun a ha => ?_) h
    have hstatus := hf.status a
    simp only [List.mem_cons, List.not_mem_nil, or_false] at hstatus
    rcases hstatus with hs | hs | hs | hs <;> rw [hs]
    · exact ha
    all_goals decide
  · rw [hf.history, List.forall_mem_append, List.forall_mem_singleton, hf.status.1]
    refine ⟨forall_mem_onLast (fun a _ => ?_) h, by decide⟩
    rw [hf.status.2]
    decide

/-- A worker's phases come from an operation. -/
theorem phases_of_setWorker {s : Impl} {op : Op} {c : Core} {wr : WorkerRecord} (h : c.Coded) (hop : NamedPhases op)
    (hdoes : Does s op c (.setWorker wr)) : ∀ p ∈ wr.registration.capability.phases, Named 3 (phaseInt p) := by
  cases hdoes with
  | reregister | register | capability => exact hop
  | @workerState w _ _ old hold => exact h.phase w old hold

theorem Core.Coded.act {s : Impl} {op : Op} {c : Core} {m : Move} (h : c.Coded) (hop : NamedPhases op)
    (hstep : Step s op c m) : (c.act m).Coded := by
  obtain ⟨hen, hdoes⟩ := hstep
  refine ⟨fun r rec' hf' => ?_, fun w wr' hf' => ?_⟩
  · rcases Core.find_act hen hf' with hs | ⟨rec, hf, rfl | hw⟩
    · cases hs with
      | refuse => simp [hen.2.2.2.2]
      | accept =>
        rw [Impl.admittedRecord, List.forall_mem_singleton]
        exact (by decide : Named 6 (statusInt .succeeded))
    · exact h.status r rec' hf
    · exact hw.status (h.status r rec hf)
  · rcases Core.find_worker_act hen hf' with ⟨_, rfl, _⟩ | ⟨wr, hf, rfl | hu⟩
    · exact phases_of_setWorker h hop hdoes
    · exact h.phase w wr' hf
    · have hold := h.phase w wr hf
      cases hu with
      | reserve | start | sweep => exact hold
      | finish | cancel | retry =>
        rw [WorkerRecord.leave_registration]
        exact hold
      | set => exact phases_of_setWorker h hop hdoes

/-! ## Images -/

theorem named_codeOf {α : Type} [DecidableEq α] {all : List α} {a : α} (h : a ∈ all) :
    Named all.length (codeOf all a) :=
  ⟨Int.natCast_nonneg _, Int.ofNat_lt.2 (List.idxOf_lt_length_of_mem h)⟩

theorem RequestRecord.live_save (rec : RequestRecord) (now : ClockTime) : (rec.save now).live = rec.live := by
  rw [SavedRequest.live, RequestRecord.save, ofCode_codeOf (RequestState.mem_all _), live]

/-- What an image is consistent for. -/
structure Impl.Recorded (cfg : SchedulerConfig) (s : Impl) : Prop where
  conserved : Conserved s.book
  logged : s.core.Logged cfg
  coded : s.core.Coded
  named : s.AllNamed

namespace Impl.Recorded

variable {cfg : SchedulerConfig} {s : Impl}

theorem coded_save (h : s.Recorded cfg) {rec : RequestRecord} {r : RequestId} (hf : s.requests.find r = some rec) :
    (rec.save s.now).Coded := by
  obtain ⟨hlatency, hpriority, hphase⟩ := h.named r rec hf
  refine ⟨named_codeOf (RequestState.mem_all _), named_codeOf (CancellationReason.mem_all _), phase_named_iff.1 hphase,
    priority_named_iff.1 hpriority, latencyClass_named_iff.1 hlatency, fun a ha => ?_⟩
  obtain ⟨att, hatt, rfl⟩ := List.mem_map.1 ha
  exact ⟨named_codeOf (AttemptState.mem_all _), h.coded.status r rec hf att hatt, named_codeOf (FailureClass.mem_all _)⟩

/-- The image of a live request has its history. -/
theorem attached_save (h : s.Recorded cfg) {rec : RequestRecord} {r : RequestId} (hf : s.requests.find r = some rec)
    (hlive : rec.live = true) : (rec.save s.now).Attached := by
  obtain ⟨earlier, last, ht⟩ := (h.logged.records r rec hf).traced_of_live (by simpa [RequestRecord.live] using hlive)
  refine ⟨last.save, ?_, ht.attempt, ht.generation⟩
  show (rec.history.map (·.save)).getLast? = _
  rw [ht.history, List.map_append, List.map_singleton, List.getLast?_concat]

theorem consistent_save (h : s.Recorded cfg) : s.save.Consistent := by
  have hfind : ∀ {rec}, rec ∈ s.requests.records → s.requests.find rec.requestId = some rec := Keyed.mem_records.1
  refine ⟨?_, ?_, ?_, fun r hr => ?_, fun w hw => ?_, fun r hr hlive => ?_, ?_⟩
  · simpa [Impl.save, Function.comp_def, RequestRecord.save] using s.requests.nodup_records
  · simpa [Impl.save, Function.comp_def, TenantRecord.save] using s.tenants.nodup_records
  · have hnodup := s.pool.workers.nodup_records
    simp only [Impl.save, List.map_map]
    exact hnodup
  · obtain ⟨rec, hmem, rfl⟩ := List.mem_map.1 hr
    exact h.coded_save (hfind hmem)
  · obtain ⟨wr, hmem, rfl⟩ := List.mem_map.1 hw
    refine ⟨named_codeOf (WorkerState.mem_all _), fun p hp => ?_⟩
    obtain ⟨phase, hphase, rfl⟩ := List.mem_map.1 hp
    exact h.coded.phase wr.id wr (Keyed.mem_records.1 hmem) phase hphase
  · obtain ⟨rec, hmem, rfl⟩ := List.mem_map.1 hr
    exact h.attached_save (hfind hmem) (by rwa [rec.live_save] at hlive)
  · show s.globalAdmitted = ((s.requests.records.map (·.save s.now)).countP (·.live) : ℕ)
    rw [List.countP_map, show s.globalAdmitted = _ from h.conserved.global]
    simp only [Function.comp_def, RequestRecord.live_save]
    rfl

end Impl.Recorded

/-- A run with fresh ids that brings enumerators only. -/
theorem recorded_run {cfg : SchedulerConfig} {now : ClockTime} {salt : UInt64} {epoch : Option SchedulerEpoch}
    {ops : List Op} (hok : scheduler.Allowed (fun s op => FreshSubmit s op ∧ Impl.NamedSubmit s op ∧ NamedPhases op)
      (Impl.init cfg now salt epoch) ops) : (scheduler.run (Impl.init cfg now salt epoch) ops).Recorded cfg := by
  refine run_invariant (I := Impl.Recorded cfg) (fun s op hop h => ?_) ?_ hok
  · obtain ⟨hfresh, hnamed, hphases⟩ := hop
    exact
      { conserved := posts_invariant (fun _ _ he hb => hb.act hfresh he) h.conserved
        logged := (step_leads hfresh).invariant (m := moves) (fun _ _ hm hc => hc.act hm.1) h.logged
        coded := (step_leads hfresh).invariant (m := moves) (fun _ _ hm hc => hc.act hphases hm) h.coded
        named := h.named.next hnamed }
  · refine ⟨.init cfg now salt epoch, ⟨rfl, ?_⟩, ⟨?_, ?_⟩, ?_⟩
    all_goals exact fun _ _ hf => nomatch hf

end InferenceScheduler
