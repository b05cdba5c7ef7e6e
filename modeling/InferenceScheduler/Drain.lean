/-
Draining (`src/scheduler.cpp`, `do_begin_drain`): once it has begun nothing is
admitted any more, and the requests that are unfinished can only become fewer.
-/
import InferenceScheduler.Frozen
import InferenceScheduler.Journal

namespace InferenceScheduler

/-- A request that is stored and has not ended. -/
def Core.Unfinished (c : Core) (r : RequestId) : Prop :=
  ∃ rec, c.requests.find r = some rec ∧ isTerminal rec.state = false

/-- Only an acceptance makes a request unfinished. -/
theorem Core.Unfinished.of_act {c : Core} {m : Move} {r : RequestId} (h : (c.act m).Unfinished r) (hen : Enabled c m)
    (hm : ∀ spec rid, m ≠ .accept spec rid) : c.Unfinished r := by
  obtain ⟨rec', hf', hlive⟩ := h
  rcases Core.find_act hen hf' with hs | ⟨rec, hf, rfl | hw⟩
  · cases hs with
    | refuse =>
      rw [hen.2.1] at hlive
      cases hlive
    | accept => exact absurd rfl (hm _ _)
  · exact ⟨rec', hf, hlive⟩
  · exact ⟨rec, hf, hw.not_terminal hen (Keyed.find_key hf)⟩

namespace Impl

variable {s : Impl}

theorem makeAdmission_draining (h : s.draining = true) (spec : RequestSpec) (now : ClockTime) :
    s.makeAdmission spec now = (.reject, "scheduler_draining") := by rw [makeAdmission, if_pos h]

theorem unfinished_next {op : Op} (h : s.draining = true) (hfresh : FreshSubmit s op) {r : RequestId} :
    (scheduler.next s op).core.Unfinished r → s.core.Unfinished r := by
  refine posts_invariant (I := fun b => b.core.Unfinished r → s.core.Unfinished r) (fun b e he hb => ?_) fun h => h
  cases e with
  | move m =>
    refine fun hr => hb (Core.Unfinished.of_act (b.move_core m ▸ hr) he.1.1 ?_)
    rintro spec rid rfl
    -- The acceptance would have been decided by `make_admission`.
    have hadmitted := he.2.2.1
    rw [makeAdmission_draining h] at hadmitted
    cases hadmitted
  | turnAway | settle => exact hb
  | dismiss => exact absurd hfresh he
  | again => exact absurd hfresh he.1

end Impl

/-- **A drain only finishes requests.** After `begin_drain`, whatever is called:
every request that is unfinished was unfinished when the drain began, and every
submission that passes the checks on its spec is answered, and rejected as one to
a draining scheduler. -/
theorem drain_only_finishes {s : Impl} (hdrain : s.draining = true) {ops : List Op}
    (hok : scheduler.Allowed FreshSubmit s ops) :
    (∀ r, (scheduler.run s ops).core.Unfinished r → s.core.Unfinished r) ∧
      ∀ spec pre,
        (validateSpec spec = .ok () → ∃ out, ((scheduler.run s ops).doSubmit spec pre).2 = .ok out) ∧
          ∀ out, ((scheduler.run s ops).doSubmit spec pre).2 = .ok out →
            out.decision = .reject ∧ out.reasonCode = "scheduler_draining" := by
  obtain ⟨ht, hrun⟩ :=
    scheduler.run_invariant (I := fun t => t.draining = true ∧ ∀ r, t.core.Unfinished r → s.core.Unfinished r)
      (fun t op hfresh h =>
        ⟨Impl.step_draining op h.1, fun r hr => h.2 r (Impl.unfinished_next h.1 hfresh hr)⟩)
      ⟨hdrain, fun _ h => h⟩ hok
  refine ⟨hrun, fun spec pre => ⟨fun hv => ?_, fun out hout => ?_⟩⟩
  · rw [Impl.doSubmit_of_valid _ pre hv]
    exact ⟨_, rfl⟩
  cases hv : validateSpec spec with
  | error e => simp [Impl.doSubmit, hv] at hout
  | ok u =>
    rw [Impl.doSubmit_of_valid _ pre hv, Impl.submitAs, (Impl.named_frame _ pre).2.2 spec,
      Impl.makeAdmission_draining ht] at hout
    cases hout
    exact ⟨rfl, rfl⟩

/-- A request that is dispatched after the drain has begun, and others that come
too late. -/
theorem drain_only_finishes_one :
    let s := scheduler.run (Impl.init {} 0 0x80000001 none)
      [.registerWorker (plainWorker 1), .submit plainSpec (some ⟨7⟩), .beginDrain "upgrade"]
    let t := scheduler.run s [.submit plainSpec (some ⟨8⟩), .planDispatch ⟨7⟩ false]
    ((t.requests.find ⟨7⟩).map (·.state) = some .reserved ∧ (t.requests.find ⟨8⟩).map (·.state) = some .rejected) ∧
      (∀ r, t.core.Unfinished r → s.core.Unfinished r) ∧
      ∃ out, (t.doSubmit plainSpec none).2 = .ok out ∧ out.reasonCode = "scheduler_draining" := by
  intro s t
  obtain ⟨hrun, hsubmit⟩ := drain_only_finishes (s := s) (by decide +kernel)
    (by decide +kernel : scheduler.Allowed FreshSubmit s [.submit plainSpec (some ⟨8⟩), .planDispatch ⟨7⟩ false])
  obtain ⟨hanswer, hreject⟩ := hsubmit plainSpec none
  obtain ⟨out, hout⟩ := hanswer (by decide)
  exact ⟨by decide +kernel, hrun, out, hout, (hreject out hout).2⟩

end InferenceScheduler
