/-
Which submissions are admitted, compared across deadlines and costs. A cheaper
submission is admitted wherever a dearer one is. A later deadline is not
always as good as an earlier one: the feasibility test leaves out deadlines
less than a millisecond away, so a request that would be refused two
milliseconds before its deadline is admitted half a millisecond before it.
-/
import InferenceScheduler.Recovery
import InferenceScheduler.Resubmit

namespace InferenceScheduler

/-! ## Deadlines -/

namespace Deadline

/-- `d'` is no deadline at all, or one that is not before `d`. -/
def notBefore (d d' : Deadline) : Bool := d'.point.all fun p' => d.point.any fun p => p ≤ p'

variable {d d' : Deadline}

theorem notBefore_points {p' : ClockTime} (h : d.notBefore d' = true) (hp' : d'.point = some p') :
    ∃ p, d.point = some p ∧ p ≤ p' := by
  unfold notBefore at h
  rw [hp', Option.all_some] at h
  obtain ⟨p, hp, hle⟩ := (Option.any_eq_true _ _).1 h
  exact ⟨p, hp, of_decide_eq_true hle⟩

theorem expired_of_notBefore {now : ClockTime} (h : d.notBefore d' = true) (hx : d'.expired now = true) :
    d.expired now = true := by
  unfold expired at hx ⊢
  split at hx
  · cases hx
  · next p' hp' =>
    obtain ⟨p, hp, hle⟩ := notBefore_points h hp'
    rw [hp]
    exact decide_eq_true (hle.trans (of_decide_eq_true hx))

theorem remaining_of_notBefore (now : ClockTime) (h : d.notBefore d' = true) (hv : d'.valid = true) :
    d.valid = true ∧ d.remaining now ≤ d'.remaining now := by
  have hspan : ∀ a b n : ℤ, a ≤ b → ¬a - n < 0 → ¬b - n < 0 ∧ (a - n).tdiv 1000000 ≤ (b - n).tdiv 1000000 := by
    intro a b n hle hpos
    rw [Int.tdiv_eq_ediv_of_nonneg (by omega), Int.tdiv_eq_ediv_of_nonneg (by omega)]
    omega
  obtain ⟨p', hp'⟩ := Option.isSome_iff_exists.1 hv
  obtain ⟨p, hp, hle⟩ := notBefore_points h hp'
  refine ⟨by rw [valid, hp]; rfl, ?_⟩
  by_cases hpast : p - now < 0
  · have hzero : d.remaining now = 0 := by simp only [remaining, hp, if_pos hpast]
    rw [hzero]
    exact remaining_nonneg hv now
  · obtain ⟨hpast', hms⟩ := hspan p p' now hle hpast
    simp only [remaining, hp, hp', if_neg hpast, if_neg hpast', toMs]
    exact hms

end Deadline

/-! ## What is admitted -/

section admits

variable {s : Impl} {spec : RequestSpec}

/-- `submit` answers `Admit`. -/
def Impl.admits (s : Impl) (spec : RequestSpec) (pre : Option RequestId) : Bool :=
  (s.doSubmit spec pre).2.toOption.any (·.decision = .admitted)

theorem submitAs_decision (rid : RequestId) : (s.submitAs spec rid).2.decision = .admitted ↔ Admissible s spec := by
  have hiff := makeAdmission_admitted_iff s spec
  unfold Impl.submitAs
  split
  · next reason hm =>
    have hadm : Admissible s spec := hiff.1 (by rw [hm])
    refine iff_of_true ?_ hadm
    unfold Impl.admitAs
    simp only
    rw [if_neg hadm.inTime]
    rfl
  · next reason hm =>
    rw [← hiff, hm]
    exact iff_of_false nofun nofun
  · next reason hm =>
    rw [← hiff, hm]
    exact iff_of_false nofun nofun

/-- A submission is admitted when its specification is valid and the state
admits it, whether or not the caller brings an id. -/
theorem admits_iff (pre : Option RequestId) :
    s.admits spec pre = true ↔ validateSpec spec = .ok () ∧ Admissible s spec := by
  unfold Impl.admits Impl.doSubmit
  split
  · next e he =>
    rw [he]
    exact iff_of_false nofun nofun
  · next he =>
    simp only [he, true_and]
    rw [← makeAdmission_admitted_iff]
    cases pre with
    | some rid => simpa [Except.toOption, makeAdmission_admitted_iff] using submitAs_decision rid
    | none =>
      have hdraw : s.drawId.makeAdmission spec s.drawId.now = s.makeAdmission spec s.now := rfl
      rw [← hdraw, makeAdmission_admitted_iff]
      simpa [Except.toOption] using submitAs_decision (s := s.drawId) s.idFactory.peek

theorem validateSpec_costUnits {c c' : ℚ} (hc : 0 ≤ c')
    (h : validateSpec { spec with demand := { spec.demand with costUnits := c } } = .ok ()) :
    validateSpec { spec with demand := { spec.demand with costUnits := c' } } = .ok () := by
  obtain ⟨htenant, hmodel, htokens, -, hmemory, hbatch⟩ := validateSpec_ok_iff.1 h
  exact validateSpec_ok_iff.2 ⟨htenant, hmodel, htokens, hc, hmemory, hbatch⟩

/-- A cost that `ceil_cost` can cast. From 2^63 on the cast is undefined, and the
machine makes a negative cost of it, which every deadline leaves time for. -/
def Castable (c : ℚ) : Prop := ceilCost c ≤ i64Max

/-- A deadline less than a millisecond away, which the feasibility test leaves
out, for a request that costs more than a millisecond. -/
def Impl.SkipsTest (s : Impl) (spec : RequestSpec) (d : Deadline) : Prop :=
  s.cfg.admission.enforceDeadlineFeasibility = true ∧ d.valid = true ∧ d.remaining s.now = 0 ∧
    1 < ceilCost spec.demand.costUnits

theorem Admissible.later {d d' : Deadline} (hd : d.notBefore d' = true) (hskip : ¬s.SkipsTest spec d)
    (h : Admissible s { spec with deadline := d }) : Admissible s { spec with deadline := d' } where
  serving := h.serving
  inTime := by
    intro hx
    obtain ⟨hv', hx⟩ := (Bool.and_eq_true _ _).mp hx
    refine h.inTime ((Bool.and_eq_true _ _).mpr ⟨?_, Deadline.expired_of_notBefore hd hx⟩)
    exact (Deadline.remaining_of_notBefore s.now hd hv').1
  feasible := by
    intro hon hv'
    obtain ⟨hv, hle⟩ := Deadline.remaining_of_notBefore s.now hd hv'
    obtain ⟨hnonneg, hfits⟩ := h.feasible hon hv
    refine ⟨hnonneg.trans hle, fun hpos' => ?_⟩
    -- The test on `d` either spoke of a shorter time, or was left out.
    rcases hnonneg.lt_or_eq with hpos | hzero
    · exact (hfits hpos).trans hle
    · have hcheap : ceilCost spec.demand.costUnits ≤ 1 := not_lt.1 fun hcost => hskip ⟨hon, hv, hzero.symm, hcost⟩
      exact hcheap.trans hpos'
  admittedRoom := h.admittedRoom
  queuedRoom := h.queuedRoom
  tokenRoom := h.tokenRoom
  tenantRoom := h.tenantRoom
  worker := h.worker

theorem Admissible.cheaper {c c' : ℚ} (hc : c' ≤ c)
    (h : Admissible s { spec with demand := { spec.demand with costUnits := c } }) :
    Admissible s { spec with demand := { spec.demand with costUnits := c' } } where
  serving := h.serving
  inTime := h.inTime
  feasible hon hv := by
    obtain ⟨hnonneg, hfits⟩ := h.feasible hon hv
    exact ⟨hnonneg, fun hpos => (ceilCost_mono hc).trans (hfits hpos)⟩
  admittedRoom := h.admittedRoom
  queuedRoom := h.queuedRoom
  tokenRoom := h.tokenRoom
  tenantRoom := h.tenantRoom
  worker := h.worker

/-- Where the test is left out, a deadline one millisecond away is not before
this one and leaves too little time. -/
theorem Impl.SkipsTest.refuses {d : Deadline} (h : s.SkipsTest spec d) :
    d.notBefore ⟨some (s.now + 1000000)⟩ = true ∧
      ¬Admissible s { spec with deadline := ⟨some (s.now + 1000000)⟩ } := by
  obtain ⟨hon, hv, hzero, hcost⟩ := h
  have hrem : Deadline.remaining ⟨some (s.now + 1000000)⟩ s.now = 1 := by
    simp only [Deadline.remaining, add_sub_cancel_left]
    decide
  have hnear : ∀ p n : ℤ, (if p - n < 0 then 0 else (p - n).tdiv 1000000) = 0 → p ≤ n + 1000000 := by
    intro p n hz
    split at hz
    · omega
    · rw [Int.tdiv_eq_ediv_of_nonneg (by omega)] at hz
      omega
  refine ⟨?_, fun hadm => ?_⟩
  · obtain ⟨p, hp⟩ := Option.isSome_iff_exists.1 hv
    simp only [Deadline.remaining, hp, toMs] at hzero
    simp [Deadline.notBefore, hp, hnear p s.now hzero]
  · have hfits := (hadm.feasible hon rfl).2
    rw [hrem] at hfits
    exact absurd (hfits one_pos) (not_le.2 hcost)

end admits

/-- **Admission is monotone.** In every state and at every time, a specification
that is admitted with one deadline is admitted with every later one and without
one, exactly unless the first is less than a millisecond away and the feasibility
test looks only at the others. What is admitted at one cost is admitted at every
smaller one. -/
theorem admission_monotone (s : Impl) (spec : RequestSpec) (pre : Option RequestId) :
    (∀ d : Deadline, Castable spec.demand.costUnits →
      ((∀ d' : Deadline, d.notBefore d' = true →
          s.admits { spec with deadline := d } pre = true → s.admits { spec with deadline := d' } pre = true) ↔
        ¬(s.SkipsTest spec d ∧ s.admits { spec with deadline := d } pre = true))) ∧
    (∀ c c' : ℚ, 0 ≤ c' → c' ≤ c → Castable c →
      s.admits { spec with demand := { spec.demand with costUnits := c } } pre = true →
        s.admits { spec with demand := { spec.demand with costUnits := c' } } pre = true) := by
  constructor
  · intro d _
    constructor
    · intro hmono hskips
      obtain ⟨hskip, h⟩ := hskips
      obtain ⟨hlater, hrefused⟩ := hskip.refuses
      exact hrefused ((admits_iff pre).1 (hmono _ hlater h)).2
    · intro hskip d' hd h
      obtain ⟨hvalid, hadm⟩ := (admits_iff pre).1 h
      exact (admits_iff pre).2 ⟨hvalid, hadm.later hd fun hs => hskip ⟨hs, h⟩⟩
  · intro c c' hnonneg hc _ h
    obtain ⟨hvalid, hadm⟩ := (admits_iff pre).1 h
    exact (admits_iff pre).2 ⟨validateSpec_costUnits hnonneg hvalid, hadm.cheaper hc⟩

/-- From ten milliseconds to a second, and from a cost of five to one of three. -/
theorem admission_monotone_plain :
    let s := Impl.init {} 0 0x80000001 none
    let spec := { plainSpec with demand := { plainSpec.demand with costUnits := 5 } }
    s.admits { spec with deadline := ⟨some 1000000000⟩ } none = true ∧
      s.admits { spec with demand := { spec.demand with costUnits := 3 } } none = true := by
  intro s spec
  refine ⟨?_, ?_⟩
  · refine ((admission_monotone s spec none).1 ⟨some 10000000⟩ (by decide +kernel : ceilCost 5 ≤ i64Max)).2 ?_
      ⟨some 1000000000⟩ (by decide) (by decide +kernel)
    intro hskip
    exact absurd hskip.1.2.2.1 (by decide)
  · exact (admission_monotone s spec none).2 5 3 (by norm_num) (by norm_num) (by decide +kernel : ceilCost 5 ≤ i64Max)
      (by decide +kernel)

/-- Half a millisecond before its deadline a request of cost 5 is admitted; with
two milliseconds left it is turned away. -/
theorem later_deadline_refused :
    let s := Impl.init {} 0 0x80000001 none
    let spec := { plainSpec with demand := { plainSpec.demand with costUnits := 5 } }
    validateSpec spec = .ok () ∧ Deadline.notBefore ⟨some 500000⟩ ⟨some 2000000⟩ = true ∧
      s.admits { spec with deadline := ⟨some 500000⟩ } none = true ∧
      s.admits { spec with deadline := ⟨some 2000000⟩ } none = false := by
  decide +kernel

end InferenceScheduler
