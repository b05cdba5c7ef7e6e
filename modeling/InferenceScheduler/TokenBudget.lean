/-
The global token budget. `make_admission` tests a submission against
`global_tokens_`, which no function writes: it stays 0, so the budget bounds
each request alone and never their sum. And it bounds a request only if the
request's own estimates add up in 64 bits.
-/
import InferenceScheduler.Conservation
import InferenceScheduler.Lib.Binary

namespace InferenceScheduler

open Machine Binary

/-! ## 64-bit sums -/

/-- A sum as a signed 64-bit register holds it. The source leaves an overflow
undefined; this is what the machine makes of it. -/
def wrap64 (n : ℤ) : ℤ := n.bmod (2 ^ 64)

theorem wrap64_eq {n : ℤ} (h : FitsInt 64 n) : wrap64 n = n := by
  obtain ⟨hlow, hhigh⟩ := h
  norm_num at hlow hhigh
  exact Int.bmod_eq_of_le_mul_two (by norm_num; omega) (by norm_num; omega)

/-- `tokens.total()`. -/
def TokenEstimate.total64 (t : TokenEstimate) : ℤ := wrap64 (t.input + t.output)

/-- `make_admission` with its sum taken in 64 bits, which then stands for both
summands. -/
def Impl.makeAdmission64 (s : Impl) (spec : RequestSpec) (now : ClockTime) : AdmissionDecision × String :=
  Impl.makeAdmission { s with globalTokens := wrap64 (s.globalTokens + spec.tokens.total64) } { spec with tokens := {} }
    now

/-- Estimates that 64 bits can add. -/
def TokenEstimate.Summable (t : TokenEstimate) : Prop := 0 ≤ t.input ∧ 0 ≤ t.output ∧ t.input + t.output ≤ i64Max

theorem TokenEstimate.Summable.fits {t : TokenEstimate} (h : t.Summable) : 0 ≤ t.total ∧ FitsInt 64 t.total := by
  simp only [Summable, i64Max, total, FitsInt] at h ⊢
  norm_num at h ⊢
  omega

theorem summable_of_valid {spec : RequestSpec} (hvalid : validateSpec spec = .ok ()) (h : spec.tokens.total ≤ i64Max) :
    spec.tokens.Summable := by
  obtain ⟨-, -, ⟨hinput, houtput, -⟩, -⟩ := validateSpec_ok_iff.1 hvalid
  exact ⟨hinput, houtput, h⟩

/-- With no tokens in use, what is decided on 64-bit sums is what is decided. -/
theorem Impl.makeAdmission64_eq {s : Impl} (h : s.globalTokens = 0) {spec : RequestSpec}
    (hfits : FitsInt 64 spec.tokens.total) (now : ClockTime) :
    s.makeAdmission64 spec now = s.makeAdmission spec now := by
  have htotal : spec.tokens.total64 = spec.tokens.total := wrap64_eq hfits
  rw [makeAdmission64, htotal, h, zero_add, wrap64_eq hfits]
  simp only [makeAdmission, h, TokenEstimate.total, add_zero, zero_add]
  rfl

/-! ## The budget -/

/-- The tokens a request takes while it is live. -/
def RequestRecord.liveTokens (rec : RequestRecord) : ℤ := if rec.live then rec.spec.tokens.total else 0

/-- The tokens of the live requests. -/
def Impl.liveTokens (s : Impl) : ℤ := s.requests.sum RequestRecord.liveTokens

/-- The estimates of a submission can be added, and it is admitted only if it
would be with `global_tokens_` at the tokens of the live requests. -/
def CountsTokens (s : Impl) : Op → Prop
  | .submit spec _ => (validateSpec spec = .ok () → spec.tokens.total ≤ i64Max) ∧
      ((s.makeAdmission64 spec s.now).1 = .admitted →
        (Impl.makeAdmission { s with globalTokens := s.liveTokens } spec s.now).1 = .admitted)
  | _ => True

instance (s : Impl) (op : Op) : Decidable (CountsTokens s op) := by
  apply @Op.casesOn _ op <;> (intros; dsimp only [CountsTokens]; infer_instance)

theorem tokens_nonneg_of_valid {spec : RequestSpec} (h : validateSpec spec = .ok ()) : 0 ≤ spec.tokens.total := by
  obtain ⟨-, -, ⟨hinput, houtput, -⟩, -⟩ := validateSpec_ok_iff.1 h
  exact Int.add_nonneg hinput houtput

/-- The live requests fit in the budget, and none has a negative demand. -/
structure Affordable (cfg : SchedulerConfig) (b : Book) : Prop where
  config : b.core.cfg = cfg
  budget : b.core.requests.sum RequestRecord.liveTokens ≤ cfg.admission.maxGlobalTokenBudget
  nonneg : ∀ r rec, b.core.requests.find r = some rec → rec.live = true → 0 ≤ rec.spec.tokens.total

theorem Writes.liveTokens_le {c : Core} {m : Move} {rec rec' : RequestRecord} (hw : Writes c m rec rec')
    (hl : rec.live = true) (hn : 0 ≤ rec.spec.tokens.total) : rec'.liveTokens ≤ rec.liveTokens := by
  rw [RequestRecord.liveTokens, RequestRecord.liveTokens, if_pos hl, hw.spec]
  split
  · exact le_refl _
  · exact hn

theorem Affordable.act {cfg : SchedulerConfig} {s : Impl} {op : Op} {b : Book} {e : Entry} (h : Affordable cfg b)
    (hT : 0 < cfg.admission.maxGlobalTokenBudget) (hzero : s.globalTokens = 0) (hfresh : FreshSubmit s op)
    (hop : CountsTokens s op) (he : Posted s op b e) : Affordable cfg (b.act e) := by
  cases e with
  | turnAway => exact ⟨h.config, h.budget, h.nonneg⟩
  | settle t => exact ⟨h.config, h.budget, h.nonneg⟩
  | dismiss late => exact absurd hfresh he
  | again rec spec => exact absurd hfresh he.1
  | move m =>
    obtain ⟨⟨hen, _⟩, hback⟩ := he
    refine ⟨(b.act_cfg _).trans h.config, ?_, fun r rec' hf' hl' => ?_⟩
    · rw [Book.act, Book.move_core]
      by_cases hacc : ∃ spec rid, m = .accept spec rid
      · obtain ⟨spec, rid, rfl⟩ := hacc
        obtain ⟨hvalid, hadm, pre, rfl, rfl⟩ := hback
        -- The decision is the one on 64-bit sums, and stands with the live tokens in the counter.
        rw [← s.makeAdmission64_eq hzero (summable_of_valid hvalid (hop.1 hvalid)).fits.2] at hadm
        have hroom :=
          ((makeAdmission_admitted_iff { s with globalTokens := s.liveTokens } spec).1 (hop.2 hadm)).tokenRoom
        have hcfg : s.cfg = cfg := (s.named_cfg pre).symm.trans h.config
        have hreq : (s.named pre).book.core.requests = s.requests := (s.named_frame pre).1
        have hsum := Keyed.sum_put_of_none (t := (s.named pre).book.core.requests) (f := RequestRecord.liveTokens)
          (w := Impl.admittedRecord spec rid (s.named pre).core.ids.peek (s.named pre).core.ids.tick.peek
            (s.named pre).core.now) hen
        refine hsum.trans_le ?_
        rw [hreq]
        exact hcfg ▸ hroom (hcfg.symm ▸ hT)
      · refine (Core.sum_act_le hen (fun rec rec' hf hw => ?_) fun rec hs => ?_).trans h.budget
        · have hl : rec.live = true := by simp [RequestRecord.live, hw.not_terminal hen hf]
          exact hw.liveTokens_le hl (h.nonneg _ rec hf hl)
        · cases hs with
          | refuse => simp [RequestRecord.liveTokens, RequestRecord.live, hen.2.1]
          | accept => exact absurd ⟨_, _, rfl⟩ hacc
    · rw [Book.act, Book.move_core] at hf'
      rcases Core.find_act hen hf' with hs | ⟨rec, hf, rfl | hw⟩
      · cases hs with
        | refuse => simp [RequestRecord.live, hen.2.1] at hl'
        | accept => exact tokens_nonneg_of_valid hback.1
      · exact h.nonneg r rec' hf hl'
      · rw [hw.spec]
        exact h.nonneg r rec hf (by simp [RequestRecord.live, hw.not_terminal hen (Keyed.find_key hf)])

/-- **The token budget.** In a run whose submissions can be added up in 64 bits
and are decided as if `global_tokens_` held the tokens of the live requests,
these stay within the budget. -/
theorem token_budget_kept {cfg : SchedulerConfig} {now : ClockTime} {salt : UInt64} {epoch : Option SchedulerEpoch}
    {ops : List Op} (hT : 0 < cfg.admission.maxGlobalTokenBudget)
    (hok : scheduler.Allowed (fun s op => FreshSubmit s op ∧ CountsTokens s op) (Impl.init cfg now salt epoch) ops) :
    (scheduler.run (Impl.init cfg now salt epoch) ops).liveTokens ≤ cfg.admission.maxGlobalTokenBudget := by
  have hinit : Affordable cfg (Impl.init cfg now salt epoch).book :=
    ⟨rfl, le_of_lt hT, by simp [Impl.book, Impl.core, Impl.init]⟩
  have hrun := run_invariant (I := fun s => Affordable cfg s.book ∧ s.globalTokens = 0) (fun s op hop h => ?_)
    ⟨hinit, rfl⟩ hok
  · exact hrun.1.budget
  · exact ⟨posts_invariant (fun _ _ he hb => hb.act hT h.2 hop.1 hop.2 he) h.1, (s.step_globalTokens op).trans h.2⟩

/-- A request of six tokens. -/
def sixTokens : RequestSpec := { plainSpec with tokens := { input := 4, output := 2 } }

/-- The second request of six tokens comes when the first is over. -/
theorem token_budget_kept_in_turn :
    let cfg : SchedulerConfig := { admission := { maxGlobalTokenBudget := 10 } }
    (scheduler.run (Impl.init cfg 0 0x80000001 none) [.submit sixTokens (some ⟨7⟩), .cancel ⟨7⟩ .clientRequested "",
      .submit sixTokens (some ⟨8⟩)]).liveTokens ≤ cfg.admission.maxGlobalTokenBudget := by
  intro cfg
  exact token_budget_kept (by decide) (by decide +kernel)

/-- Two live requests of six tokens each in a budget of ten. -/
theorem token_budget_exceeded :
    let cfg : SchedulerConfig := { admission := { maxGlobalTokenBudget := 10 } }
    let ops : List Op := [.submit sixTokens (some ⟨7⟩), .submit sixTokens (some ⟨8⟩)]
    scheduler.Allowed FreshSubmit (Impl.init cfg 0 0x80000001 none) ops ∧
      cfg.admission.maxGlobalTokenBudget < (scheduler.run (Impl.init cfg 0 0x80000001 none) ops).liveTokens := by
  decide +kernel

end InferenceScheduler
