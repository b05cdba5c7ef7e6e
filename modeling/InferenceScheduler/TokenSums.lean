/-
Token sums in 64 bits. The source adds token estimates as signed 64-bit values,
where the model adds integers. The two agree as long as no sum overflows, and
`validate_spec` does not see to that: it takes every non-negative estimate, so
two of them may add up to a negative total, which any budget admits and any
batch takes in.
-/
import InferenceScheduler.Company
import InferenceScheduler.TokenBudget

namespace InferenceScheduler

open Machine Binary

/-! ## Batches -/

namespace Impl

/-- The loop of `form_batch` in 64 bits. -/
def fillBatch64 (s : Impl) (maxb : ℤ) : List RequestId → List RequestId → ℤ → List RequestId
  | [], result, _ => result
  | id :: ids, result, tok =>
    if (result.length : ℤ) ≥ maxb then result
    else if s.cfg.batch.maxTokens > 0 then
      let add := (s.specOf id).tokens.total64
      if wrap64 (tok + add) > s.cfg.batch.maxTokens then result
      else fillBatch64 s maxb ids (result ++ [id]) (wrap64 (tok + add))
    else fillBatch64 s maxb ids (result ++ [id]) tok

/-- `form_batch` in 64 bits. -/
def formBatch64 (s : Impl) (seed : RequestId) (now : ClockTime) : List RequestId :=
  match s.requests.find seed with
  | none => []
  | some rec =>
    s.fillBatch64 (batchLimit s.cfg rec.spec) (s.candidates seed rec.spec now) [seed] rec.spec.tokens.total64

/-- The running totals of the loop, one for each candidate it looks at. -/
def fillSums (s : Impl) (maxb : ℤ) : List RequestId → ℕ → ℤ → List ℤ
  | [], _, _ => []
  | id :: ids, size, tok =>
    if (size : ℤ) ≥ maxb ∨ s.cfg.batch.maxTokens ≤ 0 then []
    else
      let sum := tok + (s.specOf id).tokens.total
      sum :: if sum > s.cfg.batch.maxTokens then [] else fillSums s maxb ids (size + 1) sum

/-- The sums `form_batch` takes: the total of the seed and the running totals. -/
def batchSums (s : Impl) (seed : RequestId) (now : ClockTime) : List ℤ :=
  match s.requests.find seed with
  | none => []
  | some rec => rec.spec.tokens.total ::
      s.fillSums (batchLimit s.cfg rec.spec) (s.candidates seed rec.spec now) 1 rec.spec.tokens.total

variable {s : Impl}

/-- Where no sum overflows, the loop in 64 bits is the loop. -/
theorem fillBatch64_eq {maxb : ℤ} {ids : List RequestId} (result : List RequestId) (tok : ℤ)
    (hids : ∀ id ∈ ids, FitsInt 64 (s.specOf id).tokens.total)
    (hsums : ∀ x ∈ s.fillSums maxb ids result.length tok, FitsInt 64 x) :
    s.fillBatch64 maxb ids result tok = s.fillBatch maxb ids result tok := by
  induction ids generalizing result tok with
  | nil => rfl
  | cons id ids ih =>
    have hadd : (s.specOf id).tokens.total64 = (s.specOf id).tokens.total := wrap64_eq (hids id List.mem_cons_self)
    have hids' : ∀ id ∈ ids, FitsInt 64 (s.specOf id).tokens.total := fun j hj => hids j (List.mem_cons_of_mem id hj)
    unfold fillBatch64 fillBatch
    by_cases hsize : (result.length : ℤ) ≥ maxb
    · rw [if_pos hsize, if_pos hsize]
    · rw [if_neg hsize, if_neg hsize]
      by_cases hpos : s.cfg.batch.maxTokens > 0
      · rw [fillSums, if_neg (not_or.2 ⟨hsize, not_le.2 hpos⟩)] at hsums
        simp only [List.mem_cons, forall_eq_or_imp] at hsums
        simp only [if_pos hpos, hadd, wrap64_eq hsums.1]
        split
        · rfl
        · next hroom =>
          rw [if_neg hroom] at hsums
          exact ih _ _ hids' (by rw [List.length_append, List.length_singleton]; exact hsums.2)
      · rw [if_neg hpos, if_neg hpos]
        refine ih _ _ hids' fun x hx => ?_
        cases ids with
        | nil => cases hx
        | cons j ids =>
          rw [fillSums, if_pos (.inr (not_lt.1 hpos))] at hx
          cases hx

/-- The running total never passes the larger of the first total and the limit
before it is added to. -/
theorem fillSums_fit {maxb top : ℤ} {ids : List RequestId} (size : ℕ) (tok : ℤ) (htok : 0 ≤ tok ∧ tok ≤ top)
    (htop : s.cfg.batch.maxTokens ≤ top)
    (hids : ∀ id ∈ ids, 0 ≤ (s.specOf id).tokens.total ∧ top + (s.specOf id).tokens.total ≤ i64Max) :
    ∀ x ∈ s.fillSums maxb ids size tok, FitsInt 64 x := by
  induction ids generalizing size tok with
  | nil => simp [fillSums]
  | cons id ids ih =>
    obtain ⟨hadd, hsum⟩ := hids id List.mem_cons_self
    unfold fillSums
    intro x hx
    split at hx
    · cases hx
    · rcases List.mem_cons.1 hx with rfl | hx
      · simp only [FitsInt, i64Max] at hsum ⊢
        norm_num at hsum ⊢
        omega
      · split at hx
        · cases hx
        · next hroom =>
          exact ih (size + 1) _ ⟨by omega, by omega⟩ (fun j hj => hids j (List.mem_cons_of_mem id hj)) x hx

/-- A batch of two or more keeps to the token limit. -/
theorem formBatch_tokens_le {seed : RequestId} {now : ClockTime} (hlen : 2 ≤ (s.formBatch seed now).length)
    (hpos : 0 < s.cfg.batch.maxTokens) : s.tokens (s.formBatch seed now) ≤ s.cfg.batch.maxTokens := by
  unfold formBatch at hlen ⊢
  cases hf : s.requests.find seed with
  | none => simp [hf] at hlen
  | some rec =>
    simp only [hf] at hlen ⊢
    obtain ⟨n, _, heq, hroom, _⟩ := s.fillBatch_take (batchLimit s.cfg rec.spec) (s.candidates seed rec.spec now) [seed]
      rec.spec.tokens.total
    rw [heq] at hlen ⊢
    have hn : n ≠ 0 := by
      rintro rfl
      simp at hlen
    rw [List.singleton_append, tokens_cons, specOf_of_find hf]
    exact (hroom n le_rfl hn).2 hpos

end Impl

/-! ## Runs without an overflow -/

/-- Requests that a plan may put together can be added up one by one. -/
def Impl.PairsFit (s : Impl) : Prop :=
  ∀ a b ra rb, s.Plannable a ra → s.Plannable b rb → a ≠ b → compatKey s.cfg ra.spec = compatKey s.cfg rb.spec →
    max ra.spec.tokens.total s.cfg.batch.maxTokens + rb.spec.tokens.total ≤ i64Max

/-- What keeps the sums of an operation in 64 bits: the estimates of a submission
can be added, a plan finds requests that can, and a recovery reads such requests
and no tokens in use. -/
def WithinI64 (s : Impl) : ServiceOp → Prop
  | .op (.submit spec _) => validateSpec spec = .ok () → spec.tokens.total ≤ i64Max
  | .op (.planDispatch _ _) => s.PairsFit
  | .op _ => True
  | .recover file => ∀ payload img, readPersistenceFile file = .ok payload → readable payload = some img →
      img.header.globalTokens = 0 ∧
        ∀ r ∈ img.requests, TokenEstimate.Summable ⟨r.tokensInput, r.tokensOutput, r.tokensDecoded⟩

/-- The estimates of every request can be added. -/
def Core.Summable (c : Core) : Prop := ∀ r rec, c.requests.find r = some rec → rec.spec.tokens.Summable

/-- The sums of the scheduler keep to 64 bits: no tokens are in use, and the
estimates of every request can be added. -/
structure Impl.Sound64 (s : Impl) : Prop where
  noTokens : s.globalTokens = 0
  summable : s.core.Summable

theorem Impl.Sound64.serve {s : Impl} {op : ServiceOp} (h : s.Sound64) (hop : WithinI64 s op) :
    (recoverable.next s op).Sound64 := by
  cases op with
  | op op =>
    refine ⟨(s.step_globalTokens op).trans h.noTokens, ?_⟩
    refine @specs_next (fun spec => spec.tokens.Summable) s op (fun spec pre heq hv => ?_) h.summable
    subst heq
    exact summable_of_valid hv (hop hv)
  | recover file =>
    show (s.doRecover file).1.Sound64
    rcases s.doRecover_cases file with ⟨mode, heq⟩ | ⟨payload, img, hfile, hread, hover⟩
    · rw [heq]
      exact ⟨h.noTokens, h.summable⟩
    · obtain ⟨htokens, hrequests⟩ := hop payload img hfile hread
      have hsaved : ({ s with recoveryMode := 1 }.overwrite img).core.Summable := by
        intro r rec hf
        obtain ⟨saved, hmem, rfl⟩ := Impl.find_overwrite hf
        exact hrequests saved hmem
      rcases hover with ⟨heq, _⟩ | heq <;> rw [heq]
      · exact ⟨htokens, hsaved⟩
      · refine ⟨(Impl.foldl_enqueueLocked_frame _ _).2.2.2.1.trans htokens, fun r rec hf => ?_⟩
        rw [Impl.mode_core, Impl.find_rebuildReady, Option.map_eq_some_iff] at hf
        obtain ⟨old, hold, rfl⟩ := hf
        split <;> exact hsaved r old hold

theorem Impl.Sound64.served {cfg : SchedulerConfig} {now : ClockTime} {salt : UInt64} {epoch : Option SchedulerEpoch}
    {ops : List ServiceOp} (hok : recoverable.Allowed WithinI64 (Impl.init cfg now salt epoch) ops) :
    (recoverable.run (Impl.init cfg now salt epoch) ops).Sound64 :=
  run_invariant (fun _ _ hop h => h.serve hop) ⟨rfl, fun _ _ hf => by cases hf⟩ hok

/-! ## The sums -/

/-- The batch of a plannable seed, whose candidates can be added up with it. -/
theorem Impl.batchSums_fit {s : Impl} (h : s.core.Summable) (hbucket : Bucketed s.core) (hpairs : s.PairsFit)
    {seed : RequestId} {rec : RequestRecord} (hseed : s.Plannable seed rec) :
    (∀ x ∈ s.batchSums seed s.now, FitsInt 64 x) ∧ s.formBatch64 seed s.now = s.formBatch seed s.now := by
  obtain ⟨hnonneg, hfits⟩ := (h seed rec hseed.stored).fits
  -- Every candidate is a plannable request of the key of the seed.
  have hcand : ∀ id ∈ s.candidates seed rec.spec s.now, ∃ m, s.requests.find id = some m ∧
      max rec.spec.tokens.total s.cfg.batch.maxTokens + m.spec.tokens.total ≤ i64Max := by
    intro id hid
    obtain ⟨hmem, hne, _, m, hwaits, hexp⟩ := mem_candidates.1 hid
    obtain ⟨m', hf, hkey⟩ := hbucket _ id hmem
    obtain rfl := Option.some.inj (hwaits.1.symm.trans hf)
    exact ⟨m, hf, hpairs seed id rec m hseed ⟨hf, by simp [Impl.waiting, hwaits.2], hexp⟩ hne.symm hkey.symm⟩
  have hsums : ∀ x ∈ s.fillSums (batchLimit s.cfg rec.spec) (s.candidates seed rec.spec s.now) 1 rec.spec.tokens.total,
      FitsInt 64 x := by
    refine fillSums_fit 1 _ ⟨hnonneg, le_max_left _ _⟩ (le_max_right _ _) fun id hid => ?_
    obtain ⟨m, hf, hsum⟩ := hcand id hid
    rw [specOf_of_find hf]
    exact ⟨(h id m hf).fits.1, hsum⟩
  refine ⟨fun x hx => ?_, ?_⟩
  · simp only [batchSums, hseed.stored, List.mem_cons] at hx
    rcases hx with rfl | hx
    · exact hfits
    · exact hsums x hx
  · simp only [formBatch64, formBatch, hseed.stored]
    rw [show rec.spec.tokens.total64 = rec.spec.tokens.total from wrap64_eq hfits]
    refine fillBatch64_eq _ _ (fun id hid => ?_) hsums
    obtain ⟨m, hf, _⟩ := hcand id hid
    rw [specOf_of_find hf]
    exact (h id m hf).fits.2

/-- **Token sums.** In every state of a run within 64 bits: the sums of a valid
spec whose estimates can be added do not overflow, and it is admitted only within
the budget; the sums of a batch of requests that can be added up do not, and a
batch of two or more keeps to the token limit. -/
theorem token_sums_fit {cfg : SchedulerConfig} {now : ClockTime} {salt : UInt64} {epoch : Option SchedulerEpoch}
    {ops : List ServiceOp} (hok : recoverable.Allowed WithinI64 (Impl.init cfg now salt epoch) ops) {s : Impl}
    (hs : s = recoverable.run (Impl.init cfg now salt epoch) ops) :
    (∀ spec, validateSpec spec = .ok () → spec.tokens.total ≤ i64Max →
      FitsInt 64 spec.tokens.total ∧ FitsInt 64 (s.globalTokens + spec.tokens.total) ∧
        s.makeAdmission64 spec s.now = s.makeAdmission spec s.now ∧
        ((s.makeAdmission64 spec s.now).1 = .admitted → 0 < s.cfg.admission.maxGlobalTokenBudget →
          spec.tokens.total ≤ s.cfg.admission.maxGlobalTokenBudget)) ∧
      (s.PairsFit → ∀ seed rec, s.Plannable seed rec →
        (∀ x ∈ s.batchSums seed s.now, FitsInt 64 x) ∧ s.formBatch64 seed s.now = s.formBatch seed s.now ∧
          (2 ≤ (s.formBatch64 seed s.now).length → 0 < s.cfg.batch.maxTokens →
            s.tokens (s.formBatch64 seed s.now) ≤ s.cfg.batch.maxTokens)) := by
  have h : s.Sound64 := hs ▸ .served hok
  have hbucket : Bucketed s.core := hs ▸ Bucketed.served cfg now salt epoch ops
  refine ⟨fun spec hvalid htotal => ?_, fun hpairs seed rec hseed => ?_⟩
  · have hfits := (summable_of_valid hvalid htotal).fits.2
    have heq := s.makeAdmission64_eq h.noTokens hfits s.now
    refine ⟨hfits, by rw [h.noTokens, zero_add]; exact hfits, heq, fun hadmitted hbudget => ?_⟩
    rw [heq] at hadmitted
    have hroom := ((makeAdmission_admitted_iff s spec).1 hadmitted).tokenRoom hbudget
    rwa [h.noTokens, zero_add] at hroom
  · obtain ⟨hsums, heq⟩ := s.batchSums_fit h.summable hbucket hpairs hseed
    refine ⟨hsums, heq, fun hlen hpos => ?_⟩
    rw [heq] at hlen ⊢
    exact Impl.formBatch_tokens_le hlen hpos

/-- Two requests of six tokens are batched within the limit of twelve. -/
theorem token_sums_fit_pair :
    let s := recoverable.run (Impl.init { batch := { maxTokens := 12 } } 0 0x80000001 none)
      [.op (.submit sixTokens (some ⟨7⟩)), .op (.submit sixTokens (some ⟨8⟩))]
    s.formBatch64 ⟨7⟩ s.now = [⟨7⟩, ⟨8⟩] ∧ s.tokens (s.formBatch64 ⟨7⟩ s.now) ≤ 12 := by
  intro s
  have hbatch : s.formBatch64 ⟨7⟩ s.now = [⟨7⟩, ⟨8⟩] := by decide +kernel
  have hseed : s.Plannable ⟨7⟩ ((s.requests.find ⟨7⟩).getD {}) :=
    ⟨by decide +kernel, by decide +kernel, by decide +kernel⟩
  have hpairs : ∀ ra ∈ s.requests.records, ∀ rb ∈ s.requests.records,
      max ra.spec.tokens.total s.cfg.batch.maxTokens + rb.spec.tokens.total ≤ i64Max := by decide +kernel
  have hok : recoverable.Allowed WithinI64 (Impl.init { batch := { maxTokens := 12 } } 0 0x80000001 none)
      [.op (.submit sixTokens (some ⟨7⟩)), .op (.submit sixTokens (some ⟨8⟩))] :=
    ⟨fun _ => by decide, fun _ => by decide, trivial⟩
  have hfit := (token_sums_fit hok rfl).2
    (fun _ _ ra rb ha hb _ _ => hpairs ra (Keyed.mem_records.2 (Keyed.find_key ha.stored)) rb
      (Keyed.mem_records.2 (Keyed.find_key hb.stored))) ⟨7⟩ _ hseed
  exact ⟨hbatch, hfit.2.2 (by rw [hbatch]; decide) (by decide)⟩

/-- Estimates within 64 bits whose sum is not. -/
def hugeEstimates : RequestSpec :=
  { plainSpec with tokens := { input := 9000000000000000000, output := 9223372036854775807 } }

/-- The sum overflows to a negative one, and a budget of 1000 tokens admits it. -/
theorem huge_estimates_admitted :
    let s := Impl.init { admission := { maxGlobalTokenBudget := 1000 } } 0 0x80000001 none
    validateSpec hugeEstimates = .ok () ∧ FitsInt 64 hugeEstimates.tokens.input ∧ FitsInt 64 hugeEstimates.tokens.output ∧
      ¬FitsInt 64 hugeEstimates.tokens.total ∧ (s.makeAdmission64 hugeEstimates s.now).1 = .admitted ∧
      s.cfg.admission.maxGlobalTokenBudget < hugeEstimates.tokens.total := by
  decide +kernel

end InferenceScheduler
