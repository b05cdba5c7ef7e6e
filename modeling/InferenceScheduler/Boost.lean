/-
The deadline boost. `effective_finish` divides the virtual finish of a flow
whose head is due soon, so what the boost is worth grows with the virtual
time. A flow gets a bounded advantage while the flows that are boosted have not
got past a given virtual time, and an unbounded one otherwise.
-/
import InferenceScheduler.Drift

namespace InferenceScheduler

open Machine

/-! ## What the boost is worth -/

/-- A request within the threshold of its deadline. -/
def DueSoon (cfg : SchedulerConfig) (rec : RequestRecord) (now : ClockTime) : Prop :=
  cfg.scheduling.deadlineBoostEnabled = true ∧ rec.spec.deadline.valid = true ∧
    0 ≤ rec.spec.deadline.remaining now ∧
    rec.spec.deadline.remaining now ≤ cfg.scheduling.deadlineBoostThresholdMs

instance (cfg : SchedulerConfig) (rec : RequestRecord) (now : ClockTime) : Decidable (DueSoon cfg rec now) :=
  inferInstanceAs (Decidable (_ ∧ _ ∧ _ ∧ _))

theorem effectiveFinish_of_dueSoon {cfg : SchedulerConfig} {f : Flow} {rec : RequestRecord} {now : ClockTime}
    (h : DueSoon cfg rec now) :
    Impl.effectiveFinish cfg f rec now = f.virtualFinish / cfg.scheduling.deadlineBoostMax := by
  obtain ⟨hon, hvalid, hpos, hle⟩ := h
  simp [Impl.effectiveFinish, hon, hvalid, hpos, hle]

theorem effectiveFinish_of_not_dueSoon {cfg : SchedulerConfig} {f : Flow} {rec : RequestRecord} {now : ClockTime}
    (h : ¬DueSoon cfg rec now) : Impl.effectiveFinish cfg f rec now = f.virtualFinish := by
  unfold Impl.effectiveFinish
  simp only
  split
  · next hon =>
    by_cases hvalid : rec.spec.deadline.valid = true
    · rw [if_pos hvalid, if_neg fun hslack => h ⟨hon, hvalid, hslack⟩]
    · rw [if_neg hvalid, if_neg (by omega)]
  · rfl

/-- No flow whose head is due soon has got past `H`. -/
def Impl.BoostBelow (H : ℚ) (s : Impl) : Prop :=
  ∀ k ∈ s.ready.activeFlows, ∀ rec ∈ s.core.head s.now k, DueSoon s.cfg rec s.now → (s.ready.flow k).virtualFinish ≤ H

/-- The boost is worth at most `H` then. -/
theorem Impl.BoostBelow.within {H : ℚ} {s : Impl} (h : s.BoostBelow H) (hH : 0 ≤ H)
    (hM : 1 ≤ s.cfg.scheduling.deadlineBoostMax) (hnonneg : ∀ k, 0 ≤ (s.ready.flow k).virtualFinish) :
    s.BoostWithin H := by
  intro k hk hhead
  refine ⟨?_, s.effective_le hM (hnonneg k)⟩
  obtain ⟨e, he⟩ := Option.ne_none_iff_exists'.1 hhead
  obtain ⟨rec, hf, _⟩ := Core.exists_of_alive (Core.alive_of_headEntry he)
  have hrec : s.core.head s.now k = some rec := (Core.head_eq he).trans hf
  have heff : s.core.effective s.now k = effectiveFinish s.cfg (s.ready.flow k) rec s.now := by
    rw [Core.effective, hrec, Option.getD_some]
    rfl
  rw [heff]
  by_cases hdue : DueSoon s.cfg rec s.now
  · rw [effectiveFinish_of_dueSoon hdue]
    have hle := h k hk rec hrec hdue
    have hpos : 0 ≤ (s.ready.flow k).virtualFinish / s.cfg.scheduling.deadlineBoostMax :=
      div_nonneg (hnonneg k) (zero_le_one.trans hM)
    linarith
  · rw [effectiveFinish_of_not_dueSoon hdue]
    linarith

/-- Seeds are chosen while the boosted flows are below `H`. -/
def SeedsBelow (H : ℚ) (c : Calls) : Op → Prop
  | .planNextSeed => c.state.BoostBelow H
  | _ => True

instance (H : ℚ) (s : Impl) : Decidable (s.BoostBelow H) :=
  inferInstanceAs (Decidable (∀ k ∈ s.ready.activeFlows.elems, ∀ rec ∈ s.core.head s.now k,
    DueSoon s.cfg rec s.now → (s.ready.flow k).virtualFinish ≤ H))

instance (H : ℚ) (c : Calls) : (op : Op) → Decidable (SeedsBelow H c op)
  | .planNextSeed => inferInstanceAs (Decidable (c.state.BoostBelow H))
  | .submit .. | .planDispatch .. | .confirmStart _ | .complete _ | .cancel .. | .cancelAllQueued _
  | .registerWorker _ | .updateCapability .. | .setWorkerState .. | .unregisterWorker _ | .beginDrain _
  | .rollEpoch | .advance _ => .isTrue trivial

/-! ## A bounded advantage -/

/-- In every run of such operations, while two flows stay backlogged the first
is dispatched at most as much as the boost allows it, and `K`. -/
def AdvantageWithin (cfg : SchedulerConfig) (allowed : Calls → Op → Prop) (K : ℚ) : Prop :=
  ∀ (now : ClockTime) (salt : UInt64) (epoch : Option SchedulerEpoch) (before part : List Op) (i j : FlowKey),
    let c := planning.run ⟨Impl.init cfg now salt epoch, []⟩ before
    planning.Allowed allowed ⟨Impl.init cfg now salt epoch, []⟩ (before ++ part) →
    planning.Throughout (fun c => c.state.backlogged i = true ∧ c.state.backlogged j = true) c part →
    service i (planning.trace c part) / keyWeight cfg i ≤
      cfg.scheduling.deadlineBoostMax * (service j (planning.trace c part) / keyWeight cfg j) + K

theorem served_nonneg (k : FlowKey) (e : Event Calls Op Answer) : 0 ≤ served k e := by
  unfold served
  split
  · split
    · refine List.sum_nonneg fun x hx => ?_
      obtain ⟨id, _, rfl⟩ := List.mem_map.1 hx
      exact zero_le_one.trans (le_max_left 1 _)
    · exact le_rfl
  · exact le_rfl

theorem service_nonneg (k : FlowKey) (es : List (Event Calls Op Answer)) : 0 ≤ service k es :=
  List.sum_nonneg fun x hx => by
    obtain ⟨e, _, rfl⟩ := List.mem_map.1 hx
    exact served_nonneg k e

/-- **The deadline boost is bounded while it is small.** In runs without a
recovery, requests are dispatched alone, by calls of `plan_next_dispatch` that do
not overlap, and seeds are chosen while the flows whose heads are due soon have
not got past `H`. Then a flow gets at most what the boost allows it over another,
and `2(D + H)`. -/
theorem boost_bounded {cfg : SchedulerConfig} {C D H : ℚ} (hD : 0 ≤ D) (hH : 0 ≤ H)
    (hM : 1 ≤ cfg.scheduling.deadlineBoostMax) :
    AdvantageWithin cfg (fun c op => InTurn c op ∧ ThroughPlanNext c op ∧ SoloSubmit cfg C D op ∧ SeedsBelow H c op)
      (2 * (D + H)) := by
  intro now salt epoch before part i j c hok hback
  have hstep : ∀ c op, (InTurn c op ∧ ThroughPlanNext c op ∧ SoloSubmit cfg C D op ∧ SeedsBelow H c op) →
      c.Even cfg 1 C D H → (planning.next c op).Even cfg 1 C D H := by
    intro c op hop hc
    obtain ⟨hturn, hthrough, hsolo, hbelow⟩ := hop
    refine hc.step_solo hD hH hturn hthrough hsolo fun he => ?_
    subst he
    have hcfg : c.state.cfg = cfg := hc.2.config
    exact Impl.BoostBelow.within hbelow hH (hcfg.symm ▸ hM) hc.2.fair.nonneg
  obtain ⟨hbefore, hpart⟩ := allowed_append.1 hok
  have hc := run_invariant hstep (.init cfg now salt epoch 1 C D H) hbefore
  have hi := hback.imp fun _ h => h.1
  have hj := hback.imp fun _ h => h.2
  have hsub := service_sub_le hstep (fun _ h => h) hc hpart hi hj
  have hshare : 0 ≤ service j (planning.trace c part) / keyWeight cfg j := by
    refine div_nonneg (service_nonneg j _) ?_
    obtain ⟨rec, hrec, hq⟩ := List.any_eq_true.1 hj.first
    simp only [Bool.and_eq_true, beq_iff_eq] at hq
    have hw := (hc.2.specs rec.requestId rec (Keyed.mem_records.1 hrec)).weight
    rw [flowWeight_eq, hq.2] at hw
    exact hw.le
  have hmul := le_mul_of_one_le_left hshare hM
  linarith

/-- A tenant whose requests are due in a second is served twice, and a tenant
without deadlines once. -/
theorem boost_bounded_due_soon :
    let spec : RequestSpec := { plainSpec with maxBatchSize := 1 }
    let due : RequestSpec := { plainSpec with tenant := ⟨2⟩, maxBatchSize := 1, deadline := ⟨some 1000000000⟩ }
    let before : List Op := opening [(spec, ⟨1⟩), (spec, ⟨2⟩), (due, ⟨3⟩), (due, ⟨4⟩), (due, ⟨5⟩)]
    let part : List Op := [.planNextSeed, .planDispatch ⟨1⟩ false, .planNextSeed, .planDispatch ⟨3⟩ false,
      .planNextSeed, .planDispatch ⟨4⟩ false]
    let c := planning.run ⟨Impl.init {} 0 0x80000001 none, []⟩ before
    service (flowKey due) (planning.trace c part) = 2 ∧ service (flowKey spec) (planning.trace c part) = 1 ∧
      service (flowKey due) (planning.trace c part) / keyWeight {} (flowKey due) ≤
        4 * (service (flowKey spec) (planning.trace c part) / keyWeight {} (flowKey spec)) + 2 * (1 + 1) :=
  ⟨by decide +kernel, by decide +kernel,
    boost_bounded (C := 1) zero_le_one zero_le_one (by decide +kernel) 0 0x80000001 none _ _ _ _ (by decide +kernel)
      (by decide +kernel)⟩

/-! ## An unbounded advantage -/

/-- A request that is due ten seconds after the clock starts. -/
def dueSpec : RequestSpec := { soloSpec 2 with deadline := ⟨some 10000000000⟩ }

def dueSubs : List (RequestSpec × RequestId) :=
  [(soloSpec 1, ⟨1⟩), (soloSpec 1, ⟨2⟩), (dueSpec, ⟨3⟩), (dueSpec, ⟨4⟩)]

def DueSpec (spec : RequestSpec) : Prop := spec = soloSpec 1 ∨ spec = dueSpec

theorem keyWeight_due (p : RetryPolicy) : keyWeight (pairConfig p) (flowKey dueSpec) = 1 :=
  (keyWeight_solo p).2

/-- The requests are not due yet, nor nine seconds later. -/
theorem DueSpec.usable {spec : RequestSpec} (h : DueSpec spec) (p : RetryPolicy) {now : ClockTime}
    (hnow : now < 10000000000) : Usable (pairConfig p) (plainWorker 3) now spec := by
  rcases h with rfl | rfl
  · exact ⟨by rw [flowWeight_eq, (keyWeight_solo p).1]; norm_num, rfl, rfl, rfl⟩
  · refine ⟨by rw [flowWeight_eq, keyWeight_due]; norm_num, rfl, rfl, ?_⟩
    simp [dueSpec, Deadline.valid, Deadline.expired, hnow]

theorem DueSpec.limit {spec : RequestSpec} (h : DueSpec spec) (p : RetryPolicy) :
    Impl.batchLimit (pairConfig p) spec = 1 := by
  rcases h with rfl | rfl <;> rfl

theorem DueSpec.twice {spec : RequestSpec} (h : DueSpec spec) :
    ∃ a b, a ≠ b ∧ (spec, a) ∈ dueSubs ∧ (spec, b) ∈ dueSubs := by
  rcases h with rfl | rfl
  · exact ⟨⟨1⟩, ⟨2⟩, by decide, by simp [dueSubs], by simp [dueSubs]⟩
  · exact ⟨⟨3⟩, ⟨4⟩, by decide, by simp [dueSubs], by simp [dueSubs]⟩

theorem flowKey_solo_ne_due : flowKey (soloSpec 1) ≠ flowKey dueSpec := by decide

/-- Where these runs are between two rounds. -/
structure DueRound (p : RetryPolicy) (now : ClockTime) (n : ℕ) (c : Calls) : Prop where
  cycling : Cycling (pairConfig p) (plainWorker 3) now DueSpec n c.state
  seeds : c.seeds = []
  waiting : ∀ x ∈ dueSubs, c.state.Waiting x.2 (flowKey x.1)

namespace DueRound

variable {p : RetryPolicy} {now : ClockTime} {n : ℕ} {c : Calls}

theorem waiting_solo (h : DueRound p now n c) : c.state.Waiting ⟨1⟩ (flowKey (soloSpec 1)) :=
  h.waiting (soloSpec 1, ⟨1⟩) (by simp [dueSubs])

theorem waiting_due (h : DueRound p now n c) : c.state.Waiting ⟨3⟩ (flowKey dueSpec) :=
  h.waiting (dueSpec, ⟨3⟩) (by simp [dueSubs])

/-- The flow without deadlines is not boosted. -/
theorem effective_solo (h : DueRound p now n c) :
    c.state.core.effective now (flowKey (soloSpec 1)) = c.state.ready.fair.finish (flowKey (soloSpec 1)) := by
  obtain ⟨rec, hok, hk, heff⟩ := h.cycling.effective_eq h.waiting_solo
  have hs : rec.spec = soloSpec 1 := hok.resolve_right fun hs => flowKey_solo_ne_due (hk.symm.trans (congrArg flowKey hs))
  exact heff.trans (effectiveFinish_of_no_deadline (by rw [hs]; rfl))

/-- The flow with a deadline is boosted once it is due soon. -/
theorem effective_due (h : DueRound p now n c) :
    c.state.core.effective now (flowKey dueSpec) =
      if dueSpec.deadline.remaining now ≤ 2000 then c.state.ready.fair.finish (flowKey dueSpec) / 4
      else c.state.ready.fair.finish (flowKey dueSpec) := by
  obtain ⟨rec, hok, hk, heff⟩ := h.cycling.effective_eq h.waiting_due
  have hs : rec.spec = dueSpec := hok.resolve_left fun hs => flowKey_solo_ne_due ((congrArg flowKey hs).symm.trans hk)
  have hnonneg : 0 ≤ dueSpec.deadline.remaining now := by
    show 0 ≤ if (10000000000 : ℤ) - now < 0 then 0 else toMs (10000000000 - now)
    split
    · exact le_rfl
    · next hpos => exact Int.tdiv_nonneg (not_lt.1 hpos) (by omega)
  split
  · next hle =>
    refine heff.trans (effectiveFinish_of_dueSoon ?_)
    rw [DueSoon, hs]
    exact ⟨rfl, rfl, hnonneg, hle⟩
  · next hgt =>
    refine heff.trans (effectiveFinish_of_not_dueSoon ?_)
    rw [DueSoon, hs]
    exact fun hdue => hgt hdue.2.2.2

/-- A round serves the flow with the least effective finish. -/
theorem round (h : DueRound p now n c) (hn : ((n + 1 : ℕ) : ℤ) ≤ p.maxAttempts) :
    ∃ ops, Cycle (pairConfig p) (plainWorker 3) now DueSpec (fun c op => InTurn c op ∧ Continues c op) (n + 1) c ops ∧
      DueRound p now (n + 1) (planning.run c ops) ∧
      ((c.state.core.effective now (flowKey (soloSpec 1)) ≤ c.state.core.effective now (flowKey dueSpec) ∧
        (planning.run c ops).state.ready.fair.finish (flowKey (soloSpec 1)) =
          c.state.ready.fair.finish (flowKey (soloSpec 1)) + 1 / 2 ∧
        (planning.run c ops).state.ready.fair.finish (flowKey dueSpec) = c.state.ready.fair.finish (flowKey dueSpec)) ∨
      (c.state.core.effective now (flowKey dueSpec) ≤ c.state.core.effective now (flowKey (soloSpec 1)) ∧
        (planning.run c ops).state.ready.fair.finish (flowKey (soloSpec 1)) =
          c.state.ready.fair.finish (flowKey (soloSpec 1)) ∧
        (planning.run c ops).state.ready.fair.finish (flowKey dueSpec) =
          c.state.ready.fair.finish (flowKey dueSpec) + 1)) := by
  obtain ⟨k, ops, ⟨r, hw⟩, hleast, hcycle, hend, hfinish⟩ := h.cycling.round_solo h.seeds ⟨_, _, h.waiting_solo⟩
    (h.cycling.plenty h.waiting fun spec hspec => hspec.twice) (fun spec hspec => (hspec.limit p).le) rfl rfl hn
  refine ⟨ops, hcycle, ⟨hcycle.after, hend, fun x hx => (hcycle.waiting _ _).2 (h.waiting x hx)⟩, ?_⟩
  have hk : k = flowKey (soloSpec 1) ∨ k = flowKey dueSpec := by
    obtain ⟨rec, hwr, rfl⟩ := hw
    rcases h.cycling.stocked.specs r rec hwr.1 with hs | hs <;> simp [hs]
  rcases hk with rfl | rfl
  · refine .inl ⟨hleast _ _ h.waiting_due, ?_, ?_⟩
    · rw [hfinish, if_pos rfl, (keyWeight_solo p).1]
    · rw [hfinish, if_neg flowKey_solo_ne_due, add_zero]
  · refine .inr ⟨hleast _ _ h.waiting_solo, ?_, ?_⟩
    · rw [hfinish, if_neg flowKey_solo_ne_due.symm, add_zero]
    · rw [hfinish, if_pos rfl, keyWeight_due, div_one]

/-- Nine seconds pass, and the deadline is a second away. -/
theorem advance (h : DueRound p 0 n c) : DueRound p 9000000000 n (planning.next c (.advance 9000000000)) := by
  refine ⟨⟨h.cycling.stocked.next _ (by simp), fun spec hspec => hspec.usable p (by norm_num), ?_, h.cycling.epoch,
    h.cycling.worker, h.cycling.workers, h.cycling.records, h.cycling.queued⟩, h.seeds, h.waiting⟩
  show c.state.now + 9000000000 = 9000000000
  rw [h.cycling.clock, zero_add]

/-- While nothing is due soon the flows stay level. -/
theorem level (h : DueRound p 0 n c) (hsolo : c.state.ready.fair.finish (flowKey (soloSpec 1)) = 0)
    (hdue : c.state.ready.fair.finish (flowKey dueSpec) = 0) (T : ℕ) (hn : ((n + T : ℕ) : ℤ) ≤ p.maxAttempts) :
    ∃ ops, Cycle (pairConfig p) (plainWorker 3) 0 DueSpec (fun c op => InTurn c op ∧ Continues c op) (n + T) c ops ∧
      DueRound p 0 (n + T) (planning.run c ops) ∧
      (planning.run c ops).state.ready.fair.finish (flowKey dueSpec) ≤
        (planning.run c ops).state.ready.fair.finish (flowKey (soloSpec 1)) + 1 ∧
      T / 2 ≤ (planning.run c ops).state.ready.fair.finish (flowKey (soloSpec 1)) +
        (planning.run c ops).state.ready.fair.finish (flowKey dueSpec) := by
  obtain ⟨ops, hcycle, hround, _, hle, hsum⟩ := Cycle.iterate (fun c op => InTurn c op ∧ Continues c op) (n + ·)
    (J := fun t c => DueRound p 0 (n + t) c ∧
      c.state.ready.fair.finish (flowKey (soloSpec 1)) ≤ c.state.ready.fair.finish (flowKey dueSpec) + 1 ∧
      c.state.ready.fair.finish (flowKey dueSpec) ≤ c.state.ready.fair.finish (flowKey (soloSpec 1)) + 1 ∧
      t / 2 ≤ c.state.ready.fair.finish (flowKey (soloSpec 1)) + c.state.ready.fair.finish (flowKey dueSpec))
    T (fun _ _ hJ => hJ.1.cycling) (fun t ht c hJ => by
      obtain ⟨hround, hle, hge, hsum⟩ := hJ
      obtain ⟨ops, hcycle, hnext, hserved⟩ := hround.round (by push_cast at hn ⊢; omega)
      have hdue : c.state.core.effective 0 (flowKey dueSpec) = c.state.ready.fair.finish (flowKey dueSpec) :=
        hround.effective_due.trans (if_neg (by decide))
      rw [hround.effective_solo, hdue] at hserved
      refine ⟨ops, hcycle, hnext, ?_⟩
      push_cast
      rcases hserved with ⟨hleast, hsolo', hdue'⟩ | ⟨hleast, hsolo', hdue'⟩ <;> rw [hsolo', hdue']
      · exact ⟨by linarith, by linarith, by linarith⟩
      · exact ⟨by linarith, by linarith, by linarith⟩)
    (c := c) ⟨h, by rw [hsolo, hdue]; norm_num, by rw [hsolo, hdue]; norm_num, by rw [hsolo, hdue]; norm_num⟩
  exact ⟨ops, hcycle, hround, hle, hsum⟩

/-- Once it is due soon the one flow is served until it has four times the
virtual finish of the other. -/
theorem lead (h : DueRound p 9000000000 n c) (m : ℕ)
    (hlead : c.state.ready.fair.finish (flowKey dueSpec) + m < 4 * c.state.ready.fair.finish (flowKey (soloSpec 1)))
    (hn : ((n + m : ℕ) : ℤ) ≤ p.maxAttempts) :
    ∃ ops, Cycle (pairConfig p) (plainWorker 3) 9000000000 DueSpec (fun c op => InTurn c op ∧ Continues c op) (n + m) c
        ops ∧
      (planning.run c ops).state.ready.fair.finish (flowKey dueSpec) =
        c.state.ready.fair.finish (flowKey dueSpec) + m ∧
      (planning.run c ops).state.ready.fair.finish (flowKey (soloSpec 1)) =
        c.state.ready.fair.finish (flowKey (soloSpec 1)) := by
  obtain ⟨ops, hcycle, _, hdue, hsolo⟩ := Cycle.iterate (fun c op => InTurn c op ∧ Continues c op) (n + ·)
    (J := fun t c' => DueRound p 9000000000 (n + t) c' ∧
      c'.state.ready.fair.finish (flowKey dueSpec) = c.state.ready.fair.finish (flowKey dueSpec) + t ∧
      c'.state.ready.fair.finish (flowKey (soloSpec 1)) = c.state.ready.fair.finish (flowKey (soloSpec 1)))
    m (fun _ _ hJ => hJ.1.cycling) (fun t ht c' hJ => by
      obtain ⟨hround, hdue, hsolo⟩ := hJ
      obtain ⟨ops, hcycle, hnext, hserved⟩ := hround.round (by push_cast at hn ⊢; omega)
      have heff : c'.state.core.effective 9000000000 (flowKey dueSpec) =
          c'.state.ready.fair.finish (flowKey dueSpec) / 4 := hround.effective_due.trans (if_pos (by decide))
      have ht' : (t : ℚ) < m := by exact_mod_cast ht
      rw [hround.effective_solo, heff, hdue, hsolo] at hserved
      rcases hserved with ⟨hleast, _⟩ | ⟨_, hsolo', hdue'⟩
      · linarith
      · refine ⟨ops, hcycle, hnext, ?_, hsolo'⟩
        rw [hdue']
        push_cast
        ring)
    (c := c) ⟨h, by simp, rfl⟩
  exact ⟨ops, hcycle, hdue, hsolo⟩

end DueRound

theorem Usable.soloSubmit {p : RetryPolicy} {reg : WorkerRegistration} {now : ClockTime} {spec : RequestSpec}
    (h : Usable (pairConfig p) reg now spec) (hlimit : Impl.batchLimit (pairConfig p) spec = 1)
    (hw : 1 ≤ flowWeight (pairConfig p) spec) (pre : Option RequestId) :
    SoloSubmit (pairConfig p) 1 1 (.submit spec pre) :=
  ⟨hlimit, h.weight, by rw [h.cost, max_self], (div_le_one h.weight).2 hw⟩

theorem Continues.soloSubmit {c : Calls} {op : Op} (h : Continues c op) (cfg : SchedulerConfig) (C D : ℚ) :
    SoloSubmit cfg C D op := by
  cases op with
  | submit spec pre => exact absurd rfl (h.2 spec pre)
  | _ => trivial

theorem DueSpec.soloSubmit {spec : RequestSpec} (h : DueSpec spec) (p : RetryPolicy) (pre : Option RequestId) :
    SoloSubmit (pairConfig p) 1 1 (.submit spec pre) := by
  refine (h.usable p (show (0 : ClockTime) < 10000000000 by norm_num)).soloSubmit (h.limit p) ?_ pre
  rw [flowWeight_eq]
  rcases h with rfl | rfl
  · rw [(keyWeight_solo p).1]
    norm_num
  · rw [keyWeight_due]

theorem SoloSpec.soloSubmit {spec : RequestSpec} (h : SoloSpec spec) (p : RetryPolicy) (pre : Option RequestId) :
    SoloSubmit (pairConfig p) 1 1 (.submit spec pre) := by
  refine (h.usable p).soloSubmit (h.limit p) ?_ pre
  rw [flowWeight_eq]
  rcases h with rfl | rfl
  · rw [(keyWeight_solo p).1]
    norm_num
  · rw [(keyWeight_solo p).2]

/-- Runs in which the flow that is due soon is served any number of times, and
the other not at all. -/
theorem boost_drift (m : ℕ) : ∃ p before part,
    let c := planning.run ⟨Impl.init (pairConfig p) 0 0x80000001 none, []⟩ before
    planning.Allowed (fun c op => InTurn c op ∧ ThroughPlanNext c op ∧ SoloSubmit (pairConfig p) 1 1 op)
        ⟨Impl.init (pairConfig p) 0 0x80000001 none, []⟩ (before ++ part) ∧
      planning.Allowed Continues c part ∧
      planning.Throughout (fun c => c.state.backlogged (flowKey dueSpec) = true ∧
        c.state.backlogged (flowKey (soloSpec 1)) = true) c part ∧
      (planning.run c part).state.ready.fair.finish (flowKey dueSpec) = c.state.ready.fair.finish (flowKey dueSpec) + m ∧
      (planning.run c part).state.ready.fair.finish (flowKey (soloSpec 1)) =
        c.state.ready.fair.finish (flowKey (soloSpec 1)) := by
  set p : RetryPolicy := { maxAttempts := ((1 + (4 * m + 8) + m : ℕ) : ℤ) } with hp
  set s := scheduler.run (Impl.init (pairConfig {}) 0 0x80000001 none) (opening dueSubs) with hs
  have hsub : ∀ x ∈ dueSubs, DueSpec x.1 := by simp [dueSubs, DueSpec]
  obtain ⟨hrun, hcyc⟩ := Cycling.of_opening (pairConfig {}) DueSpec dueSubs p hsub
    (fun spec hspec => hspec.usable p (by norm_num)) hs.symm (by decide +kernel)
  have hstart : ∀ x ∈ dueSubs, s.Waiting x.2 (flowKey x.1) := by decide +kernel
  have hzero : s.ready.fair.finish (flowKey (soloSpec 1)) = 0 ∧ s.ready.fair.finish (flowKey dueSpec) = 0 := by
    decide +kernel
  have hround : DueRound p 0 1 ⟨s.withRetry p, []⟩ := ⟨hcyc, rfl, hstart⟩
  obtain ⟨ops₁, hcycle₁, hround₁, hle, hsum⟩ := hround.level hzero.1 hzero.2 (4 * m + 8) (by rw [hp]; push_cast; omega)
  set c₁ := planning.run ⟨s.withRetry p, []⟩ ops₁ with hc₁
  have hround₂ := hround₁.advance
  set c₂ := planning.next c₁ (.advance 9000000000) with hc₂
  have hfinish : ∀ k, c₂.state.ready.fair.finish k = c₁.state.ready.fair.finish k := fun _ => rfl
  obtain ⟨ops₂, hcycle₂, hdue, hsolo⟩ := hround₂.lead m (by rw [hfinish, hfinish]; push_cast at hsum; linarith) le_rfl
  have hbefore : planning.run ⟨Impl.init (pairConfig p) 0 0x80000001 none, []⟩
      (opening dueSubs ++ (ops₁ ++ [.advance 9000000000])) = c₂ := by
    rw [run_append, run_append, show Impl.init (pairConfig p) 0 0x80000001 none =
      Impl.init { pairConfig {} with retry := p } 0 0x80000001 none from rfl, hrun]
    rfl
  refine ⟨p, opening dueSubs ++ (ops₁ ++ [.advance 9000000000]), ops₂, ?_⟩
  rw [hbefore]
  have hterms : ∀ c op, InTurn c op ∧ Continues c op →
      InTurn c op ∧ ThroughPlanNext c op ∧ SoloSubmit (pairConfig p) 1 1 op :=
    fun c op hop => ⟨hop.1, hop.2.1, hop.2.soloSubmit _ _ _⟩
  refine ⟨allowed_append.2 ⟨allowed_append.2 ⟨allowed_opening (fun _ => ⟨trivial, trivial, trivial⟩) fun x hx _ =>
      ⟨trivial, trivial, (hsub x hx).soloSubmit p _⟩, ?_⟩, ?_⟩, hcycle₂.allowed.imp fun _ _ hop => hop.2,
    hcycle₂.backlogged.imp fun c' hc' => ⟨hc' _ _ hround₂.waiting_due, hc' _ _ hround₂.waiting_solo⟩, hdue, hsolo⟩
  · rw [show Impl.init (pairConfig p) 0 0x80000001 none =
      Impl.init { pairConfig {} with retry := p } 0 0x80000001 none from rfl, hrun]
    exact allowed_append.2 ⟨hcycle₁.allowed.imp hterms, ⟨trivial, trivial, trivial⟩, trivial⟩
  · rw [hbefore]
    exact hcycle₂.allowed.imp hterms

theorem weighted_run {cfg : SchedulerConfig} {allowed : Calls → Op → Prop} {C D : ℚ}
    (hterms : ∀ c op, allowed c op → SoloSubmit cfg C D op) {now : ClockTime} {salt : UInt64}
    {epoch : Option SchedulerEpoch} {ops : List Op}
    (hok : planning.Allowed allowed ⟨Impl.init cfg now salt epoch, []⟩ ops) :
    (planning.run ⟨Impl.init cfg now salt epoch, []⟩ ops).Weighted cfg := by
  refine run_invariant (fun c op hop hc => hc.next op fun spec pre he => ?_) (Stocked.init cfg now salt epoch _) hok
  subst he
  exact (hterms c _ hop).2.1

/-- While nothing is submitted, what is dispatched for a flow is what its
virtual finish gains. -/
theorem service_of_continues {cfg : SchedulerConfig} {c : Calls} {part : List Op} {k : FlowKey} (hw : c.Weighted cfg)
    (hok : planning.Allowed Continues c part)
    (hback : planning.Throughout (fun c => c.state.backlogged k = true) c part) :
    service k (planning.trace c part) / keyWeight cfg k =
      (planning.run c part).state.ready.fair.finish k - c.state.ready.fair.finish k := by
  have hstep : ∀ c op, Continues c op → c.Weighted cfg → (planning.next c op).Weighted cfg :=
    fun c op hop hc => hc.next op fun spec pre he => absurd he (hop.2 spec pre)
  rw [finish_run hstep (fun _ h => h) part c hw hok hback, add_sub_cancel_left]

/-- **The boost is not bounded.** With weights 1 and 2, a cost of 1, batches of
one and the default boost of 4, no bound holds for what a flow is dispatched
beyond four times the share of another: not when calls do not overlap, and when
they do not even without deadlines. -/
theorem boost_unbounded :
    (¬∃ K, ∀ p, AdvantageWithin (pairConfig p)
      (fun c op => InTurn c op ∧ ThroughPlanNext c op ∧ SoloSubmit (pairConfig p) 1 1 op) K) ∧
      ¬∃ K, ∀ p, AdvantageWithin (pairConfig p)
        (fun c op => ThroughPlanNext c op ∧ SoloSubmit (pairConfig p) 1 1 op ∧ NoDeadline op) K := by
  constructor
  · intro hbound
    obtain ⟨K, hK⟩ := hbound
    obtain ⟨m, hm⟩ := exists_nat_gt K
    obtain ⟨p, before, part, hok, hcont, hback, hdue, hsolo⟩ := boost_drift m
    have hw := weighted_run (fun _ _ hop => hop.2.2) (allowed_append.1 hok).1
    have hle := hK p 0 0x80000001 none before part _ _ hok hback
    rw [service_of_continues hw hcont (hback.imp fun _ h => h.1),
      service_of_continues hw hcont (hback.imp fun _ h => h.2), hdue, hsolo] at hle
    linarith
  · intro hbound
    obtain ⟨K, hK⟩ := hbound
    obtain ⟨N, hN⟩ := exists_nat_gt (2 * (K + 4))
    obtain ⟨p, part, i, j, hcont, hback, hi₀, hj₀, hi, hj, ⟨hwi, hwi'⟩, hwj⟩ := overlap_drift N
    have hsub : ∀ x ∈ soloSubs, SoloSpec x.1 := by simp [soloSubs, SoloSpec]
    have hok : planning.Allowed (fun c op => ThroughPlanNext c op ∧ SoloSubmit (pairConfig p) 1 1 op ∧ NoDeadline op)
        ⟨Impl.init (pairConfig p) 0 0x80000001 none, []⟩ (opening soloSubs ++ part) :=
      allowed_append.2 ⟨allowed_opening (fun _ => ⟨trivial, trivial, trivial⟩) fun x hx _ =>
          ⟨trivial, (hsub x hx).soloSubmit p _, (hsub x hx).no_deadline⟩,
        hcont.imp fun c op hop => ⟨hop.1, hop.soloSubmit _ _ _, (hop.terms (pairConfig p) 1 1 1).2⟩⟩
    have hw := weighted_run (fun _ _ hop => hop.2.1) (allowed_append.1 hok).1
    have hle := hK p 0 0x80000001 none (opening soloSubs) part i j hok hback
    rw [service_of_continues hw hcont (hback.imp fun _ h => h.1),
      service_of_continues hw hcont (hback.imp fun _ h => h.2), hi, hj, hi₀, hj₀, sub_zero, sub_zero] at hle
    have hmax : (pairConfig p).scheduling.deadlineBoostMax = 4 := rfl
    have hfew : 1 / keyWeight (pairConfig p) j ≤ 1 := (div_le_one (zero_lt_one.trans_le hwj)).2 hwj
    have hmany : (N : ℚ) / 2 ≤ N / keyWeight (pairConfig p) i :=
      div_le_div_of_nonneg_left N.cast_nonneg hwi hwi'
    rw [hmax] at hle
    linarith only [hN, hle, hfew, hmany]

end InferenceScheduler
