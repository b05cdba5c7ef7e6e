/-
Fairness with batching. A batch is charged to the flow of each of its members,
so flows that were not chosen move too: flows stay together while batches are
of one flow, and drift apart without a bound when they are not.
-/
import Mathlib.Algebra.Order.Archimedean.Basic
import Mathlib.Data.List.Perm.Subperm
import InferenceScheduler.Rounds

namespace InferenceScheduler

open Machine

/-! ## Batches of two flows -/

/-- Sorting brings an element of a kind to the front if its kind comes first. -/
theorem head_insertionSort {α : Type} {r : α → α → Prop} [DecidableRel r] {p : α → Prop} :
    ∀ l : List α, (∀ a ∈ l, ∀ b ∈ l, p a → ¬p b → r a b ∧ ¬r b a) → (∃ a ∈ l, p a) →
      ∃ a ∈ l, p a ∧ ∃ t, l.insertionSort r = a :: t
  | [], _, h => by simp at h
  | x :: l, hr, h => by
    by_cases hl : ∃ a ∈ l, p a
    · obtain ⟨a, ha, hpa, t, ht⟩ := head_insertionSort l
        (fun a ha b hb => hr a (List.mem_cons_of_mem x ha) b (List.mem_cons_of_mem x hb)) hl
      by_cases hx : r x a
      · refine ⟨x, List.mem_cons_self, ?_, a :: t, by simp [ht, hx]⟩
        by_contra hpx
        exact (hr a (List.mem_cons_of_mem x ha) x List.mem_cons_self hpa hpx).2 hx
      · exact ⟨a, List.mem_cons_of_mem x ha, hpa, t.orderedInsert r x, by simp [ht, hx]⟩
    · have hpx : p x := by
        obtain ⟨a, ha, hpa⟩ := h
        rcases List.mem_cons.1 ha with rfl | ha
        · exact hpa
        · exact absurd ⟨a, ha, hpa⟩ hl
      refine ⟨x, List.mem_cons_self, hpx, l.insertionSort r, ?_⟩
      cases ht : l.insertionSort r with
      | nil => simp [ht]
      | cons a t =>
        have ha : a ∈ l := (List.mem_insertionSort r).1 (ht ▸ List.mem_cons_self)
        have hx : r x a := (hr x List.mem_cons_self a (List.mem_cons_of_mem x ha) hpx fun hpa => hl ⟨a, ha, hpa⟩).1
        simp [ht, hx]

/-- Batches of two, and a tenant of weight 2. -/
def pairConfig (p : RetryPolicy) : SchedulerConfig :=
  { fairness := { tenantWeights := [{ tenant := ⟨1⟩, weight := 2 }] }, batch := { maxBatchSize := 2 }, retry := p }

/-- A request of the tenant of weight 2. -/
def heavySpec : RequestSpec := plainSpec

/-- A request of high priority, of a tenant of weight 1. -/
def urgentSpec : RequestSpec := { plainSpec with tenant := ⟨2⟩, priority := .high }

theorem keyWeight_heavy (p : RetryPolicy) : keyWeight (pairConfig p) (flowKey heavySpec) = 2 :=
  show keyWeight (pairConfig {}) (flowKey heavySpec) = 2 by decide +kernel

theorem keyWeight_urgent (p : RetryPolicy) : keyWeight (pairConfig p) (flowKey urgentSpec) = 1 :=
  show keyWeight (pairConfig {}) (flowKey urgentSpec) = 1 by decide +kernel

/-- The requests of these runs. -/
def PairSpec (spec : RequestSpec) : Prop := spec = heavySpec ∨ spec = urgentSpec

theorem PairSpec.eq_urgent {spec : RequestSpec} (h : PairSpec spec) (hk : flowKey spec = flowKey urgentSpec) :
    spec = urgentSpec := by
  rcases h with rfl | rfl
  · exact absurd hk (by decide)
  · rfl

theorem PairSpec.eq_heavy {spec : RequestSpec} (h : PairSpec spec) (hk : flowKey spec ≠ flowKey urgentSpec) :
    spec = heavySpec := by
  rcases h with rfl | rfl
  · rfl
  · exact absurd rfl hk

section pairs

variable {p : RetryPolicy} {n : ℕ} {s : Impl} {r : RequestId} {k : FlowKey}

/-- Requests of high priority are the first to be added to a batch. -/
theorem candidates_urgent (h : Cycling (pairConfig p) (plainWorker 3) 0 PairSpec n s) {spec : RequestSpec}
    (hspec : PairSpec spec) (hurgent : ∃ u ≠ r, s.Waiting u (flowKey urgentSpec)) :
    ∃ u ≠ r, s.Waiting u (flowKey urgentSpec) ∧ ∃ t, s.candidates r spec 0 = u :: t := by
  have hcfg : s.cfg = pairConfig p := h.stocked.config
  have hbucket : ∀ spec', PairSpec spec' → compatKey s.cfg spec' = compatKey s.cfg spec := by
    intro spec' hspec'
    rw [hcfg]
    rcases hspec' with rfl | rfl <;> rcases hspec with rfl | rfl <;> rfl
  have hmem : ∀ id, id ∈ (s.ready.bucket (compatKey s.cfg spec)).elems.filter (s.candidate r 0) →
      id ≠ r ∧ ∃ rec, s.core.Waits id rec := by
    intro id hid
    have hcand := (List.mem_filter.1 hid).2
    simp only [Impl.candidate, Bool.and_eq_true, bne_iff_ne, ne_eq, decide_eq_true_eq] at hcand
    obtain ⟨rec, hw⟩ := h.queued id hcand.1.2
    exact ⟨hcand.1.1, rec, hw⟩
  have hspecOf : ∀ id rec, s.core.Waits id rec → s.specOf id = rec.spec ∧ PairSpec rec.spec := by
    intro id rec hw
    exact ⟨Impl.specOf_of_find hw.1, h.stocked.specs id rec hw.1⟩
  obtain ⟨u, hu, hkey, t, ht⟩ := head_insertionSort (r := fun a b => s.batchLess 0 b a = false)
    (p := fun id => flowKey (s.specOf id) = flowKey urgentSpec)
    ((s.ready.bucket (compatKey s.cfg spec)).elems.filter (s.candidate r 0)) (fun a ha b hb hpa hpb => by
      obtain ⟨_, reca, hwa⟩ := hmem a ha
      obtain ⟨_, recb, hwb⟩ := hmem b hb
      obtain ⟨hea, hoka⟩ := hspecOf a reca hwa
      obtain ⟨heb, hokb⟩ := hspecOf b recb hwb
      have ha : s.specOf a = urgentSpec := hea.trans (hoka.eq_urgent (hea ▸ hpa))
      have hb : s.specOf b = heavySpec := heb.trans (hokb.eq_heavy (heb ▸ hpb))
      simp only [Impl.batchLess, ha, hb]
      exact ⟨rfl, fun hless => absurd (show true = false from hless) (by decide)⟩) (by
      obtain ⟨u, hne, rec, hw, hk⟩ := hurgent
      obtain ⟨hqueued, hmem', _⟩ := h.stocked.lined.queued u rec hw
      have hcfg' : s.core.cfg = s.cfg := rfl
      rw [hcfg', hbucket _ (hspecOf u rec hw).2] at hmem'
      refine ⟨u, List.mem_filter.2 ⟨hmem', ?_⟩, (hspecOf u rec hw).1 ▸ hk⟩
      have hidle := h.clock ▸ h.idle u rec hw.1
      simp only [Impl.candidate, bne_iff_ne.2 hne, show u ∈ s.ready.queued from hqueued, decide_true,
        show s.requests.find u = some rec from hw.1, hw.2, hidle, beq_self_eq_true, Bool.not_false, Bool.and_self])
  obtain ⟨hne, rec, hw⟩ := hmem u hu
  exact ⟨u, hne, ⟨rec, hw, (hspecOf u rec hw).1 ▸ hkey⟩, t, ht⟩

/-- The batch of a request is it and a request of high priority. -/
theorem planMembers_pair (h : Cycling (pairConfig p) (plainWorker 3) 0 PairSpec n s) (hr : s.Waiting r k)
    (hurgent : ∃ u ≠ r, s.Waiting u (flowKey urgentSpec)) :
    ∃ u ≠ r, s.Waiting u (flowKey urgentSpec) ∧ s.planMembers r 0 = [r, u] := by
  have hcfg : s.cfg = pairConfig p := h.stocked.config
  obtain ⟨rec, ⟨hf, _⟩, _⟩ := hr
  have hf : s.requests.find r = some rec := hf
  have hok : ∀ id, (∃ rec, s.requests.find id = some rec) → PairSpec (s.specOf id) := by
    intro id hid
    obtain ⟨rec, hf⟩ := hid
    rw [Impl.specOf_of_find hf]
    exact h.stocked.specs id rec hf
  have hlimit : ∀ spec, PairSpec spec → Impl.batchLimit (pairConfig p) spec = 2 ∧ spec.tokens.total = 0 := by
    intro spec hspec
    rcases hspec with rfl | rfl <;> exact ⟨rfl, rfl⟩
  have hspec := h.stocked.specs r rec hf
  obtain ⟨u, hne, hu, t, ht⟩ := candidates_urgent h hspec hurgent
  have hfill : ∀ ids tok, s.fillBatch 2 ids [r, u] tok = [r, u] := by
    intro ids tok
    cases ids with
    | nil => rfl
    | cons => rw [Impl.fillBatch, if_pos (by simp)]
  have hu' : ∃ rec, s.requests.find u = some rec := by
    obtain ⟨recu, hwu, _⟩ := hu
    exact ⟨recu, hwu.1⟩
  have hform : s.formBatch r 0 = [r, u] := by
    simp only [Impl.formBatch, hf, ht, hcfg, (hlimit _ hspec).1, (hlimit _ hspec).2]
    rw [Impl.fillBatch, if_neg (by simp), hcfg, (hlimit _ (hok u hu')).2]
    exact hfill t 0
  refine ⟨u, hne, hu, ?_⟩
  simp [Impl.planMembers, hform]

/-- What waits in these runs: two requests of the heavy tenant, and three of
high priority. -/
def pairSubs : List (RequestSpec × RequestId) :=
  [(heavySpec, ⟨1⟩), (heavySpec, ⟨2⟩), (urgentSpec, ⟨3⟩), (urgentSpec, ⟨4⟩), (urgentSpec, ⟨5⟩)]

theorem spares_pair (h : Cycling (pairConfig p) (plainWorker 3) 0 PairSpec n s)
    (hall : ∀ x ∈ pairSubs, s.Waiting x.2 (flowKey x.1)) {u : RequestId} (hu : s.Waiting u (flowKey urgentSpec)) :
    s.Spares [r, u] := by
  intro r' k' hw'
  obtain ⟨rec, hw, rfl⟩ := hw'
  have hpick : ∀ (l m : List RequestId), l.Nodup → m.length < l.length → ∃ x ∈ l, x ∉ m := by
    intro l m hl hlen
    by_contra hnone
    push Not at hnone
    exact absurd (List.Nodup.subperm hl hnone).length_le (not_le.2 hlen)
  rcases h.stocked.specs r' rec hw.1 with hs | hs
  · obtain ⟨x, hx, hne⟩ := hpick [⟨1⟩, ⟨2⟩] [r] (by decide) (by simp)
    have hwx : s.Waiting x (flowKey heavySpec) := by
      simp only [List.mem_cons, List.not_mem_nil, or_false] at hx
      rcases hx with rfl | rfl
      · exact hall (heavySpec, ⟨1⟩) (by simp [pairSubs])
      · exact hall (heavySpec, ⟨2⟩) (by simp [pairSubs])
    refine ⟨x, ?_, hs ▸ hwx⟩
    have hxu : x ≠ u := by
      rintro rfl
      exact absurd (hwx.flow_eq hu) (by decide)
    simpa [hxu] using hne
  · obtain ⟨x, hx, hne⟩ := hpick [⟨3⟩, ⟨4⟩, ⟨5⟩] [r, u] (by decide) (by simp)
    refine ⟨x, hne, hs ▸ ?_⟩
    simp only [List.mem_cons, List.not_mem_nil, or_false] at hx
    rcases hx with rfl | rfl | rfl
    · exact hall (urgentSpec, ⟨3⟩) (by simp [pairSubs])
    · exact hall (urgentSpec, ⟨4⟩) (by simp [pairSubs])
    · exact hall (urgentSpec, ⟨5⟩) (by simp [pairSubs])

/-- Whichever flow is chosen, the flow of high priority gets ahead by another
half. -/
theorem pair_round {c : Calls} (h : Cycling (pairConfig p) (plainWorker 3) 0 PairSpec n c.state) (hseeds : c.seeds = [])
    (hall : ∀ x ∈ pairSubs, c.state.Waiting x.2 (flowKey x.1)) (hn : ((n + 2 : ℕ) : ℤ) ≤ p.maxAttempts) :
    ∃ ops, Cycle (pairConfig p) (plainWorker 3) 0 PairSpec (fun c op => InTurn c op ∧ Continues c op) (n + 2) c ops ∧
      (planning.run c ops).seeds = [] ∧
      (planning.run c ops).state.ready.fair.finish (flowKey heavySpec) +
          (c.state.ready.fair.finish (flowKey urgentSpec) - c.state.ready.fair.finish (flowKey heavySpec)) + 1 / 2 ≤
        (planning.run c ops).state.ready.fair.finish (flowKey urgentSpec) := by
  have hurgent : ∀ r : RequestId, ∃ u ≠ r, c.state.Waiting u (flowKey urgentSpec) := by
    intro r
    by_cases hr : r = ⟨3⟩
    · exact ⟨⟨4⟩, by simp [hr], hall (urgentSpec, ⟨4⟩) (by simp [pairSubs])⟩
    · exact ⟨⟨3⟩, Ne.symm hr, hall (urgentSpec, ⟨3⟩) (by simp [pairSubs])⟩
  obtain ⟨r, k, ops, hw, _, hcycle, hend, hfinish⟩ := h.round hseeds ⟨_, _, hall (heavySpec, ⟨1⟩) (by simp [pairSubs])⟩
    rfl rfl (m := 2) (by omega) hn fun r k hw _ => by
      obtain ⟨u, _, hu, hms⟩ := planMembers_pair h hw (hurgent r)
      rw [hms]
      exact ⟨rfl, spares_pair h hall hu⟩
  refine ⟨ops, hcycle, hend, ?_⟩
  obtain ⟨u, _, hu, hms⟩ := planMembers_pair h hw (hurgent r)
  have hheavy := keyWeight_heavy p
  have hlight := keyWeight_urgent p
  have hne : flowKey heavySpec ≠ flowKey urgentSpec := by decide
  rw [hfinish, hfinish, hms, List.map_cons, List.map_cons, List.map_nil, h.bill_eq hw, h.bill_eq hu]
  have hk : k = flowKey heavySpec ∨ k = flowKey urgentSpec := by
    obtain ⟨rec, hwr, rfl⟩ := hw
    rcases h.stocked.specs r rec hwr.1 with hs | hs <;> simp [hs]
  rcases hk with rfl | rfl
  · simp only [hheavy, hlight, hne, hne.symm, List.filter_cons, List.filter_nil, decide_true, decide_false, if_true,
      Bool.false_eq_true, if_false, List.map_cons, List.map_nil, List.sum_cons, List.sum_nil]
    linarith
  · simp only [hlight, hne.symm, List.filter_cons, List.filter_nil, decide_true, decide_false, if_true,
      Bool.false_eq_true, if_false, List.map_cons, List.map_nil, List.sum_cons, List.sum_nil]
    linarith

end pairs

theorem PairSpec.usable {spec : RequestSpec} (h : PairSpec spec) (p : RetryPolicy) :
    Usable (pairConfig p) (plainWorker 3) 0 spec := by
  rcases h with rfl | rfl
  · exact ⟨by rw [flowWeight_eq, keyWeight_heavy]; norm_num, rfl, rfl, rfl⟩
  · exact ⟨by rw [flowWeight_eq, keyWeight_urgent]; norm_num, rfl, rfl, rfl⟩

/-- Runs in which the flow of high priority gets ahead by any amount. -/
theorem pair_drift (N : ℕ) : ∃ p part,
    let c := planning.run ⟨Impl.init (pairConfig p) 0 0x80000001 none, []⟩ (opening pairSubs)
    planning.Allowed (fun c op => InTurn c op ∧ Continues c op) c part ∧
      planning.Throughout (fun c => c.state.backlogged (flowKey heavySpec) = true ∧
        c.state.backlogged (flowKey urgentSpec) = true) c part ∧
      (planning.run c part).state.ready.fair.finish (flowKey heavySpec) + N / 2 ≤
        (planning.run c part).state.ready.fair.finish (flowKey urgentSpec) := by
  set p : RetryPolicy := { maxAttempts := ((1 + 2 * N : ℕ) : ℤ) } with hp
  set s := scheduler.run (Impl.init (pairConfig {}) 0 0x80000001 none) (opening pairSubs) with hs
  obtain ⟨hrun, hcyc⟩ := Cycling.of_opening (pairConfig {}) PairSpec pairSubs p
    (by simp [pairSubs, PairSpec]) (fun spec hspec => hspec.usable p) hs.symm (by decide +kernel)
  have hstart : ∀ x ∈ pairSubs, s.Waiting x.2 (flowKey x.1) := by decide +kernel
  have hlevel : s.ready.fair.finish (flowKey heavySpec) = s.ready.fair.finish (flowKey urgentSpec) := by decide +kernel
  obtain ⟨part, hcycle, _, _, _, hgap⟩ := Cycle.iterate (fun c op => InTurn c op ∧ Continues c op) (1 + 2 * ·)
    (J := fun t c => Cycling (pairConfig p) (plainWorker 3) 0 PairSpec (1 + 2 * t) c.state ∧ c.seeds = [] ∧
      (∀ x ∈ pairSubs, c.state.Waiting x.2 (flowKey x.1)) ∧
      c.state.ready.fair.finish (flowKey heavySpec) + t / 2 ≤ c.state.ready.fair.finish (flowKey urgentSpec))
    N (fun _ _ hJ => hJ.1) (fun t ht c hJ => by
      obtain ⟨hcyc, hseeds, hall, hgap⟩ := hJ
      obtain ⟨ops, hcycle, hend, hmore⟩ := pair_round hcyc hseeds hall (by rw [hp]; push_cast; omega)
      refine ⟨ops, hcycle, hcycle.after, hend, fun x hx => (hcycle.waiting _ _).2 (hall x hx), ?_⟩
      push_cast
      linarith) (c := ⟨s.withRetry p, []⟩) ⟨hcyc, rfl, hstart, by
        rw [Nat.cast_zero, zero_div, add_zero]
        exact hlevel.le⟩
  refine ⟨p, part, ?_⟩
  rw [show Impl.init (pairConfig p) 0 0x80000001 none =
    Impl.init { pairConfig {} with retry := p } 0 0x80000001 none from rfl, hrun]
  refine ⟨hcycle.allowed, hcycle.backlogged.imp fun c' hc' => ⟨?_, ?_⟩, hgap⟩
  · exact hc' ⟨1⟩ _ (hstart (heavySpec, ⟨1⟩) (by simp [pairSubs]))
  · exact hc' ⟨3⟩ _ (hstart (urgentSpec, ⟨3⟩) (by simp [pairSubs]))

/-! ## Calls that overlap -/

/-- A request that is not batched. -/
def soloSpec (t : UInt64) : RequestSpec := { plainSpec with tenant := ⟨t⟩, maxBatchSize := 1 }

def soloSubs : List (RequestSpec × RequestId) :=
  [(soloSpec 1, ⟨1⟩), (soloSpec 1, ⟨2⟩), (soloSpec 2, ⟨3⟩), (soloSpec 2, ⟨4⟩)]

def SoloSpec (spec : RequestSpec) : Prop := spec = soloSpec 1 ∨ spec = soloSpec 2

theorem keyWeight_solo (p : RetryPolicy) : keyWeight (pairConfig p) (flowKey (soloSpec 1)) = 2 ∧
    keyWeight (pairConfig p) (flowKey (soloSpec 2)) = 1 :=
  show keyWeight (pairConfig {}) (flowKey (soloSpec 1)) = 2 ∧ keyWeight (pairConfig {}) (flowKey (soloSpec 2)) = 1 by
    decide +kernel

theorem SoloSpec.usable {spec : RequestSpec} (h : SoloSpec spec) (p : RetryPolicy) :
    Usable (pairConfig p) (plainWorker 3) 0 spec := by
  rcases h with rfl | rfl
  · exact ⟨by rw [flowWeight_eq, (keyWeight_solo p).1]; norm_num, rfl, rfl, rfl⟩
  · exact ⟨by rw [flowWeight_eq, (keyWeight_solo p).2]; norm_num, rfl, rfl, rfl⟩

theorem SoloSpec.limit {spec : RequestSpec} (h : SoloSpec spec) (p : RetryPolicy) :
    Impl.batchLimit (pairConfig p) spec = 1 := by
  rcases h with rfl | rfl <;> rfl

theorem SoloSpec.no_deadline {spec : RequestSpec} (h : SoloSpec spec) : spec.deadline.valid = false := by
  rcases h with rfl | rfl <;> rfl

/-- These requests make batches of one flow. -/
theorem SoloSpec.oneFlow {p : RetryPolicy} {s : Impl} (h : Stocked (pairConfig p) SoloSpec s.core) (r : RequestId)
    (ex : Bool) : OneFlow s r ex := by
  refine oneFlow_of_limit r ex h.lined fun id rec hf => ?_
  rw [show s.cfg = pairConfig p from h.config]
  exact ⟨((h.specs id rec hf).usable p).weight, ((h.specs id rec hf).limit p).le⟩

theorem SoloSpec.twice {spec : RequestSpec} (h : SoloSpec spec) :
    ∃ a b, a ≠ b ∧ (spec, a) ∈ soloSubs ∧ (spec, b) ∈ soloSubs := by
  rcases h with rfl | rfl
  · exact ⟨⟨1⟩, ⟨2⟩, by decide, by simp [soloSubs], by simp [soloSubs]⟩
  · exact ⟨⟨3⟩, ⟨4⟩, by decide, by simp [soloSubs], by simp [soloSubs]⟩

/-- Runs of overlapping calls in which one flow is served any number of times,
and the other once. -/
theorem overlap_drift (N : ℕ) : ∃ p part i j,
    let c := planning.run ⟨Impl.init (pairConfig p) 0 0x80000001 none, []⟩ (opening soloSubs)
    planning.Allowed Continues c part ∧
      planning.Throughout (fun c => c.state.backlogged i = true ∧ c.state.backlogged j = true) c part ∧
      c.state.ready.fair.finish i = 0 ∧ c.state.ready.fair.finish j = 0 ∧
      (planning.run c part).state.ready.fair.finish i = N / keyWeight (pairConfig p) i ∧
      (planning.run c part).state.ready.fair.finish j = 1 / keyWeight (pairConfig p) j ∧
      (0 < keyWeight (pairConfig p) i ∧ keyWeight (pairConfig p) i ≤ 2) ∧ 1 ≤ keyWeight (pairConfig p) j := by
  set p : RetryPolicy := { maxAttempts := ((1 + 1 + N : ℕ) : ℤ) } with hp
  set s := scheduler.run (Impl.init (pairConfig {}) 0 0x80000001 none) (opening soloSubs) with hs
  obtain ⟨hrun, hcyc⟩ := Cycling.of_opening (pairConfig {}) SoloSpec soloSubs p (by simp [soloSubs, SoloSpec])
    (fun spec hspec => hspec.usable p) hs.symm (by decide +kernel)
  have hstart : ∀ x ∈ soloSubs, s.Waiting x.2 (flowKey x.1) := by decide +kernel
  have hzero : s.ready.fair.finish (flowKey (soloSpec 1)) = 0 ∧ s.ready.fair.finish (flowKey (soloSpec 2)) = 0 := by
    decide +kernel
  have h₁ : s.Waiting ⟨1⟩ (flowKey (soloSpec 1)) := hstart (soloSpec 1, ⟨1⟩) (by simp [soloSubs])
  have h₃ : s.Waiting ⟨3⟩ (flowKey (soloSpec 2)) := hstart (soloSpec 2, ⟨3⟩) (by simp [soloSubs])
  obtain ⟨i, j, part, hpair, hcycle, hi, hj⟩ := Cycling.overlap (c := ⟨s.withRetry p, []⟩) hcyc rfl
    (hcyc.plenty hstart fun spec hspec => hspec.twice) (fun spec hspec => (hspec.limit p).le)
    (fun spec hspec => hspec.no_deadline) rfl rfl
    (show flowKey (soloSpec 1) ≠ flowKey (soloSpec 2) by decide) ⟨⟨1⟩, h₁⟩ ⟨⟨3⟩, h₃⟩ (fun r k hw => by
      obtain ⟨rec, hw, rfl⟩ := hw
      rcases hcyc.stocked.specs r rec hw.1 with hs | hs <;> simp [hs]) (hzero.1.trans hzero.2.symm) N le_rfl
  refine ⟨p, part, i, j, ?_⟩
  rw [show Impl.init (pairConfig p) 0 0x80000001 none =
    Impl.init { pairConfig {} with retry := p } 0 0x80000001 none from rfl, hrun]
  have hweights := keyWeight_solo p
  rcases hpair with ⟨rfl, rfl⟩ | ⟨rfl, rfl⟩
  · refine ⟨hcycle.allowed, hcycle.backlogged.imp fun c' hc' => ⟨hc' _ _ h₁, hc' _ _ h₃⟩, hzero.1, hzero.2,
      hi.trans ?_, hj.trans ?_, ?_, hweights.2.ge⟩
    · exact (congrArg (· + _) hzero.1).trans (zero_add _)
    · exact (congrArg (· + _) hzero.2).trans (zero_add _)
    · rw [hweights.1]
      norm_num
  · refine ⟨hcycle.allowed, hcycle.backlogged.imp fun c' hc' => ⟨hc' _ _ h₃, hc' _ _ h₁⟩, hzero.2, hzero.1,
      hi.trans ?_, hj.trans ?_, ?_, ?_⟩
    · exact (congrArg (· + _) hzero.2).trans (zero_add _)
    · exact (congrArg (· + _) hzero.1).trans (zero_add _)
    · rw [hweights.2]
      norm_num
    · rw [hweights.1]
      norm_num

/-! ## Fairness with batches -/

/-- Requests are submitted on the terms of `FlowSpec`. -/
def FlowSubmit (cfg : SchedulerConfig) (B : ℤ) (C D : ℚ) : Op → Prop
  | .submit spec _ => FlowSpec cfg B C D spec
  | _ => True

/-- Batches are of one flow. -/
def OneFlowDispatch (c : Calls) : Op → Prop
  | .planDispatch r ex => OneFlow c.state r ex
  | _ => True

instance (cfg : SchedulerConfig) (B : ℤ) (C D : ℚ) (spec : RequestSpec) : Decidable (FlowSpec cfg B C D spec) :=
  decidable_of_iff (Impl.batchLimit cfg spec ≤ B ∧ 0 < flowWeight cfg spec ∧ max 1 spec.demand.costUnits ≤ C ∧
      B * C / flowWeight cfg spec ≤ D)
    ⟨fun h => ⟨h.1, h.2.1, h.2.2.1, h.2.2.2⟩, fun h => ⟨h.limit, h.weight, h.cost, h.share⟩⟩

instance (cfg : SchedulerConfig) (B : ℤ) (C D : ℚ) (op : Op) : Decidable (FlowSubmit cfg B C D op) := by
  apply @Op.casesOn _ op <;> (intros; dsimp only [FlowSubmit]; infer_instance)

instance (s : Impl) (r : RequestId) (ex : Bool) : Decidable (OneFlow s r ex) :=
  decidable_of_iff (∀ out ∈ (s.doPlanDispatch r ex).2.toOption, out.decision = .dispatch →
      ∀ id ∈ out.batchMembers, flowKey (s.specOf id) = flowKey (s.specOf r))
    ⟨fun h out ho => h out (by rw [ho]; rfl), fun h out ho => h out (by
      cases hres : (s.doPlanDispatch r ex).2 with
      | error => rw [hres] at ho; simp [Except.toOption] at ho
      | ok out' => rw [hres] at ho; exact congrArg Except.ok (Option.some.inj ho))⟩

instance (c : Calls) (op : Op) : Decidable (OneFlowDispatch c op) := by
  apply @Op.casesOn _ op <;> (intros; dsimp only [OneFlowDispatch]; infer_instance)

/-- In every run of such operations, two flows that have stayed backlogged are
within `K` of each other. -/
def SpreadWithin (cfg : SchedulerConfig) (allowed : Calls → Op → Prop) (K : ℚ) : Prop :=
  ∀ (now : ClockTime) (salt : UInt64) (epoch : Option SchedulerEpoch) (before part : List Op) (i j : FlowKey),
    let c := planning.run ⟨Impl.init cfg now salt epoch, []⟩ before
    planning.Allowed allowed ⟨Impl.init cfg now salt epoch, []⟩ (before ++ part) →
    planning.Throughout (fun c => c.state.backlogged i = true ∧ c.state.backlogged j = true) c part →
    |((planning.run c part).state.ready.flow i).virtualFinish -
      ((planning.run c part).state.ready.flow j).virtualFinish| ≤ K

/-- **Weighted fairness in batches of one flow.** In runs without a recovery,
requests have no deadline, calls of `plan_next_dispatch` do not overlap and each
batch is of one flow. Then flows that have stayed backlogged are within what a
batch adds to one flow. -/
theorem fair_in_one_flow_batches {cfg : SchedulerConfig} {B : ℤ} {C D : ℚ} (hD : 0 ≤ D) :
    SpreadWithin cfg (fun c op => InTurn c op ∧ ThroughPlanNext c op ∧ FlowSubmit cfg B C D op ∧ NoDeadline op ∧
      OneFlowDispatch c op) D := by
  intro now salt epoch before part i j c hok hback
  have hstep : ∀ c op, (InTurn c op ∧ ThroughPlanNext c op ∧ FlowSubmit cfg B C D op ∧ NoDeadline op ∧
      OneFlowDispatch c op) → c.Calm cfg B C D → (planning.next c op).Calm cfg B C D := by
    intro c op hop hc
    obtain ⟨hturn, hthrough, hsub, hno, hone⟩ := hop
    refine hc.step hno fun hboost =>
      hc.1.step hD le_rfl ⟨hturn, hthrough, fun spec pre he => ?_, hboost, fun r ex he => ?_⟩
    · subst he
      exact hsub
    · subst he
      exact hone
  have hend := run_invariant hstep (.init cfg now salt epoch B C D) hok
  rw [run_append] at hend
  obtain ⟨hi, hj⟩ := hback.last
  have heven := hend.1.2
  have hi := heven.lined.active i (heven.lined.entries_of_backlogged hi)
  have hj := heven.lined.active j (heven.lined.entries_of_backlogged hj)
  have hfair := heven.fair
  rw [add_zero] at hfair
  have hij := hfair.spread hj (i := i)
  have hji := hfair.spread hi (i := j)
  rw [abs_sub_le_iff]
  exact ⟨sub_le_iff_le_add'.2 hij, sub_le_iff_le_add'.2 hji⟩

/-- Two tenants ask for different models, so their requests do not share
batches. -/
theorem fair_in_one_flow_batches_two_models :
    let spec (t : UInt64) : RequestSpec := { plainSpec with tenant := ⟨t⟩, model := ⟨t⟩ }
    let before : List Op := opening [(spec 1, ⟨1⟩), (spec 1, ⟨2⟩), (spec 1, ⟨3⟩), (spec 2, ⟨4⟩), (spec 2, ⟨5⟩),
      (spec 2, ⟨6⟩)]
    let part : List Op := [.planNextSeed, .planDispatch ⟨1⟩ false, .planNextSeed, .planDispatch ⟨4⟩ false]
    let c := planning.run (planning.run ⟨Impl.init (pairConfig {}) 0 0x80000001 none, []⟩ before) part
    (c.state.ready.flow (flowKey (spec 1))).virtualFinish = 1 ∧
      (c.state.ready.flow (flowKey (spec 2))).virtualFinish = 2 ∧
      |(c.state.ready.flow (flowKey (spec 1))).virtualFinish -
        (c.state.ready.flow (flowKey (spec 2))).virtualFinish| ≤ 2 :=
  ⟨by decide +kernel, by decide +kernel,
    fair_in_one_flow_batches (B := 2) (C := 1) zero_le_two 0 0x80000001 none _ _ _ _ (by decide +kernel)
      (by decide +kernel)⟩

theorem Continues.terms {c : Calls} {op : Op} (h : Continues c op) (cfg : SchedulerConfig) (B : ℤ) (C D : ℚ) :
    FlowSubmit cfg B C D op ∧ NoDeadline op := by
  cases op with
  | submit spec pre => exact absurd rfl (h.2 spec pre)
  | _ => exact ⟨trivial, trivial⟩

theorem Usable.flowSpec {p : RetryPolicy} {reg : WorkerRegistration} {now : ClockTime} {spec : RequestSpec}
    (h : Usable (pairConfig p) reg now spec) (hlimit : Impl.batchLimit (pairConfig p) spec ≤ 2)
    (hw : 1 ≤ flowWeight (pairConfig p) spec) : FlowSpec (pairConfig p) 2 1 2 spec := by
  refine ⟨hlimit, h.weight, by rw [h.cost, max_self], ?_⟩
  rw [div_le_iff₀ h.weight]
  push_cast
  linarith

theorem PairSpec.terms {spec : RequestSpec} (h : PairSpec spec) (p : RetryPolicy) :
    FlowSpec (pairConfig p) 2 1 2 spec ∧ spec.deadline.valid = false := by
  have husable := h.usable p
  rcases h with rfl | rfl
  · exact ⟨husable.flowSpec le_rfl (by rw [flowWeight_eq, keyWeight_heavy]; norm_num), rfl⟩
  · exact ⟨husable.flowSpec le_rfl (by rw [flowWeight_eq, keyWeight_urgent]), rfl⟩

theorem SoloSpec.terms {spec : RequestSpec} (h : SoloSpec spec) (p : RetryPolicy) :
    FlowSpec (pairConfig p) 2 1 2 spec ∧ spec.deadline.valid = false := by
  have husable := h.usable p
  have hlimit : Impl.batchLimit (pairConfig p) spec ≤ 2 := (h.limit p).trans_le (by norm_num)
  rcases h with rfl | rfl
  · exact ⟨husable.flowSpec hlimit (by rw [flowWeight_eq, (keyWeight_solo p).1]; norm_num), rfl⟩
  · exact ⟨husable.flowSpec hlimit (by rw [flowWeight_eq, (keyWeight_solo p).2]), rfl⟩

/-- **Batches let flows drift apart.** With two requests to a batch, weights 1
and 2 and a cost of 1, flows that stay backlogged are not within any bound: not
when calls do not overlap, and not when each batch is of one flow. -/
theorem batches_drift :
    (¬∃ K, ∀ p, SpreadWithin (pairConfig p) (fun c op => InTurn c op ∧ ThroughPlanNext c op ∧
      FlowSubmit (pairConfig p) 2 1 2 op ∧ NoDeadline op) K) ∧
      ¬∃ K, ∀ p, SpreadWithin (pairConfig p) (fun c op => ThroughPlanNext c op ∧
        FlowSubmit (pairConfig p) 2 1 2 op ∧ NoDeadline op ∧ OneFlowDispatch c op) K := by
  constructor
  · intro hbound
    obtain ⟨K, hK⟩ := hbound
    obtain ⟨N, hN⟩ := exists_nat_gt (2 * K)
    obtain ⟨p, part, hallowed, hback, hgap⟩ := pair_drift N
    have hsub : ∀ x ∈ pairSubs, PairSpec x.1 := by simp [pairSubs, PairSpec]
    have hle := hK p 0 0x80000001 none (opening pairSubs) part _ _
      (allowed_append.2 ⟨allowed_opening (fun _ => ⟨trivial, trivial, trivial, trivial⟩) fun x hx _ =>
          ⟨trivial, trivial, (hsub x hx).terms p⟩,
        hallowed.imp fun c op hop => ⟨hop.1, hop.2.1, hop.2.terms _ _ _ _⟩⟩) hback
    have hheavy := (abs_sub_le_iff.1 hle).2
    have hgap' : N / 2 ≤ K := (le_sub_iff_add_le'.2 hgap).trans hheavy
    linarith
  · intro hbound
    obtain ⟨K, hK⟩ := hbound
    obtain ⟨N, hN⟩ := exists_nat_gt (2 * (K + 1))
    obtain ⟨p, part, i, j, hallowed, hback, _, _, hi, hj, ⟨hwi, hwi'⟩, hwj⟩ := overlap_drift N
    have hsub : ∀ x ∈ soloSubs, SoloSpec x.1 := by simp [soloSubs, SoloSpec]
    have hterms : planning.Allowed (fun c op => ThroughPlanNext c op ∧ FlowSubmit (pairConfig p) 2 1 2 op ∧
          NoDeadline op ∧ ∀ spec pre, op = .submit spec pre → SoloSpec spec)
        ⟨Impl.init (pairConfig p) 0 0x80000001 none, []⟩ (opening soloSubs ++ part) := by
      refine allowed_append.2 ⟨allowed_opening (fun _ => ⟨trivial, trivial, trivial, by simp⟩) fun x hx _ => ?_,
        hallowed.imp fun c op hop => ?_⟩
      · refine ⟨trivial, ((hsub x hx).terms p).1, ((hsub x hx).terms p).2, fun spec pre he => ?_⟩
        cases he
        exact hsub x hx
      · obtain ⟨hflow, hno⟩ := hop.terms (pairConfig p) 2 1 2
        exact ⟨hop.1, hflow, hno, fun spec pre he => absurd he (hop.2 spec pre)⟩
    have hle := hK p 0 0x80000001 none (opening soloSubs) part i j
      (hterms.of_invariant (I := fun c => Stocked (pairConfig p) SoloSpec c.state.core)
        (fun c op hop hc => hc.next op hop.2.2.2)
        (fun c op hc hop => ⟨hop.1, hop.2.1, hop.2.2.1, by
          cases op with
          | planDispatch r ex => exact SoloSpec.oneFlow hc r ex
          | _ => trivial⟩)
        (Stocked.init _ _ _ _ _)) hback
    have hdiff : N / keyWeight (pairConfig p) i - 1 / keyWeight (pairConfig p) j ≤ K := by
      rw [← hi, ← hj]
      exact (abs_sub_le_iff.1 hle).1
    have hfew : 1 / keyWeight (pairConfig p) j ≤ 1 := (div_le_one (zero_lt_one.trans_le hwj)).2 hwj
    have hmany : (N : ℚ) / 2 ≤ N / keyWeight (pairConfig p) i :=
      div_le_div_of_nonneg_left N.cast_nonneg hwi hwi'
    linarith only [hN, hdiff, hfew, hmany]

end InferenceScheduler
