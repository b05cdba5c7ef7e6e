/-
Runs in rounds. In a round a seed is chosen and dispatched, its batch fails, and
the same requests wait as before; what the round adds to the virtual times
follows from the choice of the seed. The runs that move flows apart without a
bound are made of such rounds, and start with an opening that is evaluated.
-/
import InferenceScheduler.Cycling

namespace InferenceScheduler

open Machine

/-! ## Rounds -/

/-- An operation that neither submits nor plans. -/
def Routine : Op → Prop
  | .submit .. | .planNextSeed | .planDispatch .. => False
  | _ => True

/-- No operation removes a request or changes its spec. -/
theorem specOf_next {s : Impl} {r : RequestId} (op : Op) (h : (s.core.requests.find r).isSome) :
    ((scheduler.next s op).core.requests.find r).isSome ∧ (scheduler.next s op).core.specOf r = s.core.specOf r :=
  posts_invariant (I := fun b => (b.core.requests.find r).isSome ∧ b.core.specOf r = s.core.specOf r)
    (fun _ _ he hb => by
      obtain ⟨hsome, hspec⟩ := specOf_post he hb.1
      exact ⟨hsome, hspec.trans hb.2⟩) ⟨h, rfl⟩

/-- Who waits in a state waits in the other. -/
def Calls.Keeps (c c' : Calls) : Prop := ∀ r k, c.state.Waiting r k → c'.state.Waiting r k

/-- Requests fail one after the other and are queued again. Each flow has
another request queued, so none wakes up. -/
theorem Cycling.requeue {cfg : SchedulerConfig} {reg : WorkerRegistration} {now : ClockTime}
    {ok : RequestSpec → Prop} :
    ∀ (ids : List RequestId) {n : ℕ} {c : Calls}, Cycling cfg reg now ok n c.state →
      ((n + ids.length : ℕ) : ℤ) ≤ cfg.retry.maxAttempts →
      (∀ id ∈ ids, (c.state.core.requests.find id).isSome ∧
        ∃ r, c.state.Waiting r (flowKey (c.state.core.specOf id))) →
      ∃ ops, (∀ op ∈ ops, Routine op) ∧ Cycling cfg reg now ok (n + ids.length) (planning.run c ops).state ∧
        (planning.run c ops).seeds = c.seeds ∧ (planning.run c ops).state.ready.fair = c.state.ready.fair ∧
        (∀ r k, (planning.run c ops).state.Waiting r k ↔
          c.state.Waiting r k ∨ r ∈ ids ∧ k = flowKey (c.state.core.specOf r)) ∧
        planning.Throughout c.Keeps c ops
  | [], n, c, h, _, _ => ⟨[], by simp, h, rfl, rfl, by simp, fun _ _ hw => hw⟩
  | id :: ids, n, c, h, hn, hids => by
    obtain ⟨hsome, r₀, hw₀⟩ := hids id List.mem_cons_self
    obtain ⟨rec, hf⟩ := Option.isSome_iff_exists.1 hsome
    have hspec : c.state.core.specOf id = rec.spec := Core.specOf_of_find hf
    rw [hspec] at hw₀
    have hn₁ : (n : ℤ) < cfg.retry.maxAttempts := by
      rw [List.length_cons] at hn
      omega
    obtain ⟨hcyc, hfair, hwait⟩ := h.next_failure hf hn₁ (h.stocked.lined.entries_of_backlogged hw₀.backlogged)
    set op : Op := .complete (failure reg rec) with hop
    set c₁ : Calls := planning.next c op with hc₁
    have hstate : c₁.state = scheduler.next c.state op := rfl
    rw [← hstate] at hcyc hfair hwait
    obtain ⟨ops, hroutine, hcyc', hseeds, hfair', hwait', hkeep⟩ := requeue ids hcyc
      (by rw [List.length_cons] at hn; push_cast at hn ⊢; omega) fun id' hid' => by
        obtain ⟨hsome', r', hw'⟩ := hids id' (List.mem_cons_of_mem id hid')
        obtain ⟨hsome₁, hspec₁⟩ := specOf_next op hsome'
        exact ⟨hsome₁, r', (hwait r' _).2 (.inl (hspec₁.symm ▸ hw'))⟩
    refine ⟨op :: ops, ?_, ?_, hseeds, hfair'.trans hfair, fun r k => ?_, ?_, ?_⟩
    · intro op' hop'
      rcases List.mem_cons.1 hop' with rfl | hmem
      · trivial
      · exact hroutine op' hmem
    · rw [List.length_cons, Nat.add_comm ids.length 1, ← Nat.add_assoc]
      exact hcyc'
    · have hsame : r ∈ ids → c₁.state.core.specOf r = c.state.core.specOf r :=
        fun hr => (specOf_next op (hids r (List.mem_cons_of_mem id hr)).1).2
      rw [run_cons, hwait', hwait, List.mem_cons]
      constructor
      · intro hx
        rcases hx with (hw | ⟨rfl, hk⟩) | ⟨hr, hk⟩
        · exact .inl hw
        · exact .inr ⟨.inl rfl, hspec ▸ hk⟩
        · exact .inr ⟨.inr hr, hsame hr ▸ hk⟩
      · intro hx
        rcases hx with hw | ⟨rfl | hr, hk⟩
        · exact .inl (.inl hw)
        · exact .inl (.inr ⟨rfl, hspec ▸ hk⟩)
        · exact .inr ⟨hr, (hsame hr).symm ▸ hk⟩
    · exact fun _ _ hw => hw
    · exact hkeep.imp fun c' hc' r k hw => hc' r k ((hwait r k).2 (.inl hw))

/-- Every flow with a queued request has another one. -/
def Impl.Plenty (s : Impl) : Prop := ∀ r k, s.Waiting r k → ∃ r' ≠ r, s.Waiting r' k

/-- Every flow has a queued request besides these. -/
def Impl.Spares (s : Impl) (ms : List RequestId) : Prop := ∀ r k, s.Waiting r k → ∃ r' ∉ ms, s.Waiting r' k

theorem Cycling.plenty {cfg : SchedulerConfig} {reg : WorkerRegistration} {now : ClockTime} {ok : RequestSpec → Prop}
    {n : ℕ} {s : Impl} {subs : List (RequestSpec × RequestId)} (h : Cycling cfg reg now ok n s)
    (hall : ∀ x ∈ subs, s.Waiting x.2 (flowKey x.1))
    (htwo : ∀ spec, ok spec → ∃ a b, a ≠ b ∧ (spec, a) ∈ subs ∧ (spec, b) ∈ subs) : s.Plenty := by
  intro r k hw
  obtain ⟨rec, hw, rfl⟩ := hw
  obtain ⟨a, b, hab, ha, hb⟩ := htwo _ (h.stocked.specs r rec hw.1)
  by_cases hr : a = r
  · exact ⟨b, fun hbr => hab (hr.trans hbr.symm), hall _ hb⟩
  · exact ⟨a, hr, hall _ ha⟩

theorem Impl.Plenty.spares {s : Impl} (h : s.Plenty) (r : RequestId) : s.Spares [r] := by
  intro r' k' hw'
  by_cases hr : r' = r
  · obtain ⟨r'', hne, hw''⟩ := h r' k' hw'
    exact ⟨r'', by simpa using hr ▸ hne, hw''⟩
  · exact ⟨r', by simpa using hr, hw'⟩

theorem Impl.Plenty.congr {s s' : Impl} (hwait : ∀ r k, s'.Waiting r k ↔ s.Waiting r k) (h : s.Plenty) : s'.Plenty := by
  intro r k hw
  obtain ⟨r', hne, hw'⟩ := h r k ((hwait r k).1 hw)
  exact ⟨r', hne, (hwait r' k).2 hw'⟩

/-- Nothing is submitted, and dispatches are the second halves of calls. -/
def Continues (c : Calls) (op : Op) : Prop := ThroughPlanNext c op ∧ ∀ spec pre, op ≠ .submit spec pre

theorem Routine.continues {op : Op} (h : Routine op) (c : Calls) : InTurn c op ∧ Continues c op := by
  cases op with
  | submit | planNextSeed | planDispatch => exact h.elim
  | _ => exact ⟨trivial, trivial, by simp⟩

/-- A part of a run after which the same requests wait, and in which no flow
runs out of them. -/
structure Cycle (cfg : SchedulerConfig) (reg : WorkerRegistration) (now : ClockTime) (ok : RequestSpec → Prop)
    (allowed : Calls → Op → Prop) (n : ℕ) (c : Calls) (ops : List Op) : Prop where
  allowed : planning.Allowed allowed c ops
  after : Cycling cfg reg now ok n (planning.run c ops).state
  waiting : ∀ r k, (planning.run c ops).state.Waiting r k ↔ c.state.Waiting r k
  backlogged : planning.Throughout (fun c' => ∀ r k, c.state.Waiting r k → c'.state.backlogged k = true) c ops

section rounds

variable {cfg : SchedulerConfig} {reg : WorkerRegistration} {now : ClockTime} {ok : RequestSpec → Prop}
  {allowed : Calls → Op → Prop} {n n' : ℕ} {c : Calls}

theorem Cycle.nil (h : Cycling cfg reg now ok n c.state) : Cycle cfg reg now ok allowed n c [] :=
  ⟨trivial, h, fun _ _ => Iff.rfl, fun _ _ hw => hw.backlogged⟩

theorem Cycle.imp {allowed' : Calls → Op → Prop} (himp : ∀ c op, allowed c op → allowed' c op) {ops : List Op}
    (h : Cycle cfg reg now ok allowed n c ops) : Cycle cfg reg now ok allowed' n c ops :=
  ⟨h.allowed.imp himp, h.after, h.waiting, h.backlogged⟩

theorem Cycle.append {ops ops' : List Op} (h : Cycle cfg reg now ok allowed n c ops)
    (h' : Cycle cfg reg now ok allowed n' (planning.run c ops) ops') :
    Cycle cfg reg now ok allowed n' c (ops ++ ops') := by
  refine ⟨allowed_append.2 ⟨h.allowed, h'.allowed⟩, ?_, fun r k => ?_, throughout_append.2 ⟨h.backlogged, ?_⟩⟩
  · rw [run_append]
    exact h'.after
  · rw [run_append, h'.waiting, h.waiting]
  · exact h'.backlogged.imp fun c' hc' r k hw => hc' r k ((h.waiting r k).2 hw)

/-- A seed is dispatched and its batch fails: every request waits again, and
the flows are charged for the batch. -/
theorem Cycling.serve {r : RequestId} {k : FlowKey} (h : Cycling cfg reg now ok n c.state) (hr : c.state.Waiting r k)
    (hseed : r ∈ c.seeds) (hcap : reg.capability.totalCapacityUnits = 8) (hvalid : reg.worker.valid = true)
    {ms : List RequestId} (hms : c.state.planMembers r c.state.now = ms) (hlen : ms.length ≤ 8)
    (hn : ((n + ms.length : ℕ) : ℤ) ≤ cfg.retry.maxAttempts)
    (hspare : c.state.Spares ms) :
    ∃ ops, Cycle cfg reg now ok (fun c op => InTurn c op ∧ Continues c op) (n + ms.length) c ops ∧
      (planning.run c ops).seeds = c.seeds.erase r ∧
      (planning.run c ops).state.ready.fair = c.state.ready.fair.chargeAll (ms.map c.state.core.bill) := by
  obtain ⟨hcyc₁, hopen, pool, log, seq, hframe⟩ := h.next_report
  set op₁ := report reg c.state with hop₁
  set c₁ := planning.next c op₁ with hc₁
  have hstate₁ : c₁.state = { c.state with pool := pool, eventLog := log, eventSeq := seq } := hframe
  have hcyc₁ : Cycling cfg reg now ok n c₁.state := hcyc₁
  have hwait₁ : ∀ r' k', c₁.state.Waiting r' k' ↔ c.state.Waiting r' k' := by
    intro r' k'
    rw [hstate₁]
    rfl
  have hms₁ : c₁.state.planMembers r c₁.state.now = ms := by
    rw [← hms, hstate₁]
    refine Impl.planMembers_congr ?_ (fun _ => ?_) (fun _ _ => ?_) <;> rfl
  have hbill₁ : c₁.state.core.bill = c.state.core.bill := by
    rw [hstate₁]
    rfl
  have hfair₁ : c₁.state.ready.fair = c.state.ready.fair := by rw [hstate₁]
  obtain ⟨hcyc₂, hfair₂, hwait₂⟩ := hcyc₁.next_dispatch hopen ((hwait₁ r k).2 hr) hcap hvalid (hms₁ ▸ hlen)
  rw [hms₁] at hfair₂ hwait₂
  set c₂ := planning.next c₁ (.planDispatch r false) with hc₂
  have hstate₂ : c₂.state = (c₁.state.doPlanDispatch r false).1 := rfl
  rw [← hstate₂] at hcyc₂ hfair₂ hwait₂
  have hmember : ∀ id ∈ ms, c.state.Waiting id (flowKey (c.state.core.specOf id)) :=
    fun id hid => h.waiting_of_member hr (hms.symm ▸ hid)
  have hspec₂ : ∀ id ∈ ms, (c₂.state.core.requests.find id).isSome ∧
      c₂.state.core.specOf id = c.state.core.specOf id := by
    intro id hid
    obtain ⟨rec, hw, _⟩ := hmember id hid
    obtain ⟨hsome₁, hspec₁⟩ := specOf_next op₁ (Option.isSome_of_eq_some hw.1)
    obtain ⟨hsome₂, hspec₂⟩ := specOf_next (.planDispatch r false) hsome₁
    exact ⟨hsome₂, hspec₂.trans hspec₁⟩
  obtain ⟨ops, hroutine, hcyc₃, hseeds₃, hfair₃, hwait₃, hkeep⟩ := hcyc₂.requeue ms hn fun id hid => by
    obtain ⟨r', hr', hw'⟩ := hspare _ _ (hmember id hid)
    exact ⟨(hspec₂ id hid).1, r', (hwait₂ _ _).2 ⟨(hwait₁ _ _).2 ((hspec₂ id hid).2.symm ▸ hw'), hr'⟩⟩
  refine ⟨op₁ :: .planDispatch r false :: ops, ⟨?_, hcyc₃, fun r' k' => ?_, ?_⟩, hseeds₃, ?_⟩
  · exact ⟨(show Routine op₁ from trivial).continues c, ⟨trivial, hseed, by simp⟩,
      allowed_of_forall fun op hop c => (hroutine op hop).continues c⟩
  · rw [run_cons, run_cons, hwait₃, hwait₂, hwait₁]
    constructor
    · intro hx
      rcases hx with ⟨hw, _⟩ | ⟨hid, hk⟩
      · exact hw
      · rw [hk, (hspec₂ r' hid).2]
        exact hmember r' hid
    · intro hw
      by_cases hid : r' ∈ ms
      · obtain ⟨rec, hwr, hk'⟩ := hw
        refine .inr ⟨hid, ?_⟩
        rw [(hspec₂ r' hid).2, ← hk', Core.specOf_of_find hwr.1]
      · exact .inl ⟨hw, hid⟩
  · refine ⟨fun _ _ hw => hw.backlogged, fun _ _ hw => ((hwait₁ _ _).2 hw).backlogged, hkeep.imp fun c' hc' r' k' hw => ?_⟩
    obtain ⟨r'', hr'', hw''⟩ := hspare r' k' hw
    exact (hc' r'' k' ((hwait₂ r'' k').2 ⟨(hwait₁ r'' k').2 hw'', hr''⟩)).backlogged
  · rw [run_cons, run_cons, hfair₃, hfair₂, hfair₁, hbill₁]

/-- A seed is chosen, of a flow with the least effective finish. -/
theorem Cycling.pick (h : Cycling cfg reg now ok n c.state) (hsome : ∃ r k, c.state.Waiting r k) :
    Cycle cfg reg now ok Continues n c [.planNextSeed] ∧
      (∀ r t, (planning.next c .planNextSeed).state.planMembers r t = c.state.planMembers r t) ∧
      (planning.next c .planNextSeed).state.core.bill = c.state.core.bill ∧
      (∀ k, (planning.next c .planNextSeed).state.ready.fair.finish k = c.state.ready.fair.finish k) ∧
      ∃ r k, (planning.next c .planNextSeed).seeds = c.seeds ++ [r] ∧ c.state.Waiting r k ∧
        ∀ r' k', c.state.Waiting r' k' → c.state.core.effective now k ≤ c.state.core.effective now k' := by
  obtain ⟨hcyc, _, hfinish, r, k, hr, hw, hleast⟩ := h.next_seed hsome
  obtain ⟨flows, active, hsame⟩ := c.state.planNextSeed_idle h.idle
  have hstate : (planning.next c .planNextSeed).state =
    { c.state with ready := { c.state.ready with flows := flows, activeFlows := active } } := hsame
  have hwait : ∀ r k, (planning.next c .planNextSeed).state.Waiting r k ↔ c.state.Waiting r k := by
    intro r k
    rw [hstate]
    rfl
  refine ⟨⟨⟨⟨trivial, by simp⟩, trivial⟩, hcyc, hwait, fun _ _ hw => hw.backlogged,
    fun r k hw => ((hwait r k).2 hw).backlogged⟩, fun r t => ?_, ?_, hfinish, r, k, ?_, hw, ?_⟩
  · rw [hstate]
    refine Impl.planMembers_congr ?_ (fun _ => ?_) (fun _ _ => ?_) <;> rfl
  · rw [hstate]
    rfl
  · exact congrArg (c.seeds ++ Option.toList ·) hr
  · exact h.clock ▸ hleast

/-- A call of `plan_next_dispatch` whose batch fails. -/
theorem Cycling.round (h : Cycling cfg reg now ok n c.state) (hseeds : c.seeds = [])
    (hsome : ∃ r k, c.state.Waiting r k) (hcap : reg.capability.totalCapacityUnits = 8)
    (hvalid : reg.worker.valid = true) {m : ℕ} (hm : m ≤ 8) (hn : ((n + m : ℕ) : ℤ) ≤ cfg.retry.maxAttempts)
    (hbatch : ∀ r k, c.state.Waiting r k →
      (∀ r' k', c.state.Waiting r' k' → c.state.core.effective now k ≤ c.state.core.effective now k') →
      (c.state.planMembers r now).length = m ∧ c.state.Spares (c.state.planMembers r now)) :
    ∃ r k ops, c.state.Waiting r k ∧
      (∀ r' k', c.state.Waiting r' k' → c.state.core.effective now k ≤ c.state.core.effective now k') ∧
      Cycle cfg reg now ok (fun c op => InTurn c op ∧ Continues c op) (n + m) c ops ∧
      (planning.run c ops).seeds = [] ∧ ∀ k', (planning.run c ops).state.ready.fair.finish k' =
        c.state.ready.fair.finish k' +
          ((((c.state.planMembers r now).map c.state.core.bill).filter fun p => p.1 = k').map Prod.snd).sum := by
  obtain ⟨hpick, hmembers, hbill, hfinish, r, k, hseed, hw, hleast⟩ := h.pick hsome
  obtain ⟨hlen, hspare⟩ := hbatch r k hw hleast
  set c₁ := planning.next c .planNextSeed with hc₁
  have hwait₁ : ∀ r k, c₁.state.Waiting r k ↔ c.state.Waiting r k := hpick.waiting
  have hcyc₁ : Cycling cfg reg now ok n c₁.state := hpick.after
  rw [hseeds, List.nil_append] at hseed
  have hms : c₁.state.planMembers r c₁.state.now = c.state.planMembers r now := by rw [hcyc₁.clock, hmembers]
  obtain ⟨ops, hcycle, hseeds₁, hfair⟩ := hcyc₁.serve ((hwait₁ r k).2 hw) (by simp [hseed]) hcap hvalid hms
    (hlen.trans_le hm) (by rwa [hlen]) fun r' k' hw' => by
      obtain ⟨r'', hr'', hw''⟩ := hspare r' k' ((hwait₁ r' k').1 hw')
      exact ⟨r'', hr'', (hwait₁ r'' k').2 hw''⟩
  rw [hlen] at hcycle
  have hturn : Cycle cfg reg now ok (fun c op => InTurn c op ∧ Continues c op) n c [.planNextSeed] :=
    ⟨⟨⟨hseeds, hpick.allowed.1⟩, trivial⟩, hpick.after, hpick.waiting, hpick.backlogged⟩
  refine ⟨r, k, .planNextSeed :: ops, hw, hleast, hturn.append hcycle, ?_, fun k' => ?_⟩
  · rw [run_cons, ← hc₁, hseeds₁, hseed, List.erase_cons_head]
  · rw [run_cons, ← hc₁, hfair, FairQueue.finish_chargeAll, hbill, hfinish]

/-- Rounds one after the other. -/
theorem Cycle.iterate (allowed : Calls → Op → Prop) (used : ℕ → ℕ) {J : ℕ → Calls → Prop} (N : ℕ)
    (hJ : ∀ t c, J t c → Cycling cfg reg now ok (used t) c.state)
    (hround : ∀ t < N, ∀ c, J t c → ∃ ops, Cycle cfg reg now ok allowed (used (t + 1)) c ops ∧
      J (t + 1) (planning.run c ops)) (h : J 0 c) :
    ∃ ops, Cycle cfg reg now ok allowed (used N) c ops ∧ J N (planning.run c ops) := by
  induction N with
  | zero => exact ⟨[], .nil (hJ 0 c h), h⟩
  | succ N ih =>
    obtain ⟨ops, hcycle, hlast⟩ := ih fun t ht => hround t (ht.trans (Nat.lt_succ_self N))
    obtain ⟨ops', hcycle', hlast'⟩ := hround N (Nat.lt_succ_self N) _ hlast
    refine ⟨ops ++ ops', hcycle.append hcycle', ?_⟩
    rw [run_append]
    exact hlast'

/-- What a request is charged for itself. -/
theorem Cycling.sum_bill_solo {r : RequestId} {k : FlowKey} (h : Cycling cfg reg now ok n c.state)
    (hw : c.state.Waiting r k) (k' : FlowKey) :
    (((([r]).map c.state.core.bill).filter fun p => p.1 = k').map Prod.snd).sum =
      if k = k' then 1 / keyWeight cfg k else 0 := by
  rw [List.map_singleton, h.bill_eq hw, List.filter_singleton]
  split_ifs with hk <;> simp [hk]

/-- A round of requests that are not batched. -/
theorem Cycling.round_solo (h : Cycling cfg reg now ok n c.state) (hseeds : c.seeds = [])
    (hsome : ∃ r k, c.state.Waiting r k) (hplenty : c.state.Plenty)
    (hsolo : ∀ spec, ok spec → Impl.batchLimit cfg spec ≤ 1) (hcap : reg.capability.totalCapacityUnits = 8)
    (hvalid : reg.worker.valid = true) (hn : ((n + 1 : ℕ) : ℤ) ≤ cfg.retry.maxAttempts) :
    ∃ k ops, (∃ r, c.state.Waiting r k) ∧
      (∀ r' k', c.state.Waiting r' k' → c.state.core.effective now k ≤ c.state.core.effective now k') ∧
      Cycle cfg reg now ok (fun c op => InTurn c op ∧ Continues c op) (n + 1) c ops ∧
      (planning.run c ops).seeds = [] ∧ ∀ k', (planning.run c ops).state.ready.fair.finish k' =
        c.state.ready.fair.finish k' + if k = k' then 1 / keyWeight cfg k else 0 := by
  obtain ⟨r, k, ops, hw, hleast, hcycle, hend, hfinish⟩ := h.round hseeds hsome hcap hvalid (m := 1) (by omega) hn
    fun r k hw _ => by
      rw [h.planMembers_solo hsolo hw]
      exact ⟨rfl, hplenty.spares r⟩
  refine ⟨k, ops, ⟨r, hw⟩, hleast, hcycle, hend, fun k' => ?_⟩
  rw [hfinish, h.planMembers_solo hsolo hw, h.sum_bill_solo hw]

/-- Calls of `plan_next_dispatch` start one after the other, and each chooses a
request of the least flow. -/
theorem Cycling.pickAll {i : FlowKey} (h : Cycling cfg reg now ok n c.state) (hseeds : c.seeds = [])
    (hno : ∀ spec, ok spec → spec.deadline.valid = false) (hi : ∃ r, c.state.Waiting r i)
    (hleast : ∀ r k, c.state.Waiting r k → k ≠ i → c.state.ready.fair.finish i < c.state.ready.fair.finish k) (N : ℕ) :
    ∃ ops, Cycle cfg reg now ok Continues n c ops ∧ (planning.run c ops).seeds.length = N ∧
      (∀ r ∈ (planning.run c ops).seeds, c.state.Waiting r i) ∧
      ∀ k, (planning.run c ops).state.ready.fair.finish k = c.state.ready.fair.finish k := by
  obtain ⟨ops, hcycle, _, _, hrest⟩ := Cycle.iterate Continues (fun _ => n)
    (J := fun t c' => Cycling cfg reg now ok n c'.state ∧ (∀ r k, c'.state.Waiting r k ↔ c.state.Waiting r k) ∧
      c'.seeds.length = t ∧ (∀ r ∈ c'.seeds, c.state.Waiting r i) ∧
      ∀ k, c'.state.ready.fair.finish k = c.state.ready.fair.finish k) N (fun _ _ hJ => hJ.1)
    (fun t _ c' hJ => by
      obtain ⟨hcyc, hwait, hlen, hall, hfinish⟩ := hJ
      obtain ⟨r₀, hr₀⟩ := hi
      obtain ⟨hpick, _, _, hfinish', r, k, hseed, hw, hmin⟩ := hcyc.pick ⟨r₀, i, (hwait r₀ i).2 hr₀⟩
      have hk : k = i := by
        by_contra hne
        have hlt := hleast r k ((hwait r k).1 hw) hne
        have hle := hmin r₀ i ((hwait r₀ i).2 hr₀)
        rw [hcyc.effective_of_no_deadline hno hw, hcyc.effective_of_no_deadline hno ((hwait r₀ i).2 hr₀), hfinish,
          hfinish] at hle
        exact absurd hle (not_le.2 hlt)
      refine ⟨[.planNextSeed], hpick, hpick.after, fun r k => (hpick.waiting r k).trans (hwait r k), ?_, ?_,
        fun k => (hfinish' k).trans (hfinish k)⟩
      · rw [run_cons, run_nil, hseed, List.length_append, List.length_singleton, hlen]
      · intro r' hr'
        rw [run_cons, run_nil, hseed, List.mem_append, List.mem_singleton] at hr'
        rcases hr' with hr' | rfl
        · exact hall r' hr'
        · exact (hwait r' i).1 (hk ▸ hw))
    ⟨h, fun _ _ => Iff.rfl, by simp [hseeds], by simp [hseeds], fun _ => rfl⟩
  exact ⟨ops, hcycle, hrest⟩

/-- Seeds of one flow are dispatched one after the other, each alone. -/
theorem Cycling.serveAll {i : FlowKey} (h : Cycling cfg reg now ok n c.state) (hplenty : c.state.Plenty)
    (hsolo : ∀ spec, ok spec → Impl.batchLimit cfg spec ≤ 1) (hcap : reg.capability.totalCapacityUnits = 8)
    (hvalid : reg.worker.valid = true) (hall : ∀ r ∈ c.seeds, c.state.Waiting r i)
    (hn : ((n + c.seeds.length : ℕ) : ℤ) ≤ cfg.retry.maxAttempts) :
    ∃ ops, Cycle cfg reg now ok Continues (n + c.seeds.length) c ops ∧
      ∀ k, (planning.run c ops).state.ready.fair.finish k =
        c.state.ready.fair.finish k + if i = k then c.seeds.length / keyWeight cfg i else 0 := by
  obtain ⟨ops, hcycle, _, _, _, _, hrest⟩ := Cycle.iterate Continues (n + ·)
    (J := fun t c' => Cycling cfg reg now ok (n + t) c'.state ∧
      (∀ r k, c'.state.Waiting r k ↔ c.state.Waiting r k) ∧ c'.seeds.length + t = c.seeds.length ∧
      (∀ r ∈ c'.seeds, c.state.Waiting r i) ∧ ∀ k, c'.state.ready.fair.finish k =
        c.state.ready.fair.finish k + if i = k then t / keyWeight cfg i else 0) c.seeds.length (fun _ _ hJ => hJ.1)
    (fun t ht c' hJ => by
      obtain ⟨hcyc, hwait, hlen, hseeds, hfinish⟩ := hJ
      obtain ⟨r, hr⟩ := List.exists_mem_of_length_pos (show 0 < c'.seeds.length by omega)
      have hw := (hwait r i).2 (hseeds r hr)
      have hms : c'.state.planMembers r c'.state.now = [r] := by
        rw [hcyc.clock]
        exact hcyc.planMembers_solo hsolo hw
      obtain ⟨ops, hcycle, herase, hfair⟩ := hcyc.serve hw hr hcap hvalid hms (by simp)
        (by rw [List.length_singleton]; push_cast at hn ⊢; omega) ((hplenty.congr hwait).spares r)
      have hlen' : (planning.run c' ops).seeds.length + 1 = c'.seeds.length := by
        rw [herase, List.length_erase_of_mem hr]
        omega
      refine ⟨ops, hcycle.imp fun _ _ hop => hop.2, hcycle.after, fun r k => (hcycle.waiting r k).trans (hwait r k),
        by omega, fun r' hr' => hseeds r' (List.mem_of_mem_erase (herase ▸ hr')), fun k => ?_⟩
      rw [hfair, FairQueue.finish_chargeAll, hcyc.sum_bill_solo hw, hfinish]
      split_ifs
      · push_cast
        ring
      · ring)
    ⟨h, fun _ _ => Iff.rfl, rfl, hall, fun k => by simp⟩
  exact ⟨ops, hcycle, hrest⟩

/-- Calls that overlap. Of two flows that are level one is served, and then as
many calls as one likes choose the other before the first of them dispatches. -/
theorem Cycling.overlap {i j : FlowKey} (h : Cycling cfg reg now ok n c.state) (hseeds : c.seeds = [])
    (hplenty : c.state.Plenty) (hsolo : ∀ spec, ok spec → Impl.batchLimit cfg spec ≤ 1)
    (hno : ∀ spec, ok spec → spec.deadline.valid = false) (hcap : reg.capability.totalCapacityUnits = 8)
    (hvalid : reg.worker.valid = true) (hij : i ≠ j) (hi : ∃ r, c.state.Waiting r i) (hj : ∃ r, c.state.Waiting r j)
    (honly : ∀ r k, c.state.Waiting r k → k = i ∨ k = j)
    (hlevel : c.state.ready.fair.finish i = c.state.ready.fair.finish j) (N : ℕ)
    (hn : ((n + 1 + N : ℕ) : ℤ) ≤ cfg.retry.maxAttempts) :
    ∃ i' j' ops, (i' = i ∧ j' = j ∨ i' = j ∧ j' = i) ∧ Cycle cfg reg now ok Continues (n + 1 + N) c ops ∧
      (planning.run c ops).state.ready.fair.finish i' = c.state.ready.fair.finish i' + N / keyWeight cfg i' ∧
      (planning.run c ops).state.ready.fair.finish j' = c.state.ready.fair.finish j' + 1 / keyWeight cfg j' := by
  obtain ⟨r₀, hr₀⟩ := hi
  obtain ⟨j', ops₁, ⟨r₁, hr₁⟩, _, hcycle₁, hend₁, hfinish₁⟩ := h.round_solo hseeds ⟨r₀, i, hr₀⟩ hplenty hsolo hcap hvalid
    (by push_cast at hn ⊢; omega)
  obtain ⟨i', hpair, hne⟩ : ∃ i', (i' = i ∧ j' = j ∨ i' = j ∧ j' = i) ∧ i' ≠ j' := by
    rcases honly r₁ j' hr₁ with rfl | rfl
    · exact ⟨j, .inr ⟨rfl, rfl⟩, hij.symm⟩
    · exact ⟨i, .inl ⟨rfl, rfl⟩, hij⟩
  set c₁ := planning.run c ops₁ with hc₁
  have hw : 0 < keyWeight cfg j' := by
    obtain ⟨rec, hw, rfl⟩ := hr₁
    exact (h.usable _ (h.stocked.specs r₁ rec hw.1)).weight
  have hi' : ∃ r, c₁.state.Waiting r i' := by
    rcases hpair with ⟨rfl, _⟩ | ⟨rfl, _⟩
    · exact ⟨r₀, (hcycle₁.waiting r₀ i').2 hr₀⟩
    · obtain ⟨r, hr⟩ := hj
      exact ⟨r, (hcycle₁.waiting r i').2 hr⟩
  have hlevel' : c.state.ready.fair.finish i' = c.state.ready.fair.finish j' := by
    rcases hpair with ⟨rfl, rfl⟩ | ⟨rfl, rfl⟩
    · exact hlevel
    · exact hlevel.symm
  have hleast : ∀ r k, c₁.state.Waiting r k → k ≠ i' → c₁.state.ready.fair.finish i' < c₁.state.ready.fair.finish k := by
    intro r k hrk hk
    obtain rfl : k = j' := by
      rcases hpair with ⟨rfl, rfl⟩ | ⟨rfl, rfl⟩
      · exact (honly r k ((hcycle₁.waiting r k).1 hrk)).resolve_left hk
      · exact (honly r k ((hcycle₁.waiting r k).1 hrk)).resolve_right hk
    rw [hfinish₁, hfinish₁, if_neg hne.symm, if_pos rfl, hlevel', add_zero]
    exact lt_add_of_pos_right _ (by positivity)
  obtain ⟨ops₂, hcycle₂, hlen, hall, hfinish₂⟩ := hcycle₁.after.pickAll hend₁ hno hi' hleast N
  set c₂ := planning.run c₁ ops₂ with hc₂
  obtain ⟨ops₃, hcycle₃, hfinish₃⟩ := hcycle₂.after.serveAll ((hplenty.congr hcycle₁.waiting).congr hcycle₂.waiting) hsolo
    hcap hvalid (fun r hr => (hcycle₂.waiting r i').2 (hall r hr)) (by rwa [hlen])
  rw [hlen] at hcycle₃ hfinish₃
  refine ⟨i', j', ops₁ ++ (ops₂ ++ ops₃), hpair,
    (hcycle₁.imp fun _ _ hop => hop.2).append (hcycle₂.append hcycle₃), ?_, ?_⟩
  · rw [run_append, run_append, hfinish₃, hfinish₂, hfinish₁, if_pos rfl, if_neg hne.symm, add_zero]
  · rw [run_append, run_append, hfinish₃, hfinish₂, hfinish₁, if_neg hne, if_pos rfl, add_zero]

end rounds

/-! ## The beginning of a run -/

instance (n : ℕ) (rec : RequestRecord) : Decidable (Cyclable n rec) :=
  decidable_of_iff ((rec.state = .queued ∨ rec.state = .reserved) ∧
      (rec.cancellationRequested = false ∧ rec.cancellationCommitted = false) ∧ rec.history.length ≤ n)
    ⟨fun h => ⟨h.1, h.2.1, h.2.2⟩, fun h => ⟨h.state, h.kept, h.attempts⟩⟩

instance (s : Impl) (r : RequestId) (k : FlowKey) : Decidable (s.Waiting r k) :=
  decidable_of_iff (∃ rec ∈ s.requests.find r, rec.state = .queued ∧ flowKey rec.spec = k)
    ⟨fun ⟨rec, hf, hq, hk⟩ => ⟨rec, ⟨hf, hq⟩, hk⟩, fun ⟨rec, ⟨hf, hq⟩, hk⟩ => ⟨rec, hf, hq, hk⟩⟩

deriving instance DecidableEq for WorkerCapability, WorkerRegistration

namespace Impl

/-- The scheduler under another retry policy. -/
def withRetry (p : RetryPolicy) (s : Impl) : Impl := { s with cfg := { s.cfg with retry := p } }

theorem insertRequest_eq (s : Impl) (rec : RequestRecord) : s.insertRequest rec =
    { s with requests := (s.requests.find rec.requestId).elim (s.requests.put rec) fun _ => s.requests } := by
  unfold insertRequest
  cases s.requests.find rec.requestId <;> rfl

theorem submitAs_withRetry (p : RetryPolicy) (s : Impl) (spec : RequestSpec) (rid : RequestId) :
    ((s.withRetry p).submitAs spec rid).1 = (s.submitAs spec rid).1.withRetry p := by
  have hadm : (s.withRetry p).makeAdmission spec (s.withRetry p).now = s.makeAdmission spec s.now := rfl
  unfold submitAs
  rw [hadm]
  split
  · unfold admitAs enqueueNew
    simp only [insertRequest_eq, show (s.withRetry p).now = s.now from rfl]
    cases spec.deadline.valid && spec.deadline.expired s.now <;> rfl
  · rfl
  · simp only [reject, insertRequest_eq]
    rfl

end Impl

/-- The retry policy is not read when a request is submitted. -/
theorem next_submit_withRetry (p : RetryPolicy) (s : Impl) (spec : RequestSpec) (pre : Option RequestId) :
    scheduler.next (s.withRetry p) (.submit spec pre) = (scheduler.next s (.submit spec pre)).withRetry p := by
  show ((s.withRetry p).doSubmit spec pre).1 = (s.doSubmit spec pre).1.withRetry p
  unfold Impl.doSubmit
  cases validateSpec spec with
  | error => rfl
  | ok =>
    cases pre with
    | none => exact s.drawId.submitAs_withRetry p spec s.idFactory.peek
    | some rid => exact s.submitAs_withRetry p spec rid

/-- A worker registers and requests are submitted. -/
def opening (subs : List (RequestSpec × RequestId)) : List Op :=
  .registerWorker (plainWorker 3) :: subs.map fun x => .submit x.1 (some x.2)

theorem run_submits_withRetry (p : RetryPolicy) : ∀ (subs : List (RequestSpec × RequestId)) (s : Impl),
    planning.run ⟨s.withRetry p, []⟩ (subs.map fun x => .submit x.1 (some x.2)) =
      ⟨(scheduler.run s (subs.map fun x => .submit x.1 (some x.2))).withRetry p, []⟩
  | [], _ => rfl
  | x :: subs, s => by
    have hnext : planning.next ⟨s.withRetry p, []⟩ (.submit x.1 (some x.2)) =
        ⟨(scheduler.next s (.submit x.1 (some x.2))).withRetry p, []⟩ :=
      congrArg (Calls.mk · []) (next_submit_withRetry p s x.1 (some x.2))
    rw [List.map_cons, run_cons, hnext, run_submits_withRetry p subs, run_cons]

/-- The retry policy is not read until an attempt fails. -/
theorem run_opening (cfg : SchedulerConfig) (p : RetryPolicy) (salt : UInt64) (subs : List (RequestSpec × RequestId)) :
    planning.run ⟨Impl.init { cfg with retry := p } 0 salt none, []⟩ (opening subs) =
      ⟨(scheduler.run (Impl.init cfg 0 salt none) (opening subs)).withRetry p, []⟩ :=
  run_submits_withRetry p subs (scheduler.next (Impl.init cfg 0 salt none) (.registerWorker (plainWorker 3)))

theorem allowed_opening {allowed : Calls → Op → Prop} {subs : List (RequestSpec × RequestId)} {c : Calls}
    (hreg : ∀ c, allowed c (.registerWorker (plainWorker 3)))
    (hsub : ∀ x ∈ subs, ∀ c, allowed c (.submit x.1 (some x.2))) : planning.Allowed allowed c (opening subs) := by
  refine allowed_of_forall fun op hop c => ?_
  rcases List.mem_cons.1 hop with rfl | hop
  · exact hreg c
  · obtain ⟨x, hx, rfl⟩ := List.mem_map.1 hop
    exact hsub x hx c

/-- The state after an opening, by inspection. -/
theorem Cycling.of_opening (cfg : SchedulerConfig) (ok : RequestSpec → Prop) (subs : List (RequestSpec × RequestId))
    (p : RetryPolicy) (hsub : ∀ x ∈ subs, ok x.1)
    (husable : ∀ spec, ok spec → Usable { cfg with retry := p } (plainWorker 3) 0 spec) {s : Impl}
    (hs : scheduler.run (Impl.init cfg 0 0x80000001 none) (opening subs) = s)
    (hchecks : s.now = 0 ∧ s.epochValue = 1 ∧ s.pool.workers.records.map (·.registration) = [plainWorker 3] ∧
      (∀ rec ∈ s.requests.records, Cyclable 1 rec) ∧
      ∀ r ∈ s.ready.queued.elems, ∃ rec ∈ s.requests.find r, rec.state = .queued) :
    planning.run ⟨Impl.init { cfg with retry := p } 0 0x80000001 none, []⟩ (opening subs) = ⟨s.withRetry p, []⟩ ∧
      Cycling { cfg with retry := p } (plainWorker 3) 0 ok 1 (s.withRetry p) := by
  obtain ⟨hclock, hepoch, hworkers, hrecords, hqueued⟩ := hchecks
  have hrun := run_opening cfg p 0x80000001 subs
  rw [hs] at hrun
  have hstep : ∀ (c : Calls) (op : Op), (∀ spec pre, op = .submit spec pre → ok spec) →
      Stocked { cfg with retry := p } ok c.state.core →
        Stocked { cfg with retry := p } ok (planning.next c op).state.core :=
    fun c op hop hc => hc.next op hop
  have hstock := run_invariant hstep (s := ⟨Impl.init { cfg with retry := p } 0 0x80000001 none, []⟩)
    (Stocked.init { cfg with retry := p } 0 0x80000001 none ok)
    (allowed_opening (fun _ => by simp) fun x hx _ spec pre he => by
      cases he
      exact hsub x hx)
  rw [hrun] at hstock
  obtain ⟨wr, hwr, hreg⟩ := List.map_eq_singleton_iff.1 hworkers
  have hid : wr.id = (plainWorker 3).worker := congrArg WorkerRegistration.worker hreg
  refine ⟨hrun, hstock, husable, hclock, hepoch, ⟨wr, ?_⟩, fun w wr' hw => ?_, Keyed.forall_find hrecords, fun r hr => ?_⟩
  · rw [← hid]
    exact Keyed.mem_records.1 (hwr ▸ List.mem_singleton_self wr)
  · have hw : s.pool.workers.find w = some wr' := hw
    obtain rfl : wr' = wr := List.mem_singleton.1 (hwr ▸ Keyed.mem_records.2 (Keyed.find_key hw))
    exact ⟨(Keyed.key_of_find hw).symm.trans hid, hreg⟩
  · obtain ⟨rec, hf, hq⟩ := hqueued r hr
    exact ⟨rec, hf, hq⟩

end InferenceScheduler
