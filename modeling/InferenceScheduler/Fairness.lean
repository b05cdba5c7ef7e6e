/-
Fair shares of the flows. Calls of `plan_next_dispatch` choose a seed in one
critical section and dispatch it in another; `planning` is the scheduler with
the seeds of the calls in progress. In a run where dispatches come from such
calls, one at a time, and every batch is of one flow, the virtual finishes of
the active flows stay close (`Even`), and two flows that stay backlogged are
served alike.
-/
import InferenceScheduler.Batching
import InferenceScheduler.Selection

namespace InferenceScheduler

open Machine

/-! ## What the entries do to the virtual times -/

/-- An entry that neither reserves nor takes entries out of the heaps. -/
def Quiet : Entry → Prop
  | .move (.reserve ..) | .move (.pop ..) | .move (.sleep ..) => False
  | _ => True

/-- A quiet entry enqueues one request, or leaves the flows as they are. -/
theorem ready_post {b : Book} {e : Entry} (hq : Quiet e) :
    (∃ rec, (b.act e).core.ready = b.core.ready.enqueue b.core.cfg b.core.now rec) ∨
      (b.act e).core.ready.flows = b.core.ready.flows ∧ (b.act e).core.ready.fair = b.core.ready.fair := by
  cases e with
  | move m =>
    rw [show (b.act (.move m)).core = b.core.act m from b.move_core m]
    cases m with
    | accept spec rid => exact .inl ⟨Impl.admittedRecord spec rid b.core.ids.peek b.core.ids.tick.peek b.core.now, rfl⟩
    | retry rec r =>
      exact .inl ⟨(b.core.pool.released r.worker (rec.noteFailure r)).retry b.core.ids.peek
        b.core.ids.tick.peek b.core.now, rfl⟩
    | reserve | pop | sleep => exact hq.elim
    | _ => exact .inr ⟨rfl, rfl⟩
  | again rec spec => exact .inl ⟨rec, rfl⟩
  | _ => exact .inr ⟨rfl, rfl⟩

/-- The flow a quiet entry wakes up, if it does, had no heap entry. -/
theorem fair_post {b : Book} {e : Entry} (hq : Quiet e) :
    (b.act e).core.ready.fair = b.core.ready.fair ∨
      ∃ k, (b.core.ready.flow k).pending.entries = [] ∧ (b.act e).core.ready.fair = b.core.ready.fair.wake k := by
  rcases ready_post (b := b) hq with ⟨rec, he⟩ | ⟨_, he⟩
  · rw [he, Ready.fair_enqueue]
    split
    · next hempty => exact .inr ⟨_, Heap.isEmpty_iff.1 hempty, rfl⟩
    · exact .inl rfl
  · exact .inl he

/-- A quiet entry empties no heap. -/
theorem pending_post {b : Book} {e : Entry} (hq : Quiet e) {k : FlowKey}
    (h : (b.core.ready.flow k).pending.entries ≠ []) : ((b.act e).core.ready.flow k).pending.entries ≠ [] := by
  rcases ready_post (b := b) hq with ⟨rec, he⟩ | ⟨he, _⟩
  · rw [he, Ready.pending_enqueue]
    split
    · exact List.ne_nil_of_mem (Heap.mem_push.2 (.inl rfl))
    · exact h
  · rw [Ready.flow, he]
    exact h

/-- A flow with heap entries keeps its virtual finish. -/
theorem finish_post {b : Book} {e : Entry} (hq : Quiet e) {k : FlowKey}
    (h : (b.core.ready.flow k).pending.entries ≠ []) :
    (b.act e).core.ready.fair.finish k = b.core.ready.fair.finish k := by
  rcases fair_post (b := b) hq with he | ⟨k', hnil, he⟩
  · rw [he]
  · have hne : k ≠ k' := fun heq => h (heq ▸ hnil)
    rw [he, FairQueue.finish_wake_of_ne _ hne]

/-- Operations outside dispatch planning post quiet entries. -/
theorem quiet_of_posted {s : Impl} {op : Op} {b : Book} {e : Entry} (he : Posted s op b e)
    (hseed : op ≠ .planNextSeed) (hplan : ∀ r ex, op ≠ .planDispatch r ex) : Quiet e := by
  cases e with
  | move m =>
    obtain ⟨⟨_, hdoes⟩, _⟩ := he
    generalize b.core = c at hdoes
    cases hdoes with
    | reserve => exact absurd rfl (hplan _ _)
    | pop | sleep => exact absurd rfl hseed
    | _ => trivial
  | _ => trivial

/-! ## What a reservation does to the virtual times -/

/-- The spec of a request. -/
def Core.specOf (c : Core) (id : RequestId) : RequestSpec := ((c.requests.find id).getD {}).spec

theorem Core.specOf_of_find {c : Core} {id : RequestId} {rec : RequestRecord} (hf : c.requests.find id = some rec) :
    c.specOf id = rec.spec := by
  rw [Core.specOf, hf, Option.getD_some]

/-- What a request dispatched costs its flow, in units of virtual time. -/
def Core.bill (c : Core) (id : RequestId) : FlowKey × ℚ :=
  (flowKey (c.specOf id), max 1 (c.specOf id).demand.costUnits / keyWeight c.cfg (flowKey (c.specOf id)))

/-- A stored request whose flow has heap entries and a weight. -/
def Core.Billable (c : Core) (id : RequestId) : Prop :=
  (c.requests.find id).isSome ∧ (c.ready.flow (flowKey (c.specOf id))).pending.entries ≠ [] ∧
    0 < keyWeight c.cfg (flowKey (c.specOf id))

theorem Core.specOf_reserveMember (bid : BatchId) (c : Core) (id id' : RequestId) :
    (c.reserveMember bid id).specOf id' = c.specOf id' ∧
      ((c.reserveMember bid id).requests.find id').isSome = (c.requests.find id').isSome := by
  rw [specOf, reserveMember_find]
  split
  · next h =>
    subst h
    cases hf : c.requests.find id with
    | none => simp [specOf, hf]
    | some rec => simp [specOf, hf, RequestRecord.reserve]
  · exact ⟨rfl, rfl⟩

/-- A member of a batch is charged to its flow. -/
theorem Core.fair_reserveMember {c : Core} {id : RequestId} (bid : BatchId) (h : Lined c) (hb : c.Billable id) :
    (c.reserveMember bid id).ready.fair = c.ready.fair.charge (c.bill id).1 (c.bill id).2 := by
  obtain ⟨hsome, hheap, hw⟩ := hb
  obtain ⟨m, hf⟩ := Option.isSome_iff_exists.1 hsome
  have hspec : c.specOf id = m.spec := specOf_of_find hf
  rw [hspec] at hheap hw
  have hweight := h.weight _ hheap
  have hpos : 0 < ((c.ready.dequeue c.cfg m).flow (flowKey m.spec)).weight := hweight.symm ▸ hw
  have hacc := (c.ready.dequeue c.cfg m).fair_accountFlow m.spec (max 1 m.spec.demand.costUnits) hpos
  simp only [reserveMember, hf, bill, hspec]
  rw [hacc, ← hweight]
  rfl

/-- **A reservation charges every member to its flow.** -/
theorem Core.fair_foldl_reserveMember (bid : BatchId) : ∀ (ids : List RequestId) (c : Core), Lined c →
    (∀ id ∈ ids, c.Billable id) →
    (ids.foldl (Core.reserveMember bid) c).ready.fair = c.ready.fair.chargeAll (ids.map c.bill)
  | [], _, _, _ => rfl
  | id :: ids, c, h, hb => by
    have hspec := fun id' => (c.specOf_reserveMember bid id id').1
    have hcfg : (c.reserveMember bid id).cfg = c.cfg := (c.reserveMember_frame bid id).1
    have hbill : (c.reserveMember bid id).bill = c.bill := by
      funext id'
      simp only [bill, hspec, hcfg]
    have hrest : ∀ id' ∈ ids, (c.reserveMember bid id).Billable id' := by
      intro id' hid'
      obtain ⟨hsome, hheap, hw⟩ := hb id' (List.mem_cons_of_mem id hid')
      refine ⟨(c.specOf_reserveMember bid id id').2 ▸ hsome, ?_, ?_⟩
      · rw [hspec, show (c.reserveMember bid id) = [id].foldl (reserveMember bid) c from rfl,
          pending_foldl_reserveMember]
        exact hheap
      · rw [hspec, hcfg]
        exact hw
    rw [List.foldl_cons, fair_foldl_reserveMember bid ids _ (h.reserveMember bid id) hrest,
      fair_reserveMember bid h (hb id List.mem_cons_self), hbill, List.map_cons, FairQueue.chargeAll_cons]

/-! ## Calls of `plan_next_dispatch` -/

/-- The scheduler and the seeds of the calls that have chosen one. -/
structure Calls where
  state : Impl
  seeds : List RequestId

/-- The calls in progress after an operation. -/
def Calls.seedsAfter (c : Calls) : Op → List RequestId
  | .planNextSeed => c.seeds ++ c.state.planNextSeed.2.toList
  | .planDispatch r _ => c.seeds.erase r
  | _ => c.seeds

/-- The scheduler with its calls of `plan_next_dispatch`. -/
def planning : Machine Calls Op Answer :=
  ⟨fun c op => (⟨scheduler.next c.state op, c.seedsAfter op⟩, (c.state.step op).2)⟩

/-- Dispatches are the second halves of calls. -/
def ThroughPlanNext (c : Calls) : Op → Prop
  | .planDispatch r _ => r ∈ c.seeds
  | _ => True

/-- Calls do not overlap. -/
def InTurn (c : Calls) : Op → Prop
  | .planNextSeed => c.seeds = []
  | _ => True

/-- A flow has a queued request. -/
def Impl.backlogged (s : Impl) (k : FlowKey) : Bool :=
  s.requests.records.any fun rec => rec.state == .queued && flowKey rec.spec == k

/-- The cost an operation dispatches for a flow. -/
def served (k : FlowKey) (e : Event Calls Op Answer) : ℚ :=
  match e.out with
  | .dispatch (.ok out) =>
    if out.decision = .dispatch then
      ((out.batchMembers.filter fun id => flowKey (e.pre.state.specOf id) = k).map e.pre.state.memberCost).sum
    else 0
  | _ => 0

/-- The cost dispatched for a flow over some operations. -/
def service (k : FlowKey) (es : List (Event Calls Op Answer)) : ℚ := (es.map (served k)).sum

theorem service_cons (k : FlowKey) (e : Event Calls Op Answer) (es : List (Event Calls Op Answer)) :
    service k (e :: es) = served k e + service k es := by
  rw [service, List.map_cons, List.sum_cons]
  rfl

/-! ## What was asked for stays -/

/-- No entry removes a request or changes its spec. -/
theorem specOf_post {s : Impl} {op : Op} {b : Book} {e : Entry} {r : RequestId} (he : Posted s op b e)
    (hr : (b.core.requests.find r).isSome) :
    ((b.act e).core.requests.find r).isSome ∧ (b.act e).core.specOf r = b.core.specOf r := by
  obtain ⟨rec, hf⟩ := Option.isSome_iff_exists.1 hr
  suffices h : ∃ rec', (b.act e).core.requests.find r = some rec' ∧ rec'.spec = rec.spec by
    obtain ⟨rec', hf', hspec⟩ := h
    simp only [Core.specOf, hf, hf', Option.isSome_some, Option.getD_some, hspec, and_self]
  cases e with
  | move m =>
    rw [show (b.act (.move m)).core = b.core.act m from b.move_core m]
    obtain ⟨rec', hf', rfl | hw⟩ := Core.act_find he.1.1 hf
    · exact ⟨rec', hf', rfl⟩
    · exact ⟨rec', hf', hw.spec⟩
  | again old spec =>
    refine Core.spec_put (c := b.core) { old with state := .queued, queuedAt := b.core.now } ?_ hf
    intro rec' hrec'
    obtain rfl : old = rec' := Option.some.inj (he.2.1.symm.trans hrec')
    rfl
  | _ => exact ⟨rec, hf, rfl⟩

/-! ## What a dispatch does to the virtual times -/

/-- A state that differs by expired requests. -/
structure Aged (c c' : Core) : Prop where
  config : c'.cfg = c.cfg
  lined : Lined c'
  fair : c'.ready.fair = c.ready.fair
  stored : ∀ id, (c'.requests.find id).isSome = (c.requests.find id).isSome
  spec : ∀ id, c'.specOf id = c.specOf id

theorem Aged.expire {c c' : Core} {rec : RequestRecord} (h : Aged c c') (hen : Enabled c' (.expire rec)) :
    Aged c (c'.act (.expire rec)) := by
  have hfind : ∀ id, (c'.act (.expire rec)).requests.find id =
      if rec.requestId = id then some rec.expire else c'.requests.find id :=
    fun id => Keyed.find_put c'.requests rec.expire id
  refine ⟨h.config, h.lined.act hen, h.fair, fun id => ?_, fun id => ?_⟩
  · rw [← h.stored, hfind]
    split
    · next hid =>
      subst hid
      rw [show c'.requests.find rec.requestId = some rec from hen.1]
      rfl
    · rfl
  · rw [← h.spec, Core.specOf, hfind]
    split
    · next hid =>
      subst hid
      rw [Core.specOf, show c'.requests.find rec.requestId = some rec from hen.1]
      rfl
    · rfl

theorem Aged.of_leads {c c' : Core} (h : Lined c)
    (hlead : moves.Leads (fun c m => ∃ rec, m = .expire rec ∧ Enabled c m) c c') : Aged c c' := by
  refine hlead.invariant (I := Aged c) ?_ ⟨rfl, h, rfl, fun _ => rfl, fun _ => rfl⟩
  intro c' m hx ha
  obtain ⟨rec, rfl, hen⟩ := hx
  exact ha.expire hen

/-- **What a plan does.** It leaves the virtual times, or it reserves a batch
around the request and charges every member to its flow. -/
theorem planDispatch_spec (s : Impl) (r : RequestId) (ex : Bool) (h : Lined s.core)
    (hw : ∀ id rec, s.core.requests.find id = some rec → 0 < flowWeight s.cfg rec.spec) :
    (∀ out, (s.doPlanDispatch r ex).2 = .ok out → out.decision ≠ .dispatch) ∧
        Aged s.core (s.doPlanDispatch r ex).1.core ∨
      ∃ out, (s.doPlanDispatch r ex).2 = .ok out ∧ out.decision = .dispatch ∧ r ∈ out.batchMembers ∧
        (out.batchMembers.length : ℤ) ≤ Impl.batchLimit s.cfg (s.specOf r) ∧
        (∀ id ∈ out.batchMembers, (s.core.requests.find id).isSome) ∧
        (s.doPlanDispatch r ex).1.core.ready.fair = s.core.ready.fair.chargeAll (out.batchMembers.map s.core.bill) := by
  rcases Impl.doPlanDispatch_cases s r ex (P := fun c m => ∃ rec, m = .expire rec ∧ Enabled c m)
    (fun c rec hen => ⟨rec, rfl, hen⟩) with ⟨hlead, hno⟩ | ⟨wr, out, hout, hd⟩
  · exact .inl ⟨hno, .of_leads h hlead⟩
  · have hscan := Aged.of_leads h (Impl.expireScan_leads s s.now fun c rec hen => ⟨rec, rfl, hen⟩)
    set t := s.expireScan s.now with ht
    have hstored : ∀ id ∈ out.batchMembers, (s.core.requests.find id).isSome := by
      intro id hid
      obtain ⟨rec, hf, _⟩ := hd.enabled.2.2.2.2 id hid
      rw [← hscan.stored, hf]
      rfl
    have hbillable : ∀ id ∈ out.batchMembers, t.core.Billable id := by
      intro id hid
      obtain ⟨rec, hf, hs⟩ := hd.enabled.2.2.2.2 id hid
      -- No stored request is in the state `Admitted`.
      have hq : rec.state = .queued := hs.resolve_right (hscan.lined.admitted id rec hf)
      obtain ⟨_, _, e, he, _⟩ := hscan.lined.queued id rec ⟨hf, hq⟩
      have hspec : t.core.specOf id = rec.spec := Core.specOf_of_find hf
      obtain ⟨old, hold⟩ := Option.isSome_iff_exists.1 (hstored id hid)
      have holdspec : old.spec = rec.spec := by
        rw [← hspec, hscan.spec, Core.specOf_of_find hold]
      refine ⟨by simp [hf], ?_, ?_⟩
      · rw [hspec]
        exact List.ne_nil_of_mem he
      · rw [hspec, ← holdspec, hscan.config]
        exact hw id old hold
    have hbill : t.core.bill = s.core.bill := by
      funext id
      simp only [Core.bill, hscan.spec, hscan.config]
    refine .inr ⟨out, hout, hd.decision, hd.seed, ?_, hstored, ?_⟩
    · rw [hd.planned.formed]
      have hlen := t.planMembers_length r t.now
      rw [show t.cfg = s.cfg from hscan.config, show t.specOf r = s.specOf r from hscan.spec r] at hlen
      exact hlen
    · rw [hd.core, ← hscan.fair, ← hbill]
      exact Core.fair_foldl_reserveMember t.core.ids.peek out.batchMembers _ (hscan.lined.frame rfl rfl rfl) hbillable

/-! ## Even service -/

/-- The heads of the active flows are boosted by at most `E`. -/
def Impl.BoostWithin (E : ℚ) (s : Impl) : Prop :=
  ∀ k ∈ s.ready.activeFlows, s.core.headEntry s.now k ≠ none →
    (s.ready.flow k).virtualFinish ≤ s.core.effective s.now k + E ∧
      s.core.effective s.now k ≤ (s.ready.flow k).virtualFinish

theorem Impl.effectiveFinish_cases (cfg : SchedulerConfig) (f : Flow) (r : RequestRecord) (now : ClockTime) :
    effectiveFinish cfg f r now = f.virtualFinish ∨
      effectiveFinish cfg f r now = f.virtualFinish / cfg.scheduling.deadlineBoostMax := by
  unfold effectiveFinish
  simp only
  split
  · generalize (if r.spec.deadline.valid then r.spec.deadline.remaining now else -1) = slack
    split
    · exact .inr rfl
    · exact .inl rfl
  · exact .inl rfl

/-- The boost divides by at least one. -/
theorem Impl.effective_le {s : Impl} {now : ClockTime} {k : FlowKey} (hM : 1 ≤ s.cfg.scheduling.deadlineBoostMax)
    (h : 0 ≤ (s.ready.flow k).virtualFinish) : s.core.effective now k ≤ (s.ready.flow k).virtualFinish := by
  rcases effectiveFinish_cases s.cfg (s.ready.flow k) ((s.core.head now k).getD {}) now with he | he
  · exact he.le
  · exact he.le.trans (div_le_self h hM)

/-- What holds in every state if the specs submitted are as `ok` asks. -/
structure Stocked (cfg : SchedulerConfig) (ok : RequestSpec → Prop) (c : Core) : Prop where
  config : c.cfg = cfg
  lined : Lined c
  specs : ∀ r rec, c.requests.find r = some rec → ok rec.spec

theorem Stocked.post {cfg : SchedulerConfig} {ok : RequestSpec → Prop} {s : Impl} {op : Op} {b : Book} {e : Entry}
    (h : Stocked cfg ok b.core) (hsub : ∀ spec pre, op = .submit spec pre → ok spec) (he : Posted s op b e) :
    Stocked cfg ok (b.act e).core :=
  ⟨(b.act_cfg e).trans h.config, h.lined.post he, specs_post he hsub h.specs⟩

theorem Stocked.next {cfg : SchedulerConfig} {ok : RequestSpec → Prop} {s : Impl} (op : Op)
    (h : Stocked cfg ok s.core) (hsub : ∀ spec pre, op = .submit spec pre → ok spec) :
    Stocked cfg ok (scheduler.next s op).core :=
  posts_invariant (I := fun b => Stocked cfg ok b.core) (fun _ _ he hb => hb.post hsub he) h

/-- The seed of a call: its flow has heap entries, and a virtual finish near
the least of the active ones. -/
def Seeded (E : ℚ) (c : Core) (r : RequestId) : Prop :=
  (c.requests.find r).isSome ∧ (c.ready.flow (flowKey (c.specOf r))).pending.entries ≠ [] ∧
    c.ready.fair.Near E (flowKey (c.specOf r))

/-- No two active flows are further apart than `R`, and the seeds of the calls
in progress are within `E` of the least flow. -/
structure Even (cfg : SchedulerConfig) (ok : RequestSpec → Prop) (R E : ℚ) (c : Core) (seeds : List RequestId) : Prop
    extends Stocked cfg ok c where
  fair : c.ready.fair.Fair R
  seeded : ∀ r ∈ seeds, Seeded E c r

namespace Even

variable {cfg : SchedulerConfig} {ok : RequestSpec → Prop} {R E : ℚ} {seeds : List RequestId}

theorem post {s : Impl} {op : Op} {b : Book} {e : Entry} (h : Even cfg ok R E b.core seeds) (hR : 0 ≤ R) (hE : 0 ≤ E)
    (hsub : ∀ spec pre, op = .submit spec pre → ok spec) (he : Posted s op b e) (hq : Quiet e) :
    Even cfg ok R E (b.act e).core seeds := by
  refine ⟨h.toStocked.post hsub he, ?_, fun r hr => ?_⟩
  · rcases fair_post (b := b) hq with heq | ⟨k, _, heq⟩ <;> rw [heq]
    · exact h.fair
    · exact h.fair.wake hR
  · obtain ⟨hsome, hheap, hnear⟩ := h.seeded r hr
    obtain ⟨hsome', hspec⟩ := specOf_post he hsome
    rw [Seeded, hspec]
    refine ⟨hsome', pending_post hq hheap, ?_⟩
    rcases fair_post (b := b) hq with heq | ⟨k, hnil, heq⟩ <;> rw [heq]
    · exact hnear
    · -- The flow that wakes up is not the seed's, which has heap entries.
      exact hnear.wake hE (h.fair.behind _) fun hk => hheap (hk ▸ hnil)

/-- A seed is chosen: there was none before, and the one chosen is near the
least flow if no head is boosted by more than `E`. -/
theorem seed {s : Impl} (h : Even cfg ok R E s.core []) (hboost : s.BoostWithin E) :
    Even cfg ok R E s.planNextSeed.1.core s.planNextSeed.2.toList := by
  obtain ⟨hheads, hactive, _, hseed⟩ := s.planNextSeed_spec
  have hstock : Stocked cfg ok s.planNextSeed.1.core := h.toStocked.next .planNextSeed (by simp)
  have hfinish : ∀ k, s.planNextSeed.1.core.ready.fair.finish k = s.core.ready.fair.finish k := hheads.finish
  have htime : s.planNextSeed.1.core.ready.fair.time = s.core.ready.fair.time := hheads.time
  refine ⟨hstock, ⟨fun k => ?_, fun k => ?_, fun k hk => ?_⟩, fun r hr => ?_⟩
  · rw [hfinish]
    exact h.fair.nonneg k
  · rw [hfinish, htime]
    exact h.fair.behind k
  · rw [hfinish, htime]
    exact h.fair.close k ((hactive k).1 hk).1
  · obtain ⟨k, e, hk, he, rfl, htop, hleast⟩ := hseed r (Option.mem_toList.1 hr)
    have hmem : e ∈ (s.planNextSeed.1.core.ready.flow k).pending.entries := List.mem_of_head? htop
    obtain ⟨rec, hf, hkey⟩ := hstock.lined.flow k e hmem
    have hspec : flowKey (s.planNextSeed.1.core.specOf e.id) = k := by
      rw [Core.specOf_of_find hf, hkey]
    refine ⟨by simp [hf], ?_, ?_⟩
    · rw [hspec]
      exact List.ne_nil_of_mem hmem
    · rw [hspec]
      intro j hj
      rw [hfinish, hfinish]
      obtain ⟨hjs, hjlive⟩ := (hactive j).1 hj
      calc s.core.ready.fair.finish k ≤ s.core.effective s.now k + E :=
            (hboost k ((hactive k).1 hk).1 (by simp [he])).1
        _ ≤ s.core.effective s.now j + E := by gcongr; exact hleast j hj
        _ ≤ s.core.ready.fair.finish j + E := by gcongr; exact (hboost j hjs hjlive).2

end Even

/-- The terms a request is submitted on: at most `B` in a batch, a cost of at
most `C`, and `D` for such a batch in the virtual time of its flow. -/
structure FlowSpec (cfg : SchedulerConfig) (B : ℤ) (C D : ℚ) (spec : RequestSpec) : Prop where
  limit : Impl.batchLimit cfg spec ≤ B
  weight : 0 < flowWeight cfg spec
  cost : max 1 spec.demand.costUnits ≤ C
  share : B * C / flowWeight cfg spec ≤ D

/-- The batch a plan reserves is of one flow. -/
def OneFlow (s : Impl) (r : RequestId) (ex : Bool) : Prop :=
  ∀ out, (s.doPlanDispatch r ex).2 = .ok out → out.decision = .dispatch → ∀ id ∈ out.batchMembers,
    flowKey (s.specOf id) = flowKey (s.specOf r)

/-- What a batch of one flow is charged. -/
theorem FlowSpec.sum_le {cfg : SchedulerConfig} {B : ℤ} {C D : ℚ} {c : Core} {k : FlowKey} {spec : RequestSpec}
    (hspec : FlowSpec cfg B C D spec) (hk : flowKey spec = k) (hcfg : c.cfg = cfg) (ids : List RequestId)
    (hlen : (ids.length : ℤ) ≤ B) (hids : ∀ id ∈ ids, flowKey (c.specOf id) = k ∧ FlowSpec cfg B C D (c.specOf id)) :
    ((ids.map c.bill).map Prod.snd).sum ≤ D := by
  have hw : 0 < keyWeight cfg k := hk ▸ hspec.weight
  have hC : 0 ≤ C := (zero_le_one.trans (le_max_left 1 _)).trans hspec.cost
  have hbill : ∀ x ∈ (ids.map c.bill).map Prod.snd, x ≤ C / keyWeight cfg k := by
    intro x hx
    simp only [List.map_map, List.mem_map, Function.comp_apply] at hx
    obtain ⟨id, hid, rfl⟩ := hx
    obtain ⟨hkey, hok⟩ := hids id hid
    simp only [Core.bill, hkey, hcfg]
    have := hok.cost
    gcongr
  have hlen' : (ids.length : ℚ) ≤ B := by exact_mod_cast hlen
  calc ((ids.map c.bill).map Prod.snd).sum
      ≤ ((ids.map c.bill).map Prod.snd).length • (C / keyWeight cfg k) := List.sum_le_card_nsmul _ _ hbill
    _ = ids.length * (C / keyWeight cfg k) := by simp
    _ ≤ B * (C / keyWeight cfg k) := by gcongr
    _ = B * C / flowWeight cfg spec := by rw [flowWeight_eq, hk, mul_div_assoc]
    _ ≤ D := hspec.share

/-- A seed near the least flow is dispatched in a batch of its flow. -/
theorem Even.dispatch {cfg : SchedulerConfig} {B : ℤ} {C D E : ℚ} {s : Impl} {r : RequestId} {ex : Bool}
    (h : Even cfg (FlowSpec cfg B C D) (D + E) E s.core [r]) (hone : OneFlow s r ex) :
    Even cfg (FlowSpec cfg B C D) (D + E) E (s.doPlanDispatch r ex).1.core [] := by
  have hcfg : s.cfg = cfg := h.config
  have hstock : Stocked cfg (FlowSpec cfg B C D) (s.doPlanDispatch r ex).1.core :=
    h.toStocked.next (.planDispatch r ex) (by simp)
  refine ⟨hstock, ?_, by simp⟩
  have hweight : ∀ id rec, s.core.requests.find id = some rec → 0 < flowWeight s.cfg rec.spec :=
    fun id rec hf => hcfg ▸ (h.specs id rec hf).weight
  rcases planDispatch_spec s r ex h.lined hweight with ⟨_, haged⟩ | ⟨out, hout, hdec, hr, hlen, hstored, hfair⟩
  · rw [haged.fair]
    exact h.fair
  obtain ⟨_, _, hnear⟩ := h.seeded r List.mem_cons_self
  have hok : ∀ id ∈ out.batchMembers, FlowSpec cfg B C D (s.core.specOf id) := by
    intro id hid
    obtain ⟨rec, hf⟩ := Option.isSome_iff_exists.1 (hstored id hid)
    rw [Core.specOf, hf]
    exact h.specs id rec hf
  have hkey : ∀ id ∈ out.batchMembers, flowKey (s.core.specOf id) = flowKey (s.core.specOf r) := hone out hout hdec
  have hsum := (hok r hr).sum_le rfl h.config out.batchMembers
    ((hcfg ▸ hlen).trans (hok r hr).limit) fun id hid => ⟨hkey id hid, hok id hid⟩
  have hbill : ∀ p ∈ out.batchMembers.map s.core.bill, p.1 = flowKey (s.core.specOf r) ∧ 0 ≤ p.2 := by
    intro p hp
    obtain ⟨id, hid, rfl⟩ := List.mem_map.1 hp
    refine ⟨hkey id hid, div_nonneg (zero_le_one.trans (le_max_left 1 _)) ?_⟩
    rw [h.config]
    exact (hok id hid).weight.le
  have hne : out.batchMembers.map s.core.bill ≠ [] := by
    rw [ne_eq, List.map_eq_nil_iff]
    exact List.ne_nil_of_mem hr
  rw [hfair, FairQueue.chargeAll_flow hne hbill]
  refine h.fair.charge hnear (List.sum_nonneg fun x hx => ?_) (by gcongr)
  obtain ⟨p, hp, rfl⟩ := List.mem_map.1 hx
  exact (hbill p hp).2

/-! ## Runs -/

/-- What is asked of the operations of a run for fair shares. -/
structure Orderly (cfg : SchedulerConfig) (B : ℤ) (C D E : ℚ) (c : Calls) (op : Op) : Prop where
  turn : InTurn c op
  through : ThroughPlanNext c op
  submit : ∀ spec pre, op = .submit spec pre → FlowSpec cfg B C D spec
  boost : op = .planNextSeed → c.state.BoostWithin E
  flow : ∀ r ex, op = .planDispatch r ex → OneFlow c.state r ex

/-- `Even`, with at most one call in progress. -/
def Calls.Even (cfg : SchedulerConfig) (B : ℤ) (C D E : ℚ) (c : Calls) : Prop :=
  c.seeds.length ≤ 1 ∧ InferenceScheduler.Even cfg (FlowSpec cfg B C D) (D + E) E c.state.core c.seeds

section runs

variable {cfg : SchedulerConfig} {B : ℤ} {C D E : ℚ} {c : Calls} {op : Op}

theorem Calls.Even.step (h : c.Even cfg B C D E) (hD : 0 ≤ D) (hE : 0 ≤ E)
    (hop : Orderly cfg B C D E c op) : (planning.next c op).Even cfg B C D E := by
  obtain ⟨hlen, heven⟩ := h
  have hquiet : op ≠ .planNextSeed → (∀ r ex, op ≠ .planDispatch r ex) → c.seedsAfter op = c.seeds →
      (planning.next c op).Even cfg B C D E := by
    intro hseed hplan hsame
    have hpost := posts_invariant (s := c.state)
      (I := fun b => InferenceScheduler.Even cfg (FlowSpec cfg B C D) (D + E) E b.core c.seeds)
      (fun b e he hb => hb.post (add_nonneg hD hE) hE hop.submit he (quiet_of_posted he hseed hplan)) heven
    rw [← hsame] at hpost hlen
    exact ⟨hlen, hpost⟩
  cases op with
  | planNextSeed =>
    have hnil : c.seeds = [] := hop.turn
    have hseeds : (planning.next c .planNextSeed).seeds = c.state.planNextSeed.2.toList := by
      show c.seeds ++ _ = _
      rw [hnil, List.nil_append]
    rw [hnil] at heven
    refine ⟨?_, ?_⟩
    · rw [hseeds]
      cases c.state.planNextSeed.2 <;> simp
    · rw [hseeds]
      exact heven.seed (hop.boost rfl)
  | planDispatch r ex =>
    have hr : r ∈ c.seeds := hop.through
    have hone : c.seeds = [r] := by
      match hs : c.seeds, hlen, hr with
      | [_], _, hr => rw [List.mem_singleton.1 hr]
    have hseeds : (planning.next c (.planDispatch r ex)).seeds = [] := by
      show c.seeds.erase r = []
      rw [hone, List.erase_cons_head]
    rw [hone] at heven
    refine ⟨by simp [hseeds], ?_⟩
    rw [hseeds]
    exact heven.dispatch (hop.flow r ex rfl)
  | _ => exact hquiet (by simp) (by simp) rfl

/-- The bills of a flow's members add up to their cost. -/
theorem Impl.sum_bill (s : Impl) (k : FlowKey) : ∀ ids : List RequestId,
    (((ids.map s.core.bill).filter fun p => p.1 = k).map Prod.snd).sum =
      ((ids.filter fun id => flowKey (s.specOf id) = k).map s.memberCost).sum / keyWeight s.cfg k
  | [] => by simp
  | id :: ids => by
    have hkey : (s.core.bill id).1 = flowKey (s.specOf id) := rfl
    have hcost : (s.core.bill id).2 = s.memberCost id / keyWeight s.cfg (flowKey (s.specOf id)) := rfl
    by_cases hk : flowKey (s.specOf id) = k
    · rw [List.map_cons, List.filter_cons_of_pos (by simp [hkey, hk]), List.filter_cons_of_pos (by simp [hk]),
        List.map_cons, List.map_cons, List.sum_cons, List.sum_cons, sum_bill s k ids, hcost, hk, add_div]
    · rw [List.map_cons, List.filter_cons_of_neg (by simp [hkey, hk]), List.filter_cons_of_neg (by simp [hk]),
        sum_bill s k ids]

/-- A flow with heap entries moves by what is dispatched for it. -/
theorem finish_next {k : FlowKey} (hl : Lined c.state.core)
    (hw : ∀ id rec, c.state.core.requests.find id = some rec → 0 < flowWeight c.state.cfg rec.spec)
    (hk : (c.state.ready.flow k).pending.entries ≠ []) (op : Op) :
    (planning.next c op).state.ready.fair.finish k =
      c.state.ready.fair.finish k + served k (planning.event c op) / keyWeight c.state.cfg k := by
  have hquiet : op ≠ .planNextSeed → (∀ r ex, op ≠ .planDispatch r ex) → served k (planning.event c op) = 0 →
      (planning.next c op).state.ready.fair.finish k =
        c.state.ready.fair.finish k + served k (planning.event c op) / keyWeight c.state.cfg k := by
    intro hseed hplan hzero
    have hpost := posts_invariant (s := c.state)
      (I := fun b => (b.core.ready.flow k).pending.entries ≠ [] ∧
        b.core.ready.fair.finish k = c.state.ready.fair.finish k)
      (fun b e he hb => by
        have hq := quiet_of_posted he hseed hplan
        exact ⟨pending_post hq hb.1, (finish_post hq hb.1).trans hb.2⟩) ⟨hk, rfl⟩
    rw [hzero, zero_div, add_zero]
    exact hpost.2
  cases op with
  | planNextSeed =>
    have hsame : (planning.next c .planNextSeed).state.ready.fair.finish k = c.state.ready.fair.finish k :=
      c.state.planNextSeed_spec.1.finish k
    have hzero : served k (planning.event c .planNextSeed) = 0 := rfl
    rw [hsame, hzero, zero_div, add_zero]
  | planDispatch r ex =>
    have hout : (planning.event c (.planDispatch r ex)).out = .dispatch (c.state.doPlanDispatch r ex).2 := rfl
    show (c.state.doPlanDispatch r ex).1.core.ready.fair.finish k = _
    rcases planDispatch_spec c.state r ex hl hw with ⟨hno, haged⟩ | ⟨out, hok, hdec, _, _, _, hfair⟩
    · have hzero : served k (planning.event c (.planDispatch r ex)) = 0 := by
        unfold served
        rw [hout]
        cases hres : (c.state.doPlanDispatch r ex).2 with
        | error => rfl
        | ok out => exact if_neg (hno out hres)
      rw [haged.fair, hzero, zero_div, add_zero]
      rfl
    · have hserved : served k (planning.event c (.planDispatch r ex)) =
          ((out.batchMembers.filter fun id => flowKey (c.state.specOf id) = k).map c.state.memberCost).sum := by
        unfold served
        rw [hout, hok]
        exact if_pos hdec
      rw [hfair, FairQueue.finish_chargeAll, hserved, c.state.sum_bill]
      rfl
  | _ => exact hquiet (by simp) (by simp) rfl

/-- A flow with a queued request has heap entries, so it is active. -/
theorem Lined.entries_of_backlogged {s : Impl} {k : FlowKey} (h : Lined s.core) (hk : s.backlogged k = true) :
    (s.ready.flow k).pending.entries ≠ [] := by
  obtain ⟨rec, hrec, hq⟩ := List.any_eq_true.1 hk
  simp only [Bool.and_eq_true, beq_iff_eq] at hq
  obtain ⟨hs, hkey⟩ := hq
  obtain ⟨_, _, e, he, _⟩ := h.queued rec.requestId rec ⟨Keyed.mem_records.1 hrec, hs⟩
  rw [hkey] at he
  exact List.ne_nil_of_mem he

end runs

/-- A scheduler whose flows have weights. -/
def Calls.Weighted (cfg : SchedulerConfig) (c : Calls) : Prop :=
  Stocked cfg (fun spec => 0 < flowWeight cfg spec) c.state.core

theorem Calls.Even.weighted {cfg : SchedulerConfig} {B : ℤ} {C D E : ℚ} {c : Calls} (h : c.Even cfg B C D E) :
    c.Weighted cfg :=
  ⟨h.2.config, h.2.lined, fun r rec hf => (h.2.specs r rec hf).weight⟩

section shares

variable {cfg : SchedulerConfig} {ok : Calls → Op → Prop} {I : Calls → Prop}
  (hstep : ∀ c op, ok c op → I c → I (planning.next c op))

include hstep

/-- Over a part of a run in which a flow stays backlogged it moves by what is
dispatched for it. -/
theorem finish_run (hI : ∀ c, I c → c.Weighted cfg) {k : FlowKey} : ∀ (part : List Op) (c : Calls), I c →
    planning.Allowed ok c part → planning.Throughout (fun c => c.state.backlogged k = true) c part →
    (planning.run c part).state.ready.fair.finish k =
      c.state.ready.fair.finish k + service k (planning.trace c part) / keyWeight cfg k
  | [], c, _, _, _ => by simp [service, trace]
  | op :: part, c, hc, hok, hback => by
    have hstock := hI c hc
    have hcfg : c.state.cfg = cfg := hstock.config
    have hw : ∀ id rec, c.state.core.requests.find id = some rec → 0 < flowWeight c.state.cfg rec.spec :=
      fun id rec hf => hcfg ▸ hstock.specs id rec hf
    have hnext := finish_next hstock.lined hw (hstock.lined.entries_of_backlogged hback.first) op
    have hrest := finish_run hI part (planning.next c op) (hstep c op hok.1 hc) hok.2 hback.2
    rw [run_cons, hrest, hnext, hcfg, trace, service_cons, add_div, add_assoc]

/-- Two flows that stay backlogged are served alike. -/
theorem service_sub_le {B : ℤ} {C D E : ℚ} (hI : ∀ c, I c → c.Even cfg B C D E) {i j : FlowKey} {c : Calls}
    {part : List Op} (hc : I c) (hok : planning.Allowed ok c part)
    (hi : planning.Throughout (fun c => c.state.backlogged i = true) c part)
    (hj : planning.Throughout (fun c => c.state.backlogged j = true) c part) :
    service i (planning.trace c part) / keyWeight cfg i - service j (planning.trace c part) / keyWeight cfg j ≤
      2 * (D + E) := by
  have hend : I (planning.run c part) := run_invariant hstep hc hok
  have hweighted : ∀ c, I c → c.Weighted cfg := fun c hc => (hI c hc).weighted
  have hstart := (hI c hc).2
  have hlast := (hI _ hend).2
  have hi₀ := hstart.lined.active i (hstart.lined.entries_of_backlogged hi.first)
  have hj₁ := hlast.lined.active j (hlast.lined.entries_of_backlogged hj.last)
  have hle := hstart.fair.service hlast.fair hi₀ hj₁ (finish_run hstep hweighted part c hc hok hi)
    (finish_run hstep hweighted part c hc hok hj)
  linarith

end shares

/-! ## Without batching -/

/-- Requests are dispatched alone, have a weight, a cost of at most `C` and a
share of at most `D` for it. -/
def SoloSubmit (cfg : SchedulerConfig) (C D : ℚ) : Op → Prop
  | .submit spec _ => Impl.batchLimit cfg spec = 1 ∧ 0 < flowWeight cfg spec ∧ max 1 spec.demand.costUnits ≤ C ∧
      C / flowWeight cfg spec ≤ D
  | _ => True

/-- Requests have no deadline. -/
def NoDeadline : Op → Prop
  | .submit spec _ => spec.deadline.valid = false
  | _ => True

instance (cfg : SchedulerConfig) (C D : ℚ) (op : Op) : Decidable (SoloSubmit cfg C D op) := by
  apply @Op.casesOn _ op <;> (intros; dsimp only [SoloSubmit]; infer_instance)

instance (op : Op) : Decidable (NoDeadline op) := by
  apply @Op.casesOn _ op <;> (intros; dsimp only [NoDeadline]; infer_instance)

instance (c : Calls) (op : Op) : Decidable (ThroughPlanNext c op) := by
  apply @Op.casesOn _ op <;> (intros; dsimp only [ThroughPlanNext]; infer_instance)

instance (c : Calls) (op : Op) : Decidable (InTurn c op) := by
  apply @Op.casesOn _ op <;> (intros; dsimp only [InTurn]; infer_instance)

/-- Requests that are dispatched alone make batches of one flow. -/
theorem oneFlow_of_limit {s : Impl} (r : RequestId) (ex : Bool) (h : Lined s.core)
    (hs : ∀ id rec, s.core.requests.find id = some rec →
      0 < flowWeight s.cfg rec.spec ∧ Impl.batchLimit s.cfg rec.spec ≤ 1) : OneFlow s r ex := by
  intro out hout hdec id hid
  rcases planDispatch_spec s r ex h fun id rec hf => (hs id rec hf).1 with
    ⟨hno, _⟩ | ⟨out', hout', _, hmem, hlen, hstored, _⟩
  · exact absurd hdec (hno out hout)
  · obtain rfl : out = out' := Except.ok.inj (hout.symm.trans hout')
    obtain ⟨rec, hf⟩ := Option.isSome_iff_exists.1 (hstored r hmem)
    have hspec : s.specOf r = rec.spec := Impl.specOf_of_find hf
    have hlimit := (hs r rec hf).2
    rw [hspec] at hlen
    have hone : out.batchMembers.length ≤ 1 := by omega
    obtain ⟨a, hm⟩ := List.length_eq_one_iff.1 (le_antisymm hone (List.length_pos_of_mem hid))
    rw [hm, List.mem_singleton] at hid hmem
    rw [hid, hmem]

/-- A request without a deadline is not boosted. -/
theorem effectiveFinish_of_no_deadline {cfg : SchedulerConfig} {f : Flow} {r : RequestRecord} {now : ClockTime}
    (h : r.spec.deadline.valid = false) : Impl.effectiveFinish cfg f r now = f.virtualFinish := by
  simp [Impl.effectiveFinish, h]

theorem boostWithin_of_no_deadline {s : Impl}
    (h : ∀ r rec, s.core.requests.find r = some rec → rec.spec.deadline.valid = false) : s.BoostWithin 0 := by
  intro k _ hhead
  obtain ⟨e, he⟩ := Option.ne_none_iff_exists'.1 hhead
  obtain ⟨rec, hf, _⟩ := Core.exists_of_alive (Core.alive_of_headEntry he)
  have heff : s.core.effective s.now k = (s.ready.flow k).virtualFinish := by
    rw [Core.effective, Core.head_eq he, hf, Option.getD_some]
    exact effectiveFinish_of_no_deadline (h _ rec hf)
  rw [heff, add_zero]
  exact ⟨le_refl _, le_refl _⟩

theorem Stocked.init (cfg : SchedulerConfig) (now : ClockTime) (salt : UInt64) (epoch : Option SchedulerEpoch)
    (ok : RequestSpec → Prop) : Stocked cfg ok (Impl.init cfg now salt epoch).core := by
  exact ⟨rfl, .init cfg now salt epoch, by simp [Impl.core, Impl.init]⟩

theorem Calls.Even.init (cfg : SchedulerConfig) (now : ClockTime) (salt : UInt64) (epoch : Option SchedulerEpoch)
    (B : ℤ) (C D E : ℚ) : Calls.Even cfg B C D E ⟨Impl.init cfg now salt epoch, []⟩ := by
  refine ⟨by simp, .init cfg now salt epoch _, ⟨?_, ?_, ?_⟩, by simp⟩ <;>
    simp [Impl.core, Impl.init, Ready.fair, Ready.flow]

/-- `Calls.Even.step` for requests that are dispatched alone. -/
theorem Calls.Even.step_solo {cfg : SchedulerConfig} {C D E : ℚ} {c : Calls} {op : Op} (h : c.Even cfg 1 C D E)
    (hD : 0 ≤ D) (hE : 0 ≤ E) (hturn : InTurn c op) (hthrough : ThroughPlanNext c op) (hsolo : SoloSubmit cfg C D op)
    (hboost : op = .planNextSeed → c.state.BoostWithin E) : (planning.next c op).Even cfg 1 C D E := by
  refine h.step hD hE ⟨hturn, hthrough, fun spec pre he => ?_, hboost, fun r ex he => ?_⟩
  · subst he
    obtain ⟨hlimit, hw, hcost, hshare⟩ := hsolo
    exact ⟨hlimit.le, hw, hcost, by simpa using hshare⟩
  · subst he
    have heven := h.2
    have hcfg : c.state.cfg = cfg := heven.config
    refine oneFlow_of_limit r ex heven.lined fun id rec hf => ?_
    rw [hcfg]
    exact ⟨(heven.specs id rec hf).weight, (heven.specs id rec hf).limit⟩

/-- An even run whose requests have no deadline. -/
def Calls.Calm (cfg : SchedulerConfig) (B : ℤ) (C D : ℚ) (c : Calls) : Prop :=
  c.Even cfg B C D 0 ∧ Stocked cfg (fun spec => spec.deadline.valid = false) c.state.core

theorem Calls.Calm.init (cfg : SchedulerConfig) (now : ClockTime) (salt : UInt64) (epoch : Option SchedulerEpoch)
    (B : ℤ) (C D : ℚ) : Calls.Calm cfg B C D ⟨Impl.init cfg now salt epoch, []⟩ :=
  ⟨.init cfg now salt epoch B C D 0, .init cfg now salt epoch _⟩

/-- Without deadlines no seed is boosted. -/
theorem Calls.Calm.step {cfg : SchedulerConfig} {B : ℤ} {C D : ℚ} {c : Calls} {op : Op} (h : c.Calm cfg B C D)
    (hno : NoDeadline op)
    (heven : (op = .planNextSeed → c.state.BoostWithin 0) → (planning.next c op).Even cfg B C D 0) :
    (planning.next c op).Calm cfg B C D := by
  refine ⟨heven fun _ => boostWithin_of_no_deadline h.2.specs, h.2.next op fun spec pre he => ?_⟩
  subst he
  exact hno

/-- **Weighted fairness without batching.** In runs without a recovery, requests
are dispatched alone and have no deadline, and dispatches come from calls of
`plan_next_dispatch`, one at a time. Then the active flows stay within `D` of each
other and of the virtual time, and while two flows stay backlogged the costs
dispatched for them, by weight, differ by at most `2D`. -/
theorem fair_without_batching {cfg : SchedulerConfig} {now : ClockTime} {salt : UInt64}
    {epoch : Option SchedulerEpoch} {C D : ℚ} {before part : List Op} (hD : 0 ≤ D)
    (hok : planning.Allowed
      (fun c op => InTurn c op ∧ ThroughPlanNext c op ∧ SoloSubmit cfg C D op ∧ NoDeadline op)
      ⟨Impl.init cfg now salt epoch, []⟩ (before ++ part)) :
    let c := planning.run ⟨Impl.init cfg now salt epoch, []⟩ before
    (∀ i ∈ c.state.ready.activeFlows, ∀ j ∈ c.state.ready.activeFlows,
      (c.state.ready.flow i).virtualFinish ≤ (c.state.ready.flow j).virtualFinish + D ∧
        c.state.ready.virtualTime ≤ (c.state.ready.flow j).virtualFinish + D) ∧
      ∀ i j, planning.Throughout (fun c => c.state.backlogged i = true ∧ c.state.backlogged j = true) c part →
        |service i (planning.trace c part) / keyWeight cfg i - service j (planning.trace c part) / keyWeight cfg j| ≤
          2 * D := by
  intro c
  obtain ⟨hbefore, hpart⟩ := allowed_append.1 hok
  have hstep : ∀ c op, (InTurn c op ∧ ThroughPlanNext c op ∧ SoloSubmit cfg C D op ∧ NoDeadline op) →
      c.Calm cfg 1 C D → (planning.next c op).Calm cfg 1 C D := by
    intro c op hop hc
    obtain ⟨hturn, hthrough, hsolo, hno⟩ := hop
    exact hc.step hno fun hboost => hc.1.step_solo hD le_rfl hturn hthrough hsolo hboost
  have hc := run_invariant hstep (.init cfg now salt epoch 1 C D) hbefore
  refine ⟨fun i _ j hj => ?_, fun i j hback => ?_⟩
  · have hfair := hc.1.2.fair
    rw [add_zero] at hfair
    exact ⟨hfair.spread hj, hfair.close j hj⟩
  · have hi := hback.imp fun _ h => h.1
    have hj := hback.imp fun _ h => h.2
    have hij := service_sub_le hstep (fun _ h => h.1) hc hpart hi hj
    have hji := service_sub_le hstep (fun _ h => h.1) hc hpart hj hi
    rw [add_zero] at hij hji
    rw [abs_sub_le_iff]
    exact ⟨hij, hji⟩

/-- Tenants of weight 1 and 2 stay backlogged over three calls: the first is
served once and the second twice. -/
theorem fair_without_batching_in_turn :
    let cfg : SchedulerConfig := { fairness := { tenantWeights := [{ tenant := ⟨2⟩, weight := 2 }] } }
    let spec (t : UInt64) : RequestSpec := { plainSpec with tenant := ⟨t⟩, maxBatchSize := 1 }
    let before : List Op := [.registerWorker (plainWorker 3), .submit (spec 1) (some ⟨1⟩),
      .submit (spec 1) (some ⟨2⟩), .submit (spec 2) (some ⟨3⟩), .submit (spec 2) (some ⟨4⟩),
      .submit (spec 2) (some ⟨5⟩)]
    let part : List Op := [.planNextSeed, .planDispatch ⟨1⟩ false, .planNextSeed, .planDispatch ⟨3⟩ false,
      .planNextSeed, .planDispatch ⟨4⟩ false]
    let c := planning.run ⟨Impl.init cfg 0 0x80000001 none, []⟩ before
    service (flowKey (spec 1)) (planning.trace c part) = 1 ∧ service (flowKey (spec 2)) (planning.trace c part) = 2 ∧
      |service (flowKey (spec 1)) (planning.trace c part) / keyWeight cfg (flowKey (spec 1)) -
        service (flowKey (spec 2)) (planning.trace c part) / keyWeight cfg (flowKey (spec 2))| ≤ 2 * 1 :=
  ⟨by decide +kernel, by decide +kernel,
    (fair_without_batching (C := 1) zero_le_one (by decide +kernel)).2 _ _ (by decide +kernel)⟩

end InferenceScheduler
