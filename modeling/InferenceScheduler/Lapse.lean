/-
What planning does before it reserves a batch: the expiry scan and the choice
of a seed expire queued requests whose deadline has passed, drop dead heap
entries, and leave everything else as it was (`Lapsed`).

`planMembers_lapsed`: the batch of a request that is still in time is the one
formed before the scan.
-/
import InferenceScheduler.Batching
import InferenceScheduler.Selection

namespace InferenceScheduler

/-- The requests of `c'` are those of `c`, some of the overdue ones expired. -/
structure Lapsed (now : ClockTime) (c c' : Core) : Prop where
  cfg : c'.cfg = c.cfg
  clock : c'.now = c.now
  ids : c'.ids = c.ids
  pool : c'.pool = c.pool
  record : ∀ r, c'.requests.find r = c.requests.find r ∨
    ∃ rec, c.Waits r rec ∧ rec.spec.deadline.expired now = true ∧ c'.requests.find r = some rec.expire
  index : ∀ r, c'.requests.find r = c.requests.find r →
    (r ∈ c'.ready.queued ↔ r ∈ c.ready.queued) ∧ ∀ k, r ∈ c'.ready.bucket k ↔ r ∈ c.ready.bucket k

namespace Lapsed

variable {now : ClockTime} {c c' c'' : Core} {r : RequestId} {rec : RequestRecord}

theorem refl (now : ClockTime) (c : Core) : Lapsed now c c :=
  ⟨rfl, rfl, rfl, rfl, fun _ => .inl rfl, fun _ _ => ⟨.rfl, fun _ => .rfl⟩⟩

/-- A request that waits was waiting. -/
theorem waits (h : Lapsed now c c') (hr : c'.Waits r rec) : c.Waits r rec := by
  rcases h.record r with heq | ⟨old, _, _, hf⟩
  · exact ⟨heq ▸ hr.1, hr.2⟩
  · obtain rfl := Option.some.inj (hf.symm.trans hr.1)
    exact absurd hr.2 (by simp [RequestRecord.expire])

/-- A record that is the same after two steps was the same after one. -/
theorem same_of_trans (h : Lapsed now c c') (h' : Lapsed now c' c'') (heq : c''.requests.find r = c.requests.find r) :
    c''.requests.find r = c'.requests.find r ∧ c'.requests.find r = c.requests.find r := by
  rcases h'.record r with hsame | ⟨old, hwaits, _, hf⟩
  · exact ⟨hsame, hsame.symm.trans heq⟩
  · have hold := (h.waits hwaits).1
    have hsame := Option.some.inj (hold.symm.trans (heq.symm.trans hf))
    exact absurd hwaits.2 (by rw [hsame]; simp [RequestRecord.expire])

theorem trans (h : Lapsed now c c') (h' : Lapsed now c' c'') : Lapsed now c c'' where
  cfg := h'.cfg.trans h.cfg
  clock := h'.clock.trans h.clock
  ids := h'.ids.trans h.ids
  pool := h'.pool.trans h.pool
  record r := by
    rcases h'.record r with heq | ⟨rec, hwaits, hexp, hf⟩
    · rw [heq]
      exact h.record r
    · exact .inr ⟨rec, h.waits hwaits, hexp, hf⟩
  index r heq := by
    obtain ⟨h₂, h₁⟩ := h.same_of_trans h' heq
    exact ⟨(h'.index r h₂).1.trans (h.index r h₁).1, fun k => ((h'.index r h₂).2 k).trans ((h.index r h₁).2 k)⟩

/-- The heaps and the active flows do not matter. -/
theorem of_flows (h : Lapsed now c c') (flows : Table FlowKey Flow) (active : USet FlowKey) :
    Lapsed now c { c' with ready := { c'.ready with flows := flows, activeFlows := active } } :=
  ⟨h.cfg, h.clock, h.ids, h.pool, h.record, h.index⟩

theorem expire (hwaits : c.Waits rec.requestId rec) (hexp : rec.spec.deadline.expired now = true) :
    Lapsed now c (c.act (.expire rec)) := by
  have hself : (c.act (.expire rec)).requests.find rec.requestId = some rec.expire :=
    Keyed.find_put_self c.requests rec.expire
  refine ⟨rfl, rfl, rfl, rfl, fun r => ?_, fun r heq => ?_⟩
  · by_cases hr : rec.requestId = r
    · subst hr
      exact .inr ⟨rec, hwaits, hexp, hself⟩
    · exact .inl (Keyed.find_put_ne c.requests (v := rec.expire) hr)
  · have hr : r ≠ rec.requestId := by
      intro hr
      subst hr
      have hsame := Option.some.inj (hself.symm.trans (heq.trans hwaits.1))
      exact absurd hwaits.2 (by rw [← hsame]; simp [RequestRecord.expire])
    refine ⟨?_, fun k => (c.ready.mem_bucket_dequeue c.cfg rec k r).trans ?_⟩
    · exact USet.mem_erase.trans (and_iff_right hr)
    · exact and_iff_left fun hx => hr hx.2

/-- A request that waits in time, or does not wait, stays what it is. -/
theorem keeps (h : Lapsed now c c') (hf : c.requests.find r = some rec)
    (hrec : rec.state = .queued → rec.spec.deadline.expired now = false) : c'.requests.find r = some rec := by
  rcases h.record r with heq | ⟨old, hwaits, hexp, _⟩
  · exact heq.trans hf
  · obtain rfl := Option.some.inj (hf.symm.trans hwaits.1)
    exact absurd hexp (by simp [hrec hwaits.2])

/-- What was asked for stays. -/
theorem spec (h : Lapsed now c c') (r : RequestId) :
    (c'.requests.find r).map (·.spec) = (c.requests.find r).map (·.spec) := by
  rcases h.record r with heq | ⟨rec, hwaits, _, hf⟩
  · rw [heq]
  · rw [hf, hwaits.1]
    rfl

end Lapsed

theorem Deadline.valid_of_expired {d : Deadline} {now : ClockTime} (h : d.expired now = true) : d.valid = true := by
  unfold Deadline.expired at h
  unfold Deadline.valid
  cases hp : d.point with
  | none => simp [hp] at h
  | some p => rfl

namespace Impl

variable {now : ClockTime} {s : Impl}

theorem lapsed_expireScan (s : Impl) (now : ClockTime) : Lapsed now s.core (s.expireScan now).core :=
  Expiring.invariant (I := Lapsed now s.core)
    (fun _ _ hen hlate h => h.trans (.expire hen (Bool.and_eq_true_iff.1 hlate).2)) (expireScan_effects s now)
    (.refl now s.core)

theorem lapsed_planNextSeed (s : Impl) : Lapsed s.now s.core s.planNextSeed.1.core := by
  refine @posts_invariant s .planNextSeed (fun b => Lapsed s.now s.core b.core) (fun b e he h => ?_) (.refl s.now s.core)
  cases e with
  | move m =>
    obtain ⟨⟨hen, hdoes⟩, hbacked⟩ := he
    rw [show (b.act (.move m)).core = b.core.act m from b.move_core m]
    cases hdoes with
    | seedExpire => exact h.trans (.expire hen (Bool.and_eq_true_iff.1 hbacked).2)
    | pop | sleep => exact h.of_flows _ _
    | recoverRetry hl | recoverFail hl | sweep hl => cases hl
  | turnAway | settle t => exact h
  | dismiss late => exact absurd trivial he
  | again rec spec => exact absurd trivial he.1

/-- The batch of a request is the one formed before. -/
theorem planMembers_lapsed {t : Impl} (h : Lapsed now s.core t.core) (r : RequestId) :
    t.planMembers r now = s.planMembers r now := by
  refine planMembers_congr h.cfg h.spec fun spec id => ?_
  rw [mem_candidates, mem_candidates, show t.cfg = s.cfg from h.cfg]
  constructor
  · intro hid
    obtain ⟨hbucket, hne, hqueued, rec, hwaits, hexp⟩ := hid
    have hold := h.waits hwaits
    obtain ⟨hq, hb⟩ := h.index id (hwaits.1.trans hold.1.symm)
    exact ⟨(hb _).1 hbucket, hne, hq.1 hqueued, rec, hold, hexp⟩
  · intro hid
    obtain ⟨hbucket, hne, hqueued, rec, hwaits, hexp⟩ := hid
    have hkept := h.keeps hwaits.1 fun _ => hexp
    obtain ⟨hq, hb⟩ := h.index id (hkept.trans hwaits.1.symm)
    exact ⟨(hb _).2 hbucket, hne, hq.2 hqueued, rec, ⟨hkept, hwaits.2⟩, hexp⟩

/-! ## Planning calls -/

/-- `plan_dispatch` answers `Dispatch`. -/
def Dispatches (s : Impl) (r : RequestId) (ex : Bool) : Prop :=
  ∃ out, (s.doPlanDispatch r ex).2 = .ok out ∧ out.decision = .dispatch

instance (s : Impl) (r : RequestId) (ex : Bool) : Decidable (s.Dispatches r ex) :=
  decidable_of_iff ((s.doPlanDispatch r ex).2.toOption.map (·.decision) = some .dispatch) (by
    unfold Dispatches
    cases (s.doPlanDispatch r ex).2 <;> simp [Except.toOption])

/-- A request that is dispatched is in time. -/
theorem Dispatches.in_time {r : RequestId} {rec : RequestRecord} {ex : Bool} (h : s.Dispatches r ex)
    (hf : s.requests.find r = some rec) :
    rec.spec.deadline.expired s.now = false := by
  obtain ⟨out, hout, hdispatch⟩ := h
  by_contra hlate
  have hexp : rec.spec.deadline.expired s.now = true := Bool.eq_true_of_not_eq_false hlate
  have hspec := (s.lapsed_expireScan s.now).spec r
  rw [show s.core.requests.find r = some rec from hf, Option.map_some, Option.map_eq_some_iff] at hspec
  obtain ⟨rec', hf', hsame⟩ := hspec
  have hvalid := Deadline.valid_of_expired hexp
  simp only [doPlanDispatch, show (s.expireScan s.now).requests.find r = some rec' from hf', hsame, hvalid, hexp,
    Bool.and_self, if_true, Except.ok.injEq] at hout
  obtain rfl := hout
  cases hdispatch

theorem planRunnable_requestId (s : Impl) (rec : RequestRecord) (now : ClockTime) (ex : Bool) :
    (s.planRunnable rec now ex).2.requestId = rec.requestId := by
  unfold planRunnable
  simp only
  split
  · rfl
  · split
    · rfl
    · split <;> rfl

theorem doPlanDispatch_requestId {r : RequestId} {ex : Bool} {out : DispatchOutcome}
    (h : (s.doPlanDispatch r ex).2 = .ok out) : out.requestId = r := by
  unfold doPlanDispatch at h
  simp only at h
  split at h
  · cases h
  · next rec hf =>
    split at h
    · obtain rfl := Except.ok.inj h
      rfl
    · split at h
      · obtain rfl := Except.ok.inj h
        rfl
      · obtain rfl := Except.ok.inj h
        have hid : rec.requestId = r := Keyed.key_of_find hf
        exact (planRunnable_requestId _ rec s.now ex).trans hid

end Impl

/-- The planning calls, with what they leave and answer. -/
inductive Plans (s : Impl) : Impl × Result DispatchOutcome → Prop
  | request (r : RequestId) (ex : Bool) : Plans s (s.doPlanDispatch r ex)
  | next (ex : Bool) : Plans s (s.doPlanNext ex)

theorem Plans.exists_ok {s : Impl} {plan : Impl × Result DispatchOutcome} (h : Plans s plan) {β : Type}
    {f : DispatchOutcome → β} {x : β} (hx : plan.2.toOption.map f = some x) :
    ∃ s' out, Plans s (s', .ok out) ∧ f out = x := by
  obtain ⟨s', result⟩ := plan
  cases result with
  | error e => cases hx
  | ok out => exact ⟨s', out, h, Option.some.inj hx⟩

/-- A call that answers `Dispatch` has expired overdue requests, and then
reserved the batch of one that is not. -/
structure Plans.Reserves (s s' : Impl) (out : DispatchOutcome) (t : Impl) (wr : WorkerRecord) : Prop where
  lapsed : Lapsed s.now s.core t.core
  dispatched : Dispatched t s' out.requestId wr out
  members : out.batchMembers = s.planMembers out.requestId s.now
  seed : ∃ rec, s.requests.find out.requestId = some rec ∧ (rec.state = .queued ∨ rec.state = .admitted) ∧
    rec.spec.deadline.expired s.now = false

/-- A plan for one request, made after requests have expired. -/
theorem Plans.reserves_request {s t s' : Impl} {out : DispatchOutcome} {r : RequestId} {ex : Bool}
    (hlapsed : Lapsed s.now s.core t.core) (heq : t.doPlanDispatch r ex = (s', .ok out))
    (hdispatch : out.decision = .dispatch) : ∃ t wr, Plans.Reserves s s' out t wr := by
  have hnow : t.now = s.now := hlapsed.clock
  have hout : (t.doPlanDispatch r ex).2 = .ok out := by rw [heq]
  have hscan : Lapsed s.now s.core (t.expireScan t.now).core := by
    rw [hnow]
    exact hlapsed.trans (t.lapsed_expireScan s.now)
  rcases t.doPlanDispatch_cases (P := fun _ _ => True) r ex (fun _ _ _ => trivial) with ⟨_, hno⟩ | ⟨wr, out', hout', hd⟩
  · exact absurd hdispatch (hno out hout)
  · rw [heq] at hd
    obtain rfl := Except.ok.inj (hout.symm.trans hout')
    obtain rfl := Impl.doPlanDispatch_requestId hout
    obtain ⟨rec, hf, hstate⟩ := hd.planned.runnable
    -- The seed is not one of those expired.
    have hold : s.requests.find out.requestId = some rec := by
      rcases hscan.record out.requestId with hsame | ⟨old, _, _, hexp⟩
      · exact hsame.symm.trans hf
      · obtain rfl := Option.some.inj (hexp.symm.trans hf)
        simp [RequestRecord.expire] at hstate
    have hspec := hlapsed.spec out.requestId
    rw [show s.core.requests.find out.requestId = some rec from hold, Option.map_some, Option.map_eq_some_iff] at hspec
    obtain ⟨rec', hf', hsame⟩ := hspec
    refine ⟨t.expireScan t.now, wr, hscan, hd, ?_, rec, hold, hstate, ?_⟩
    · rw [hd.planned.formed, show (t.expireScan t.now).now = s.now from hscan.clock, Impl.planMembers_lapsed hscan]
    · rw [← hsame, ← hnow]
      exact Impl.Dispatches.in_time ⟨out, hout, hdispatch⟩ hf'

theorem Plans.reserves {s s' : Impl} {out : DispatchOutcome} (h : Plans s (s', .ok out))
    (hdispatch : out.decision = .dispatch) : ∃ t wr, Plans.Reserves s s' out t wr := by
  generalize hplan : (s', Except.ok out) = plan at h
  cases h with
  | request r ex => exact Plans.reserves_request (.refl s.now s.core) hplan.symm hdispatch
  | next ex =>
    unfold Impl.doPlanNext at hplan
    simp only at hplan
    split at hplan
    · obtain rfl := Except.ok.inj (Prod.ext_iff.1 hplan).2
      exact absurd hdispatch (by simp)
    · exact Plans.reserves_request s.lapsed_planNextSeed hplan.symm hdispatch

end InferenceScheduler
