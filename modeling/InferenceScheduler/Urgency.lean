/-
Which request `pick_seed` serves, over runs with recoveries. While every queued
request is in the queue (`InOrder`), the answer is the first live entry of a
flow with the least effective finish, and there is none only if no queued
request is in time.

Within a flow the first entry is the most urgent by the time that was left when
each request was enqueued, which need not be the order of the deadlines.
-/
import InferenceScheduler.Conserving
import InferenceScheduler.Expiry
import InferenceScheduler.Restart

namespace InferenceScheduler

open Machine Binary

/-! ## The choice -/

/-- What `pick_seed` may choose at `now`: a queued request, in time, whose entry
comes first in its flow, a flow of least effective finish. -/
structure Impl.Choice (s : Impl) (now : ClockTime) (r : RequestId) (rec : RequestRecord) (e : ReadyEntry) : Prop where
  waits : s.core.Waits r rec
  inTime : rec.spec.deadline.expired now = false
  entry : e ∈ (s.ready.flow (flowKey rec.spec)).pending.entries ∧ s.core.alive now e = true ∧ e.id = r
  first : ∀ e' ∈ (s.ready.flow (flowKey rec.spec)).pending.entries, s.core.alive now e' = true →
    readyLess e e' = false
  least : ∀ k, (∃ e' ∈ (s.ready.flow k).pending.entries, s.core.alive now e' = true) →
    s.core.effective now (flowKey rec.spec) < s.core.effective now k ∨
      s.core.effective now (flowKey rec.spec) = s.core.effective now k ∧ (flowKey rec.spec).le k

namespace InOrder

variable {s : Impl} {now : ClockTime}

theorem pickSeed_none (h : InOrder s.core) : (s.pickSeed now).2 = none ↔
    ∀ r rec, s.core.Waits r rec → rec.spec.deadline.expired now = true := by
  constructor
  · intro hnone r rec hr
    by_contra hexp
    obtain ⟨hactive, hhead⟩ := Impl.headEntry_of_waits h.lined hr (Bool.eq_false_iff.2 hexp)
    exact hhead ((s.pickSeed_spec now).2.2.1 hnone _ hactive)
  · intro hall
    by_contra hsome
    obtain ⟨r, hr⟩ := Option.ne_none_iff_exists'.1 hsome
    obtain ⟨k, hfirst⟩ := s.pickSeed_foremost hr
    obtain ⟨e, he, rfl⟩ := hfirst.head
    obtain ⟨rec, _, hqueued, _⟩ := Core.exists_of_alive (Core.alive_of_headEntry he)
    obtain ⟨rec, hwaits⟩ := h.faithful e.id hqueued
    have hexp := hall e.id rec hwaits
    rw [Impl.in_time_of_head he hwaits.1] at hexp
    cases hexp

theorem pickSeed_choice (h : InOrder s.core) {r : RequestId} (hr : (s.pickSeed now).2 = some r) :
    ∃ rec e, s.Choice now r rec e := by
  obtain ⟨k, hfirst⟩ := s.pickSeed_foremost hr
  obtain ⟨e, he, rfl⟩ := hfirst.head
  have hlive := Core.alive_of_headEntry he
  have hmem : e ∈ (s.ready.flow k).pending.entries := List.mem_of_find?_eq_some he
  obtain ⟨_, _, hqueued, _⟩ := Core.exists_of_alive hlive
  obtain ⟨rec, hwaits⟩ := h.faithful e.id hqueued
  obtain ⟨rec', hf', hk⟩ := h.lined.flow k e hmem
  obtain rfl := Option.some.inj (hwaits.1.symm.trans hf')
  subst hk
  refine ⟨rec, e, hwaits, Impl.in_time_of_head he hwaits.1, ⟨hmem, hlive, rfl⟩, fun e' he' hlive' => ?_,
    fun k hk => ?_⟩
  · have hbefore : ReadyBefore e e' := Heap.before_of_find? he he' hlive'
    exact hbefore
  · obtain ⟨e', he', hlive'⟩ := hk
    refine hfirst.first k (h.lined.active k (List.ne_nil_of_mem he')) fun hnone => ?_
    exact List.find?_eq_none.1 hnone e' he' hlive'

end InOrder

/-- **The seed.** In every state of a run without a recovery that stops halfway,
and at every time, `pick_seed` answers nothing only if no queued request is in
time, and otherwise a request that may be chosen; it does no more than expire
overdue requests and drop dead entries and drained flows. -/
theorem pickSeed_correct {cfg : SchedulerConfig} {start : ClockTime} {salt : UInt64} {epoch : Option SchedulerEpoch}
    {ops : List ServiceOp} (hok : recoverable.Allowed Regular (Impl.init cfg start salt epoch) ops) {s : Impl}
    (hs : s = recoverable.run (Impl.init cfg start salt epoch) ops) (now : ClockTime) :
    ((s.pickSeed now).2 = none ↔ ∀ r rec, s.core.Waits r rec → rec.spec.deadline.expired now = true) ∧
      (∀ r, (s.pickSeed now).2 = some r → ∃ rec e, s.Choice now r rec e) ∧
      ∃ ids, Tidied now s ids (s.pickSeed now).1 := by
  have h : InOrder s.core := hs ▸ InOrder.served hok
  exact ⟨h.pickSeed_none, fun r hr => h.pickSeed_choice hr, s.tidied_pickSeed now⟩

/-- Request 7, due at 1000 ms, and request 8 of the same flow, due at 1500 ms and
submitted `wait` milliseconds later. -/
def staggered (wait : ℕ) : List Op :=
  [.submit { plainSpec with deadline := .after 1000 0 } (some ⟨7⟩), .advance (wait * 1000000),
    .submit { plainSpec with deadline := .after 1500 0 } (some ⟨8⟩)]

/-- Request 7 is chosen at 100 ms. -/
theorem pickSeed_correct_staggered :
    let s := recoverable.run (Impl.init {} 0 0x80000001 none) ((staggered 100).map .op)
    ∃ rec e, s.Choice 100000000 ⟨7⟩ rec e := by
  intro s
  have hok : scheduler.Allowed (fun s op => FreshSubmit s op ∧ OnHolder s op) (Impl.init {} 0 0x80000001 none)
      (staggered 100) := by decide +kernel
  exact (pickSeed_correct (allowed_regular hok) rfl 100000000).2.1 ⟨7⟩ (by decide +kernel)

/-- After a recovery that broke off behind it, request 7 is queued and has no
deadline, and there is nothing to choose. -/
theorem brokenOff_unseen :
    let s := recoverable.run .durable [.recover (some (writeFrame brokenOff))]
    (s.pickSeed s.now).2 = none ∧
      (s.requests.find ⟨7⟩).any (fun rec => rec.state == .queued && !rec.spec.deadline.expired s.now) = true := by
  decide +kernel

/-! ## The order within a flow -/

/-- At least a millisecond earlier, no deadline being the latest. -/
def Deadline.MsBefore (d d' : Deadline) : Prop :=
  ∃ p ∈ d.point, ∀ p' ∈ d'.point, p + 1000000 ≤ p'

instance (d d' : Deadline) : Decidable (d.MsBefore d') := by
  unfold Deadline.MsBefore
  infer_instance

/-- `a` is more urgent than `b`: it is due a millisecond earlier, or it is due at
the same instant and has the smaller id. -/
def RequestRecord.Urges (a b : RequestRecord) : Prop :=
  a.spec.deadline.MsBefore b.spec.deadline ∨ a.spec.deadline = b.spec.deadline ∧ a.requestId.lt b.requestId = true

instance (a b : RequestRecord) : Decidable (a.Urges b) := inferInstanceAs (Decidable (_ ∨ _))

/-- Two live entries of a flow whose slacks, taken when each was enqueued, put the
more urgent request first. -/
def Impl.SlackAgrees (s : Impl) (e e' : ReadyEntry) : Prop :=
  ∀ rec ∈ s.requests.find e.id, ∀ rec' ∈ s.requests.find e'.id, rec'.Urges rec →
    e'.slack < e.slack ∨ e'.slack = e.slack ∧ e'.id.lt e.id = true

instance (s : Impl) (e e' : ReadyEntry) : Decidable (s.SlackAgrees e e') := by
  unfold Impl.SlackAgrees
  infer_instance

/-- **Earliest deadline first.** In every state of a run without a recovery that
stops halfway, and at every time at which the slacks of the live entries of each
flow agree with the deadlines, no queued request in time of the flow of the
answer is more urgent. -/
theorem pickSeed_most_urgent {cfg : SchedulerConfig} {start : ClockTime} {salt : UInt64}
    {epoch : Option SchedulerEpoch} {ops : List ServiceOp}
    (hok : recoverable.Allowed Regular (Impl.init cfg start salt epoch) ops) {s : Impl}
    (hs : s = recoverable.run (Impl.init cfg start salt epoch) ops) {now : ClockTime}
    (hslack : ∀ k, ∀ e ∈ (s.ready.flow k).pending.entries, ∀ e' ∈ (s.ready.flow k).pending.entries,
      s.core.alive now e = true → s.core.alive now e' = true → s.SlackAgrees e e')
    {r : RequestId} (hr : (s.pickSeed now).2 = some r) :
    ∃ rec, s.core.Waits r rec ∧ ∀ r' rec', s.core.Waits r' rec' → flowKey rec'.spec = flowKey rec.spec →
      rec'.spec.deadline.expired now = false → ¬rec'.Urges rec := by
  have h : InOrder s.core := hs ▸ InOrder.served hok
  obtain ⟨rec, e, hchoice⟩ := h.pickSeed_choice hr
  obtain ⟨hmem, hlive, hid⟩ := hchoice.entry
  refine ⟨rec, hchoice.waits, fun r' rec' hr' hflow hexp hurges => ?_⟩
  obtain ⟨hqueued, _, e', hmem', hid', hgen⟩ := h.lined.queued r' rec' hr'
  rw [hflow] at hmem'
  have hlive' : s.core.alive now e' = true := by
    refine (Option.any_eq_true _ _).2 ⟨rec', hid' ▸ hr'.1, ?_⟩
    simp only [hid', hqueued, hgen, hexp, decide_true, beq_self_eq_true, Bool.and_false, Bool.not_false, Bool.and_self]
  -- The entry chosen comes before that of `r'`, and by its slack behind it.
  have hbefore : ReadyBefore e e' := hchoice.first e' hmem' hlive'
  have hagree := hslack _ e hmem e' hmem' hlive hlive' rec (hid ▸ hchoice.waits.1) rec' (hid' ▸ hr'.1) hurges
  obtain ⟨hprio, hidv⟩ := h.labelled _ e hmem
  obtain ⟨hprio', hidv'⟩ := h.labelled _ e' hmem'
  rw [readyBefore_iff, hprio, hprio', hidv, hidv'] at hbefore
  simp only [Id.lt, decide_eq_true_eq, UInt64.lt_iff_toNat_lt] at hagree
  omega

/-- A flow with an entry is stored. -/
theorem Ready.flow_mem_entries {q : Ready} {k : FlowKey} {e : ReadyEntry} (he : e ∈ (q.flow k).pending.entries) :
    ⟨k, q.flow k⟩ ∈ q.flows.entries := by
  unfold Ready.flow at he ⊢
  cases hf : q.flows.lookup k with
  | none =>
    rw [hf] at he
    cases he
  | some f => exact Table.mem_entries.2 hf

/-- Submitted 100 ms apart the two requests keep the order of their deadlines. -/
theorem pickSeed_most_urgent_staggered :
    let s := recoverable.run (Impl.init {} 0 0x80000001 none) ((staggered 100).map .op)
    ∃ rec, s.core.Waits ⟨7⟩ rec ∧ ∀ r' rec', s.core.Waits r' rec' → flowKey rec'.spec = flowKey rec.spec →
      rec'.spec.deadline.expired 100000000 = false → ¬rec'.Urges rec := by
  intro s
  have hok : scheduler.Allowed (fun s op => FreshSubmit s op ∧ OnHolder s op) (Impl.init {} 0 0x80000001 none)
      (staggered 100) := by decide +kernel
  have hslack : ∀ f ∈ s.ready.flows.entries, ∀ e ∈ f.2.pending.entries, ∀ e' ∈ f.2.pending.entries,
      s.core.alive 100000000 e = true → s.core.alive 100000000 e' = true → s.SlackAgrees e e' := by decide +kernel
  exact pickSeed_most_urgent (allowed_regular hok) rfl
    (fun k e he e' he' => hslack _ (Ready.flow_mem_entries he) e he e' he') (by decide +kernel)

/-- Submitted 900 ms later, with 600 ms left, request 8 is chosen before request 7,
which had 1000 ms when it was submitted and is due earlier. -/
theorem later_deadline_chosen :
    let s := recoverable.run (Impl.init {} 0 0x80000001 none) ((staggered 900).map .op)
    (s.pickSeed s.now).2 = some ⟨8⟩ ∧
      (s.requests.find ⟨7⟩).any (fun seven => (s.requests.find ⟨8⟩).any fun eight =>
        seven.state == .queued && !seven.spec.deadline.expired s.now && decide (flowKey seven.spec = flowKey eight.spec) &&
          decide (seven.Urges eight)) = true := by
  decide +kernel

end InferenceScheduler
