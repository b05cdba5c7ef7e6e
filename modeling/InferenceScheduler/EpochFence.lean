/-
Epochs across the coordinator. A dispatch is planned under the epoch of the
scheduler, but neither the run message nor the record keeps that epoch: a
worker's thread stamps a result with the epoch it finds when it reports it.

A roll after the stamp is noticed, one between the plan and the stamp is not.
-/
import InferenceScheduler.Simulation
import InferenceScheduler.Coordinator

namespace InferenceScheduler

open Machine

/-- The event plans a batch with the attempt. -/
def plans (r : RequestId) (a : AttemptId) (e : CoordEvent) : Bool :=
  match e.out with
  | .planned out => out.batchMembers.contains r && (e.post.sched.requests.find r).map (·.currentAttempt) == some a
  | _ => false

/-- An epoch is not later than any the attempt was planned under. -/
def Within (past : List CoordEvent) (r : RequestId) (a : AttemptId) (epoch : UInt64) : Prop :=
  ∀ e ∈ past, plans r a e = true → epoch ≤ e.pre.sched.epochValue

instance (past : List CoordEvent) (r : RequestId) (a : AttemptId) (epoch : UInt64) :
    Decidable (Within past r a epoch) := inferInstanceAs (Decidable (∀ e ∈ past, _ → _))

/-- No completion is accepted for an attempt planned under an earlier epoch
than the scheduler's. -/
def Effect.Fenced (past : List CoordEvent) (epoch : UInt64) : Effect → Prop
  | .completion report out => out.acceptance = .accepted → Within past report.requestId report.attemptId epoch
  | _ => True

def Fenced (past : List CoordEvent) (c : Coordinator) (op : CoordOp) : Prop :=
  (c.step op).2.Fenced past c.sched.epochValue

/-- The result a thread stamps with its next step. -/
def WorkerThread.toStamp : WorkerThread → Option RunResult
  | .complete _ (r :: _) none _ => some r
  | _ => none

/-- The result a thread has stamped and reports next. -/
def WorkerThread.stamped : WorkerThread → Option (RunResult × SchedulerEpoch)
  | .complete _ (r :: _) (some epoch) _ => some (r, epoch)
  | _ => none

/-- No result is stamped with a later epoch than its attempt was planned under,
neither by a worker's thread nor by a client, and the epoch does not wrap. -/
def Timely (past : List CoordEvent) (c : Coordinator) : CoordOp → Prop
  | .thread j => ∀ r ∈ c.workers[j]?.bind (·.thread.toStamp), Within past r.req r.attempt c.sched.epochValue
  | .complete m => m.epoch.value = c.sched.epochValue → Within past m.request m.attempt m.epoch.value
  | .rollEpoch => c.sched.epochValue + 1 ≠ 0
  | _ => True

instance (past : List CoordEvent) (epoch : UInt64) : (eff : Effect) → Decidable (eff.Fenced past epoch)
  | .completion _ _ => inferInstanceAs (Decidable (_ → _))
  | .quiet | .planned _ | .run _ _ | .answer _ _ => .isTrue trivial

instance (past : List CoordEvent) (c : Coordinator) (op : CoordOp) : Decidable (Fenced past c op) :=
  inferInstanceAs (Decidable (Effect.Fenced past c.sched.epochValue (c.step op).2))

instance (past : List CoordEvent) (c : Coordinator) : (op : CoordOp) → Decidable (Timely past c op)
  | .thread _ => inferInstanceAs (Decidable (∀ r ∈ _, _))
  | .complete _ => inferInstanceAs (Decidable (_ → _))
  | .rollEpoch => inferInstanceAs (Decidable (_ ≠ _))
  | .register _ | .enter | .submit _ | .cancel _ | .dispatch _ _ | .handler _ | .arrive _ _ _ | .advance _ =>
    .isTrue trivial

/-! ## The epoch over the steps -/

theorem le_add_one_of_ne {v : UInt64} (h : v + 1 ≠ 0) : v ≤ v + 1 := by
  rw [UInt64.le_iff_toNat_le, UInt64.toNat_add]
  have hlt := v.toNat_lt
  have hne : (v + 1).toNat ≠ 0 := fun h0 => h (UInt64.toNat_inj.1 h0)
  rw [UInt64.toNat_add] at hne
  simp only [UInt64.toNat_one] at hne ⊢
  omega

theorem Coordinator.epochValue_le {c : Coordinator} {op : CoordOp} {past : List CoordEvent} (h : Timely past c op) :
    c.sched.epochValue ≤ (c.step op).1.sched.epochValue := by
  have hstep := c.step_happens op
  generalize (c.step op).1 = c' at hstep ⊢
  generalize (c.step op).2 = eff at hstep
  have hcall : ∀ {op' : Op}, op' ≠ .rollEpoch → c.sched.epochValue ≤ (c.call op').sched.epochValue := by
    intro op' hop'
    show _ ≤ (scheduler.next c.sched op').epochValue
    rw [c.sched.step_epochValue hop']
    exact UInt64.le_refl _
  cases hstep with
  | rollEpoch => exact le_add_one_of_ne h
  | register | submit | cancel | complete | advance | turnDown | plan | confirm | report => exact hcall Op.noConfusion
  | _ => exact UInt64.le_refl _

theorem Impl.epoch_of_accepted {s : Impl} {r : CompletionReport} (h : (s.doComplete r).2.acceptance = .accepted) :
    r.epoch.value = s.epochValue := by
  by_contra hne
  simp only [Impl.doComplete, if_pos hne] at h
  cases h

/-- A later event leaves an epoch within if the epoch had come by then. -/
theorem Within.concat {past : List CoordEvent} {r : RequestId} {a : AttemptId} {epoch : UInt64} {e : CoordEvent}
    (h : Within past r a epoch) (he : epoch ≤ e.pre.sched.epochValue) : Within (past ++ [e]) r a epoch := by
  intro e' hmem hplans
  rcases List.mem_append.1 hmem with hpast | hnew
  · exact h e' hpast hplans
  · obtain rfl := List.mem_singleton.1 hnew
    exact he

/-! ## Stamped results -/

/-- What a thread has stamped was planned under no earlier epoch. -/
def WorkerThread.InTime (past : List CoordEvent) (epoch : UInt64) (t : WorkerThread) : Prop :=
  ∀ p ∈ t.stamped, Within past p.1.req p.1.attempt p.2.value ∧ p.2.value ≤ epoch

structure InTime (past : List CoordEvent) (c : Coordinator) : Prop where
  workers : ∀ slot ∈ c.workers, slot.thread.InTime past c.sched.epochValue
  joining : ∀ slot, c.joining = some slot → slot.thread = .receive

/-- The threads of a step: those from before, and at most one that has gone on. -/
theorem Coordinator.thread_of_step {c : Coordinator} {op : CoordOp} {past : List CoordEvent} (h : InTime past c)
    (hop : Timely past c op) {slot : WorkerSlot} (hslot : slot ∈ (c.step op).1.workers) :
    slot.thread.InTime past c.sched.epochValue := by
  have hstep := c.step_happens op
  generalize (c.step op).1 = c' at hstep hslot
  generalize (c.step op).2 = eff at hstep
  -- A slot of the coordinator after one of its slots was written.
  have hon : ∀ {s : Impl} {j : ℕ} {f : WorkerSlot → WorkerSlot}, slot ∈ ({ c with sched := s }.onSlot j f).workers →
      (∀ old, c.workers[j]? = some old → (f old).thread = old.thread ∨ (f old).thread.stamped = none) →
      slot.thread.InTime past c.sched.epochValue := by
    intro s j f hmem hf
    rcases mem_onSlot hmem with hold | ⟨old, hold, rfl⟩
    · exact h.workers slot hold
    · rcases hf old hold with hsame | hnone
      · rw [hsame]
        exact h.workers old (List.mem_of_getElem? hold)
      · rintro p hp
        rw [hnone] at hp
        cases hp
  cases hstep with
  | idle | submit | cancel | complete | rollEpoch | advance | turnDown | register | plan | workerGone | find | snapshot
  | spec | answer => exact h.workers slot hslot
  | enter hj =>
    rcases List.mem_append.1 hslot with hold | hnew
    · exact h.workers slot hold
    · obtain rfl := List.mem_singleton.1 hnew
      rw [h.joining slot hj]
      rintro p ⟨⟩
  | reset hi => exact hon hslot fun old _ => .inl rfl
  | send hi => exact hon hslot fun old _ => .inl rfl
  | arrive => exact hon hslot fun old _ => .inl rfl
  | receive hj ht hin => exact hon hslot fun old _ => .inr rfl
  | skip hj ht hin hmsg hto =>
    refine hon hslot fun old _ => .inr ?_
    rcases hto with rfl | rfl <;> rfl
  | @turn _ _ m _ hj ht =>
    refine hon hslot fun old _ => .inr ?_
    show (WorkerThread.complete m m.results none _).stamped = none
    cases m.results <;> rfl
  | stampStart hj ht => exact hon hslot fun old _ => .inr rfl
  | confirm hj ht => exact hon hslot fun old _ => .inr rfl
  | @report j _ m _ rest _ done acks hj ht =>
    refine hon hslot fun old _ => .inr ?_
    show (WorkerThread.complete m rest none _).stamped = none
    cases rest <;> rfl
  | publish hj ht => exact hon hslot fun old _ => .inr rfl
  | @stampResult j old m r rest done hj ht =>
    rcases mem_onSlot hslot with hold | ⟨old', hold, rfl⟩
    · exact h.workers slot hold
    · rintro p ⟨⟩
      refine ⟨hop r ?_, UInt64.le_refl _⟩
      rw [hj]
      simp [ht, WorkerThread.toStamp]

theorem Coordinator.joining_of_step {c : Coordinator} {op : CoordOp} {slot : WorkerSlot}
    (h : (c.step op).1.joining = some slot) : c.joining = some slot ∨ slot.thread = .receive := by
  have hstep := c.step_happens op
  generalize (c.step op).1 = c' at hstep h
  generalize (c.step op).2 = eff at hstep
  cases hstep with
  | register =>
    cases h
    exact .inr rfl
  | enter => cases h
  | _ => exact .inl h

theorem InTime.step {past : List CoordEvent} {c : Coordinator} {op : CoordOp} (h : InTime past c)
    (hop : Timely past c op) : InTime (past ++ [coordinator.event c op]) (coordinator.next c op) := by
  constructor
  · intro slot hslot p hp
    obtain ⟨hwithin, hle⟩ := c.thread_of_step h hop hslot p hp
    exact ⟨hwithin.concat hle, UInt64.le_trans hle (c.epochValue_le hop)⟩
  · intro slot hslot
    exact (c.joining_of_step hslot).elim (h.joining slot) id

theorem InTime.fenced {past : List CoordEvent} {c : Coordinator} {op : CoordOp} (h : InTime past c)
    (hop : Timely past c op) : Fenced past c op := by
  have hstep := c.step_happens op
  show (c.step op).2.Fenced past c.sched.epochValue
  generalize (c.step op).1 = c' at hstep
  generalize (c.step op).2 = eff at hstep ⊢
  cases hstep with
  | @complete m =>
    intro hacc
    have hepoch : m.epoch.value = c.sched.epochValue := Impl.epoch_of_accepted hacc
    rw [← hepoch]
    exact hop hepoch
  | @report j slot m r rest epoch done _ hj ht =>
    intro hacc
    have hepoch : epoch.value = c.sched.epochValue := Impl.epoch_of_accepted hacc
    rw [← hepoch]
    exact (h.workers slot (List.mem_of_getElem? hj) (r, epoch) (by rw [ht]; rfl)).1
  | _ => trivial

/-- **An epoch roll fences what is stamped before it.** In every run in which
no result is stamped with a later epoch than its attempt was planned under, no
completion is accepted once the epoch is past the attempt's. -/
theorem roll_fences {s : Impl} {ops : List CoordOp} (hops : coordinator.Along Timely [] { sched := s } ops) :
    coordinator.Along Fenced [] { sched := s } ops := by
  refine hops.of_invariant (I := InTime) (fun _ _ _ hop h => h.step hop) (fun _ _ _ h hop => h.fenced hop) ?_
  exact ⟨by simp, by simp⟩

/-- The epoch is rolled between the stamp and the report of the first request;
the second is planned and completed under the next epoch. -/
theorem roll_fences_stamped :
    let ops : List (List CoordOp) := [
      [.register (plainRegister 3), .enter, .submit plainSpec, .dispatch ⟨0x8000000100000001⟩ false],
      List.replicate 5 (.handler 0),
      [.arrive 0 (some 0) (.completed ⟨⟨0x8000000100000004⟩, 8,
        [successOf 0x8000000100000001 0x8000000100000003 0x8000000100000002]⟩)],
      List.replicate 5 (.thread 0),
      [.rollEpoch, .thread 0, .thread 0, .handler 0, .submit plainSpec, .dispatch ⟨0x8000000100000005⟩ false],
      List.replicate 5 (.handler 1),
      [.arrive 0 (some 0) (.completed ⟨⟨0x8000000100000008⟩, 8,
        [successOf 0x8000000100000005 0x8000000100000007 0x8000000100000006]⟩)],
      List.replicate 7 (.thread 0)]
    coordinator.Along Fenced [] { sched := Impl.init {} 0 0x80000001 none } ops.flatten :=
  roll_fences (by decide +kernel)

/-- The epoch is rolled while the worker runs the request: the result is
stamped with the new epoch and accepted. -/
theorem roll_not_fenced :
    let ops : List (List CoordOp) := [
      [.register (plainRegister 3), .enter, .submit plainSpec, .dispatch ⟨0x8000000100000001⟩ false],
      List.replicate 5 (.handler 0),
      [.rollEpoch, .arrive 0 (some 0) (.completed ⟨⟨0x8000000100000004⟩, 8,
        [successOf 0x8000000100000001 0x8000000100000003 0x8000000100000002]⟩)],
      List.replicate 6 (.thread 0)]
    ¬coordinator.Along Fenced [] (.start 0 0x80000001) ops.flatten := by
  decide +kernel

end InferenceScheduler
