/-
The run messages the coordinator sends. A handler reserves a batch in one
critical section and reads its members in later ones, while other handlers, the
workers' threads and the acceptor go on; still no attempt is in two run
messages, as long as no id is drawn twice.

When the ids come round, a submission can meet the record of a finished request
and queue it again with its old attempt, which is then handed out once more.
-/
import InferenceScheduler.Coordinator
import InferenceScheduler.Handouts
import InferenceScheduler.Wraparound

namespace InferenceScheduler

open Machine

def RunMember.pair (m : RunMember) : RequestId × AttemptId := (m.req, m.attempt)

def RunResult.pair (r : RunResult) : RequestId × AttemptId := (r.req, r.attempt)

/-- The attempts in the run message a step sends. -/
def Effect.handedOut : Effect → List (RequestId × AttemptId)
  | .run _ msg => msg.members.map RunMember.pair
  | _ => []

/-- The run message a worker answers. -/
def Coordinator.answered (c : Coordinator) (j : ℕ) (answers : Option ℕ) : Option RunMessage :=
  c.workers[j]?.bind fun slot => answers.bind fun k => slot.unanswered[k]?

/-- The workers report on each run message at most once, and for its own
members only. -/
def Honest (c : Coordinator) : CoordOp → Prop
  | .arrive j answers (.completed m) =>
    ∃ run ∈ (c.answered j answers).toList, ∀ r ∈ m.results, r.pair ∈ run.members.map RunMember.pair
  | _ => True

instance (c : Coordinator) : (op : CoordOp) → Decidable (Honest c op)
  | .arrive j answers (.completed m) =>
    inferInstanceAs (Decidable (∃ run ∈ (c.answered j answers).toList, ∀ r ∈ m.results, _))
  | .arrive _ _ .shutdown | .arrive _ _ .null | .arrive _ _ .other | .register _ | .enter | .submit _ | .cancel _
  | .complete _ | .rollEpoch | .dispatch _ _ | .handler _ | .thread _ | .advance _ => .isTrue trivial

/-! ## What is on its way -/

/-- A step that sends a run message hands its members to the slot's worker. -/
def Coordinator.handouts (c : Coordinator) : Effect → List Handout
  | .run j msg => msg.members.map fun m => ⟨m.req, m.attempt, (c.workers[j]?.map (·.worker)).getD .invalid⟩
  | _ => []

def RunMember.parcel (m : RunMember) : Parcel := ⟨m.req, some m.attempt⟩

/-- The parcels of a handler. -/
def Handler.parcels : Handler → List Parcel
  | .planned out | .found out _ => out.batchMembers.map fun r => ⟨r, none⟩
  | .reading _ _ members none rest => members.map RunMember.parcel ++ rest.map fun r => ⟨r, none⟩
  | .reading _ _ members (some half) rest =>
    members.map RunMember.parcel ++ half.parcel :: rest.tail.map fun r => ⟨r, none⟩
  | .waiting _ _ | .finished => []

def Coordinator.parcels (c : Coordinator) : List Parcel := c.handlers.flatMap Handler.parcels

def WorkerThread.reports : WorkerThread → List (RequestId × AttemptId)
  | .receive | .stopped => []
  | .confirm m rest _ => m.results.map RunResult.pair ++ rest.map RunResult.pair
  | .complete _ rest _ _ => rest.map RunResult.pair

def WorkerMessage.reports : WorkerMessage → List (RequestId × AttemptId)
  | .completed m => m.results.map RunResult.pair
  | .shutdown | .null | .other => []

/-- The attempts a worker has reported on, or may report on yet. -/
def WorkerSlot.reports (slot : WorkerSlot) : List (RequestId × AttemptId) :=
  slot.thread.reports ++ slot.inbox.flatMap WorkerMessage.reports ++
    slot.unanswered.flatMap fun run => run.members.map RunMember.pair

theorem WorkerSlot.mem_reports {slot : WorkerSlot} {p : RequestId × AttemptId} :
    p ∈ slot.reports ↔ p ∈ slot.thread.reports ∨ p ∈ slot.inbox.flatMap WorkerMessage.reports ∨
      p ∈ slot.unanswered.flatMap fun run => run.members.map RunMember.pair := by
  simp only [reports, List.mem_append, or_assoc]

structure OnTheirWay (sent : List Handout) (c : Coordinator) : Prop where
  handed : c.sched.core.Handed ⟨sent, c.parcels⟩
  own : c.sched.OwnIds
  reports : ∀ slot ∈ c.workers, ∀ p ∈ slot.reports, ⟨p.1, p.2, slot.worker⟩ ∈ sent
  joining : ∀ slot, c.joining = some slot → slot.reports = []

/-! ## Steps of a handler -/

theorem Coordinator.handlers_perm {c : Coordinator} {i : ℕ} {h : Handler} (hi : c.handlers[i]? = some h) :
    ∃ others, c.handlers.Perm (h :: others) ∧ ∀ h', (c.setHandler i h').handlers.Perm (h' :: others) := by
  obtain ⟨hlt, hget⟩ := List.getElem?_eq_some_iff.1 hi
  refine ⟨c.handlers.eraseIdx i, ?_, fun h' => List.set_perm_cons_eraseIdx hlt h'⟩
  rw [← hget]
  exact (List.getElem_cons_eraseIdx_perm hlt).symm

namespace OnTheirWay

variable {sent : List Handout} {c : Coordinator}

/-- A handler goes on: some of its parcels may be sent. -/
theorem goesOn {i : ℕ} {h h' : Handler} {new : List Handout} (hw : OnTheirWay sent c) (hi : c.handlers[i]? = some h)
    (hsub : (new.map Handout.pair ++ h'.parcels.map (Parcel.pair c.sched.core)).Subperm
      (h.parcels.map (Parcel.pair c.sched.core)))
    (hnone : ∀ r, ⟨r, none⟩ ∈ h'.parcels → ⟨r, none⟩ ∈ h.parcels) :
    c.sched.core.Handed ⟨sent ++ new, (c.setHandler i h').parcels⟩ := by
  obtain ⟨others, hold, hset⟩ := Coordinator.handlers_perm hi
  have hold' : c.parcels.Perm (h.parcels ++ others.flatMap Handler.parcels) := hold.flatMap_right _
  have hset' : (c.setHandler i h').parcels.Perm (h'.parcels ++ others.flatMap Handler.parcels) :=
    (hset h').flatMap_right _
  refine hw.handed.mono ?_ (List.subset_append_left _ _) fun r hr => ?_
  · have hafter : ((Underway.mk (sent ++ new) (c.setHandler i h').parcels).pairs c.sched.core).Perm
        (sent.map Handout.pair ++ ((new.map Handout.pair ++ h'.parcels.map (Parcel.pair c.sched.core)) ++
          (others.flatMap Handler.parcels).map (Parcel.pair c.sched.core))) := by
      simp only [Underway.pairs, List.map_append, List.append_assoc]
      refine List.Perm.append_left _ (List.Perm.append_left _ ?_)
      rw [← List.map_append]
      exact hset'.map _
    have hbefore : ((Underway.mk sent c.parcels).pairs c.sched.core).Perm
        (sent.map Handout.pair ++ (h.parcels.map (Parcel.pair c.sched.core) ++
          (others.flatMap Handler.parcels).map (Parcel.pair c.sched.core))) := by
      simp only [Underway.pairs, ← List.map_append]
      exact List.Perm.append_left _ (hold'.map _)
    rw [hafter.subperm_right, hbefore.subperm_left, List.subperm_append_left, List.subperm_append_right]
    exact hsub
  · rcases List.mem_append.1 (hset'.subset hr) with hr | hr
    · exact hold'.symm.subset (List.mem_append_left _ (hnone r hr))
    · exact hold'.symm.subset (List.mem_append_right _ hr)

theorem setHandler {i : ℕ} {h h' : Handler} (hw : OnTheirWay sent c) (hi : c.handlers[i]? = some h)
    (hsub : (h'.parcels.map (Parcel.pair c.sched.core)).Subperm (h.parcels.map (Parcel.pair c.sched.core)))
    (hnone : ∀ r, ⟨r, none⟩ ∈ h'.parcels → ⟨r, none⟩ ∈ h.parcels) : OnTheirWay sent (c.setHandler i h') := by
  have hhanded : c.sched.core.Handed ⟨sent ++ [], _⟩ := hw.goesOn hi hsub hnone
  rw [List.append_nil] at hhanded
  exact ⟨hhanded, hw.own, hw.reports, hw.joining⟩

/-- The slots after one of them was written. -/
theorem onSlot {j : ℕ} {f : WorkerSlot → WorkerSlot} (hw : OnTheirWay sent c)
    (hf : ∀ slot, c.workers[j]? = some slot → (f slot).worker = slot.worker ∧ (f slot).reports ⊆ slot.reports) :
    OnTheirWay sent (c.onSlot j f) := by
  refine ⟨hw.handed, hw.own, fun slot hslot p hp => ?_, hw.joining⟩
  rcases Coordinator.mem_onSlot hslot with hold | ⟨old, hold, rfl⟩
  · exact hw.reports slot hold p hp
  · obtain ⟨hworker, hreports⟩ := hf old hold
    rw [hworker]
    exact hw.reports old (List.mem_of_getElem? hold) p (hreports hp)

/-- A handler reads the attempt of the next member, which is the one it was
planned with. -/
theorem snapshot {i j : ℕ} {out : DispatchOutcome} {members : List RunMember} {mid : RequestId} {rest : List RequestId}
    (hw : OnTheirWay sent c) (hi : c.handlers[i]? = some (.reading out j members none (mid :: rest))) :
    OnTheirWay sent (c.setHandler i (.reading out j members (some (c.sched.readSnapshot mid)) (mid :: rest))) := by
  have hmem : ⟨mid, none⟩ ∈ c.parcels :=
    List.mem_flatMap.2 ⟨_, List.mem_of_getElem? hi, by simp [Handler.parcels]⟩
  obtain ⟨rec, hf⟩ := Option.isSome_iff_exists.1 (hw.handed.stored mid hmem)
  have hread : (c.sched.readSnapshot mid).parcel = ⟨mid, some (c.sched.core.attemptOf mid)⟩ := by
    rw [Core.attemptOf_of_find hf]
    simp only [Impl.readSnapshot, Impl.doRequestSnapshot, show c.sched.requests.find mid = some rec from hf]
    rfl
  refine hw.setHandler hi ?_ fun r hr => ?_
  · simp only [Handler.parcels, hread, List.tail_cons, List.map_append, List.map_cons]
    exact List.Subperm.refl _
  · simp only [Handler.parcels, hread, List.tail_cons, List.mem_append, List.mem_cons, List.map_cons] at hr ⊢
    rcases hr with hr | hr | hr
    · exact .inl hr
    · cases hr
    · exact .inr (.inr hr)

theorem parcel_readSpec (s : Impl) (m : RunMember) : (s.readSpec m).parcel = m.parcel := by
  unfold Impl.readSpec
  split <;> rfl

/-- A handler sends its run message. -/
theorem send {i j : ℕ} {out : DispatchOutcome} {members : List RunMember} {half : Option RunMember}
    (hw : OnTheirWay sent c) (hi : c.handlers[i]? = some (.reading out j members half [])) :
    OnTheirWay (sent ++ c.handouts (.run j ⟨out.batchId, members⟩)) ((c.onSlot j fun slot =>
      { slot with unanswered := slot.unanswered ++ [⟨out.batchId, members⟩] }).setHandler i (.waiting out j)) := by
  have hhanded : c.sched.core.Handed ⟨sent ++ c.handouts (.run j ⟨out.batchId, members⟩),
      (c.setHandler i (.waiting out j)).parcels⟩ := by
    refine hw.goesOn hi ?_ (by simp [Handler.parcels])
    have hpairs : (c.handouts (.run j ⟨out.batchId, members⟩)).map Handout.pair =
        (members.map RunMember.parcel).map (Parcel.pair c.sched.core) := by
      simp only [Coordinator.handouts, List.map_map]
      rfl
    have hsub : (members.map RunMember.parcel).Sublist (Handler.reading out j members half []).parcels := by
      cases half with
      | none => exact List.sublist_append_left _ _
      | some half => exact List.sublist_append_left _ _
    rw [hpairs, Handler.parcels, List.map_nil, List.append_nil]
    exact (hsub.map _).subperm
  refine ⟨hhanded, hw.own, fun slot hslot p hp => ?_, hw.joining⟩
  rcases Coordinator.mem_onSlot hslot with hold | ⟨old, hold, rfl⟩
  · exact List.mem_append_left _ (hw.reports slot hold p hp)
  · have hmem : p ∈ old.reports ∨ p ∈ members.map RunMember.pair := by
      simpa [WorkerSlot.reports, or_assoc] using hp
    rcases hmem with hmem | hmem
    · exact List.mem_append_left _ (hw.reports old (List.mem_of_getElem? hold) p hmem)
    · obtain ⟨m, hm, rfl⟩ := List.mem_map.1 hmem
      refine List.mem_append_right _ (List.mem_map.2 ⟨m, hm, ?_⟩)
      rw [hold]
      rfl

/-! ## Sections of the scheduler -/

/-- An operation for which no request is stored or reserved. -/
theorem call {op : Op} (hw : OnTheirWay sent c) (hd : (c.call op).sched.idFactory.Distinct)
    (hv : op.Vouched c.sched sent) (hsubmit : ∀ spec pre, op ≠ .submit spec pre)
    (hplan : ∀ r ex, op ≠ .planDispatch r ex) : OnTheirWay sent (c.call op) :=
  ⟨hw.handed.step (freshSubmit_of_ne hsubmit) hd hv hplan, hw.own.step hsubmit, hw.reports, hw.joining⟩

theorem submit {spec : RequestSpec} (hw : OnTheirWay sent c)
    (hd : (c.call (.submit spec none)).sched.idFactory.Distinct) : OnTheirWay sent (c.call (.submit spec none)) := by
  cases hv : validateSpec spec with
  | error e =>
    have hsame : scheduler.next c.sched (.submit spec none) = c.sched := by
      show (c.sched.doSubmit spec none).1 = c.sched
      simp only [Impl.doSubmit, hv]
    rw [Coordinator.call, hsame]
    exact hw
  | ok u =>
    refine ⟨hw.handed.step (hw.own.fresh hv hd) hd trivial (by simp), hw.own.submit hv hd, hw.reports, hw.joining⟩

theorem plan {rid : RequestId} {ex : Bool} {out : DispatchOutcome} (hw : OnTheirWay sent c)
    (hd : (c.call (.planDispatch rid ex)).sched.idFactory.Distinct) (hout : (c.sched.doPlanDispatch rid ex).2 = .ok out)
    (hdec : out.decision = .dispatch) :
    OnTheirWay sent { c.call (.planDispatch rid ex) with handlers := c.handlers ++ [.planned out] } := by
  refine ⟨?_, hw.own.step (by simp), hw.reports, hw.joining⟩
  have hhanded := (hw.handed.plan hd).1 out hout hdec
  show (c.sched.doPlanDispatch rid ex).1.core.Handed ⟨sent, (c.handlers ++ [Handler.planned out]).flatMap Handler.parcels⟩
  rw [List.flatMap_append, List.flatMap_singleton]
  exact hhanded

/-! ## Every step -/

/-- What a worker sends was in a run message it had. -/
theorem reports_arrive {j : ℕ} {answers : Option ℕ} {msg : WorkerMessage} {slot : WorkerSlot}
    (h : Honest c (.arrive j answers msg)) (hj : c.workers[j]? = some slot) :
    (slot.arrive answers msg).reports ⊆ slot.reports := by
  have hrest : (slot.arrive answers msg).unanswered ⊆ slot.unanswered := by
    cases answers with
    | none => exact List.Subset.refl _
    | some k => exact (List.eraseIdx_sublist _ _).subset
  have hmsg : msg.reports ⊆ slot.unanswered.flatMap fun run => run.members.map RunMember.pair := by
    cases msg with
    | completed m =>
      obtain ⟨run, hrun, hown⟩ := h
      simp only [Coordinator.answered, hj, Option.bind_some, Option.mem_toList] at hrun
      obtain ⟨k, -, hk⟩ := Option.bind_eq_some_iff.1 hrun
      intro p hp
      obtain ⟨r, hr, rfl⟩ := List.mem_map.1 hp
      exact List.mem_flatMap.2 ⟨run, List.mem_of_getElem? hk, hown r hr⟩
    | shutdown | null | other => exact List.nil_subset _
  intro p hp
  have hcases : p ∈ slot.thread.reports ++ slot.inbox.flatMap WorkerMessage.reports ∨ p ∈ msg.reports ∨
      p ∈ (slot.arrive answers msg).unanswered.flatMap fun run => run.members.map RunMember.pair := by
    simpa [WorkerSlot.reports, WorkerSlot.arrive, or_assoc] using hp
  rcases hcases with hold | hnew | hleft
  · exact List.mem_append_left _ hold
  · exact List.mem_append_right _ (hmsg hnew)
  · obtain ⟨run, hrun, hp⟩ := List.mem_flatMap.1 hleft
    exact List.mem_append_right _ (List.mem_flatMap.2 ⟨run, hrest hrun, hp⟩)

section thread

variable {j : ℕ} {slot : WorkerSlot} {t : WorkerThread}

/-- A thread goes on with no more to report than before. -/
theorem goto (hw : OnTheirWay sent c) (hj : c.workers[j]? = some slot) (ht : t.reports ⊆ slot.thread.reports) :
    OnTheirWay sent (c.goto j t) := by
  refine hw.onSlot fun slot' hs => ⟨rfl, fun p hp => ?_⟩
  obtain rfl := Option.some.inj (hj.symm.trans hs)
  rw [WorkerSlot.mem_reports] at hp ⊢
  exact hp.imp_left fun hp => ht hp

/-- A thread has taken a message off its connection. -/
theorem read {msg : WorkerMessage} {inbox : List WorkerMessage} (hw : OnTheirWay sent c)
    (hj : c.workers[j]? = some slot) (hin : slot.inbox = msg :: inbox) (ht : t.reports ⊆ msg.reports) :
    OnTheirWay sent (c.read j inbox t) := by
  refine hw.onSlot fun slot' hs => ⟨rfl, fun p hp => ?_⟩
  obtain rfl := Option.some.inj (hj.symm.trans hs)
  rw [WorkerSlot.mem_reports] at hp ⊢
  rw [hin, List.flatMap_cons, List.mem_append]
  rcases hp with hp | hp | hp
  · exact .inr (.inl (.inl (ht hp)))
  · exact .inr (.inl (.inr hp))
  · exact .inr (.inr hp)

/-- What a thread is about to report was in a run message. -/
theorem vouched {r : RunResult} (hw : OnTheirWay sent c) (hj : c.workers[j]? = some slot)
    (hr : r.pair ∈ slot.thread.reports) : ⟨r.req, r.attempt, slot.worker⟩ ∈ sent :=
  hw.reports slot (List.mem_of_getElem? hj) r.pair (WorkerSlot.mem_reports.2 (.inl hr))

theorem confirm {m : Completed} {r : RunResult} {rest : List RunResult} {e : SchedulerEpoch}
    (hw : OnTheirWay sent c) (hj : c.workers[j]? = some slot) (ht : slot.thread = .confirm m (r :: rest) (some e))
    (hd : (c.call (.confirmStart (slot.startReport m r e))).sched.idFactory.Distinct) :
    OnTheirWay sent ((c.call (.confirmStart (slot.startReport m r e))).goto j (.confirm m rest none)) := by
  have hmem : r.pair ∈ slot.thread.reports := by simp [ht, WorkerThread.reports]
  have hcall := hw.call hd (hw.vouched hj hmem) (by simp) (by simp)
  refine hcall.goto hj ?_
  simp [ht, WorkerThread.reports]

theorem report {m : Completed} {r : RunResult} {rest : List RunResult} {e : SchedulerEpoch}
    {done done' : DispatchDone} (hw : OnTheirWay sent c) (hj : c.workers[j]? = some slot)
    (ht : slot.thread = .complete m (r :: rest) (some e) done)
    (hd : (c.call (.complete (slot.completionReport m r e))).sched.idFactory.Distinct) :
    OnTheirWay sent ((c.call (.complete (slot.completionReport m r e))).goto j (.complete m rest none done')) := by
  have hmem : r.pair ∈ slot.thread.reports := by simp [ht, WorkerThread.reports]
  have hcall := hw.call hd (fun _ => hw.vouched hj hmem) (by simp) (by simp)
  refine hcall.goto hj ?_
  rw [ht]
  exact List.subset_cons_self _ _

/-- A worker that has registered gets its slot. -/
theorem enter {byWorker : Table WorkerId ℕ} (hw : OnTheirWay sent c) (hj : c.joining = some slot) :
    OnTheirWay sent { c with workers := c.workers ++ [slot], byWorker := byWorker, joining := none } := by
  refine ⟨hw.handed, hw.own, fun slot' hslot p hp => ?_, by simp⟩
  rcases List.mem_append.1 hslot with hold | hnew
  · exact hw.reports slot' hold p hp
  · obtain rfl := List.mem_singleton.1 hnew
    rw [hw.joining slot' hj] at hp
    cases hp

end thread

theorem step {op : CoordOp} (hw : OnTheirWay sent c) (hop : Honest c op)
    (hd : (c.step op).1.sched.idFactory.Distinct) :
    OnTheirWay (sent ++ c.handouts (c.step op).2) (c.step op).1 := by
  have hstep := c.step_happens op
  generalize (c.step op).1 = c' at hstep hd ⊢
  generalize (c.step op).2 = eff at hstep ⊢
  -- Where nothing is sent.
  have hquiet : OnTheirWay sent c' → c.handouts eff = [] → OnTheirWay (sent ++ c.handouts eff) c' := by
    intro h hnil
    rwa [hnil, List.append_nil]
  cases hstep with
  | idle => exact hquiet hw rfl
  | register hj =>
    have hcall := hw.call hd trivial (by simp) (by simp)
    exact hquiet ⟨hcall.handed, hcall.own, hcall.reports, by rintro _ ⟨⟩; rfl⟩ rfl
  | enter hj => exact hquiet (hw.enter hj) rfl
  | submit => exact hquiet (hw.submit hd) rfl
  | cancel | rollEpoch | advance => exact hquiet (hw.call hd trivial (by simp) (by simp)) rfl
  | complete =>
    -- A client's report names no failure class that is retried.
    exact hquiet (hw.call hd (fun h => absurd h Bool.false_ne_true) (by simp) (by simp)) rfl
  | turnDown hno =>
    exact hquiet ⟨(hw.handed.plan hd).2 hno, hw.own.step (by simp), hw.reports, hw.joining⟩ rfl
  | plan hout hdec => exact hquiet (hw.plan hd hout hdec) rfl
  | workerGone hi => exact hquiet (hw.setHandler hi (List.nil_subperm) (by simp [Handler.parcels])) rfl
  | find hi | answer hi => exact hquiet (hw.setHandler hi (.refl _) fun _ => id) rfl
  | @reset i out j hi =>
    have hslot : OnTheirWay sent (c.onSlot j fun slot => { slot with hasResult := false }) :=
      hw.onSlot fun slot _ => ⟨rfl, List.Subset.refl _⟩
    exact hquiet (hslot.setHandler hi (.refl _) fun _ => id) rfl
  | snapshot hi => exact hquiet (hw.snapshot hi) rfl
  | @spec i out j members half mid rest hi =>
    have hsame : (Handler.reading out j (members ++ [c.sched.readSpec half]) none rest).parcels =
        (Handler.reading out j members (some half) (mid :: rest)).parcels := by
      simp [Handler.parcels, parcel_readSpec]
    exact hquiet (hw.setHandler hi (hsame ▸ .refl _) fun _ hr => hsame ▸ hr) rfl
  | send hi => exact hw.send hi
  | receive hj ht hin => exact hquiet (hw.read hj hin (by simp [WorkerThread.reports, WorkerMessage.reports])) rfl
  | skip hj ht hin hmsg hto =>
    refine hquiet (hw.read hj hin ?_) rfl
    rcases hto with rfl | rfl <;> exact List.nil_subset _
  | turn hj ht => exact hquiet (hw.goto hj (by rw [ht]; exact List.subset_append_left _ _)) rfl
  | stampStart hj ht | stampResult hj ht =>
    exact hquiet (hw.goto hj (by rw [ht]; exact List.Subset.refl _)) rfl
  | confirm hj ht => exact hquiet (hw.confirm hj ht hd) rfl
  | report hj ht => exact hquiet (hw.report hj ht hd) rfl
  | publish hj ht =>
    refine hquiet (hw.onSlot fun slot _ => ⟨rfl, fun p hp => ?_⟩) rfl
    rw [WorkerSlot.mem_reports] at hp ⊢
    exact hp.imp_left fun hp => nomatch hp
  | arrive => exact hquiet (hw.onSlot fun slot hj => ⟨rfl, reports_arrive hop hj⟩) rfl

end OnTheirWay

theorem Coordinator.step_ids_extends (c : Coordinator) (op : CoordOp) :
    (c.step op).1.sched.idFactory.Extends c.sched.idFactory := by
  have hstep := c.step_happens op
  generalize (c.step op).1 = c' at hstep ⊢
  generalize (c.step op).2 = eff at hstep
  cases hstep with
  | register | submit | cancel | complete | rollEpoch | advance | turnDown | plan | confirm | report =>
    exact InferenceScheduler.step_ids_extends c.sched _
  | _ => exact .refl _

theorem Coordinator.map_handouts (c : Coordinator) (eff : Effect) : (c.handouts eff).map Handout.pair = eff.handedOut := by
  cases eff with
  | run j msg => simp only [handouts, Effect.handedOut, List.map_map]; rfl
  | _ => rfl

theorem OnTheirWay.init (cfg : SchedulerConfig) (now : ClockTime) (salt : UInt64) (epoch : Option SchedulerEpoch) :
    OnTheirWay [] { sched := Impl.init cfg now salt epoch } := by
  refine ⟨⟨List.nodup_nil, by simp [Underway.pairs, Coordinator.parcels], ?_, by simp [Coordinator.parcels], ?_⟩,
    ?_, by simp, by simp⟩
  · intro r rec hf
    cases hf
  · rintro w r ⟨wr, hw, _⟩
    cases hw
  · intro r hr
    cases hr

/-- **Each attempt is handed out at most once.** In every run in which the
workers report on the members of a run message only, and in which the ids drawn
are pairwise distinct, no attempt of a request is in two run messages, nor in
one of them twice. -/
theorem handed_out_once {cfg : SchedulerConfig} {now : ClockTime} {salt : UInt64} {epoch : Option SchedulerEpoch}
    {ops : List CoordOp} (hops : coordinator.Allowed Honest { sched := Impl.init cfg now salt epoch } ops)
    (hd : (coordinator.run { sched := Impl.init cfg now salt epoch } ops).sched.idFactory.Distinct) :
    ((coordinator.trace { sched := Impl.init cfg now salt epoch } ops).flatMap fun e => e.out.handedOut).Nodup := by
  have hway := history_invariant (m := coordinator)
    (I := fun past c => c.sched.idFactory.Distinct → OnTheirWay (past.flatMap fun e => e.pre.handouts e.out) c)
    (fun past c op hop h hdist => ?_) (fun _ => .init cfg now salt epoch) hops
  · have hnodup := (List.nodup_append.1 (hway hd).handed.once).1
    rw [List.map_flatMap] at hnodup
    simpa only [Coordinator.map_handouts] using hnodup
  · rw [List.flatMap_append, List.flatMap_singleton]
    exact (h (hdist.of_extends (c.step_ids_extends op))).step hop hdist

/-- The first attempt fails on the worker, and the next is dispatched again. -/
theorem handed_out_once_retried :
    let c : Coordinator := { sched := Impl.init {} 0 0x80000001 none }
    let failure : RunResult :=
      { successOf 0x8000000100000001 0x8000000100000003 0x8000000100000002 with
        status := .failed, failure := .retryableWorker }
    let ops : List (List CoordOp) := [
      [.register (plainRegister 3), .enter, .submit plainSpec, .dispatch ⟨0x8000000100000001⟩ false],
      List.replicate 5 (.handler 0),
      [.arrive 0 (some 0) (.completed ⟨⟨0x8000000100000004⟩, 8, [failure]⟩)],
      List.replicate 7 (.thread 0),
      [.dispatch ⟨0x8000000100000001⟩ false],
      List.replicate 5 (.handler 1)]
    ((coordinator.trace c ops.flatten).flatMap fun e => e.out.handedOut) =
        [(⟨0x8000000100000001⟩, ⟨0x8000000100000003⟩), (⟨0x8000000100000001⟩, ⟨0x8000000100000006⟩)] ∧
      ((coordinator.trace c ops.flatten).flatMap fun e => e.out.handedOut).Nodup :=
  ⟨by decide +kernel, handed_out_once (by decide +kernel) (by decide +kernel)⟩

/-! ## When the ids come round -/

/-- Submissions change the scheduler only. -/
theorem Coordinator.run_submit (c : Coordinator) (spec : RequestSpec) (k : ℕ) :
    coordinator.run c (List.replicate k (.submit spec)) =
      { c with sched := scheduler.run c.sched (List.replicate k (.submit spec none)) } := by
  induction k generalizing c with
  | zero => rfl
  | succ k ih =>
    rw [List.replicate_succ, run_cons, ih]
    rfl

/-- A request is dispatched and done. Submissions that are deferred draw the
next ids up to where they repeat; then a submission gets the id of the first
request, whose record is queued again, and its attempt is handed out anew. -/
theorem handed_out_wraps :
    let c : Coordinator := .start 0 0x80000001
    let fst : List (List CoordOp) := [
      [.register { plainRegister 3 with models := [⟨1⟩] }, .enter, .submit plainSpec,
        .dispatch ⟨0x8000000100000001⟩ false],
      List.replicate 5 (.handler 0),
      [.arrive 0 (some 0) (.completed ⟨⟨0x8000000100000004⟩, 8,
        [successOf 0x8000000100000001 0x8000000100000003 0x8000000100000002]⟩)],
      List.replicate 7 (.thread 0)]
    let lst : List (List CoordOp) := [
      [.submit plainSpec, .dispatch ⟨0x8000000100000001⟩ false],
      List.replicate 5 (.handler 1)]
    let ops := fst.flatten ++ (List.replicate (2 ^ 32 - 4) (.submit { plainSpec with model := ⟨2⟩ }) ++ lst.flatten)
    coordinator.Allowed Honest c ops ∧
      ¬((coordinator.trace c ops).flatMap fun e => e.out.handedOut).Nodup := by
  intro c fst lst ops
  have hv : validateSpec { plainSpec with model := ⟨2⟩ } = .ok () := by decide +kernel
  have hdefer : ((coordinator.run c fst.flatten).sched.makeAdmission { plainSpec with model := ⟨2⟩ }
      (coordinator.run c fst.flatten).sched.now).1 = .defer := by decide +kernel
  have hmid : coordinator.run (coordinator.run c fst.flatten)
      (List.replicate (2 ^ 32 - 4) (.submit { plainSpec with model := ⟨2⟩ })) =
        { coordinator.run c fst.flatten with sched := (coordinator.run c fst.flatten).sched.deferred (2 ^ 32 - 4) } := by
    rw [Coordinator.run_submit, Impl.run_deferred hv hdefer]
  refine ⟨?_, fun hnodup => ?_⟩
  · rw [allowed_append, allowed_append, hmid]
    refine ⟨by decide +kernel, allowed_of_forall fun op hop c => ?_, by decide +kernel⟩
    rw [List.eq_of_mem_replicate hop]
    trivial
  · rw [trace_append, trace_append, hmid, List.flatMap_append, List.flatMap_append, List.nodup_append] at hnodup
    have hfirst : (⟨0x8000000100000001⟩, ⟨0x8000000100000003⟩) ∈
        (coordinator.trace c fst.flatten).flatMap fun e => e.out.handedOut := by decide +kernel
    have hagain : (⟨0x8000000100000001⟩, ⟨0x8000000100000003⟩) ∈
        (coordinator.trace { coordinator.run c fst.flatten with
          sched := (coordinator.run c fst.flatten).sched.deferred (2 ^ 32 - 4) } lst.flatten).flatMap
          fun e => e.out.handedOut := by decide +kernel
    exact hnodup.2.2 _ hfirst _ (List.mem_append_right _ hagain) rfl

end InferenceScheduler
