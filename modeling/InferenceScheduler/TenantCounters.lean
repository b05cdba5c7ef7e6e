/-
The per-tenant counters of queued and running requests. Three places take off
more than they should, each behind a guard that hides it at zero:
`finish_cancelled` dequeues a request that is on a worker, every ending of a
request that was reserved but never started counts it out of the running ones,
and `recover_in_flight` counts a request out before `make_retry` or
`finish_failed` does so again. Where none of them meets a counter it can still
take something off, the counters are exact.
-/
import InferenceScheduler.ReadyIndex
import InferenceScheduler.Accounting
import InferenceScheduler.Conservation

namespace InferenceScheduler

open Machine

/-- A request of a tenant in a state. -/
def RequestRecord.inState (st : RequestState) (t : TenantId) (rec : RequestRecord) : Bool :=
  rec.spec.tenant == t && rec.state == st

/-- What a change of state adds to the number of requests in `st`. -/
def gain (st old new : RequestState) : ℤ := (if new = st then 1 else 0) - if old = st then 1 else 0

/-- The counters of a tenant are the numbers of its queued and running
requests. -/
structure ExactAt (b : Book) (t : TenantId) : Prop where
  queued : (b.tenants t).queued = b.core.requests.count (RequestRecord.inState .queued t)
  running : (b.tenants t).running = b.core.requests.count (RequestRecord.inState .running t)

/-! ## The numbers after a move -/

/-- The requests of a tenant in a state, when one is written. -/
theorem Core.inState_writes {c : Core} {m : Move} {rec rec' : RequestRecord} (hw : Writes c m rec rec')
    (hf : c.Holds rec) (hone : ∀ wr members, m ≠ .reserve wr members) (st : RequestState) (t : TenantId) :
    ((c.act m).requests.count (RequestRecord.inState st t) : ℤ) =
      c.requests.count (RequestRecord.inState st t) +
        if rec.spec.tenant = t then gain st rec.state rec'.state else 0 := by
  rw [count_writes _ hw hf hone]
  simp only [RequestRecord.inState, hw.spec, Bool.and_eq_true, beq_iff_eq, gain]
  by_cases ht : rec.spec.tenant = t
  · simp only [ht, true_and, if_true]
    omega
  · simp [ht]

theorem Core.inState_pos {c : Core} {rec : RequestRecord} {t : TenantId} (hf : c.Holds rec)
    (ht : rec.spec.tenant = t) : 0 < c.requests.count (RequestRecord.inState rec.state t) :=
  Keyed.count_pos_iff.2 ⟨_, rec, hf, by simp [RequestRecord.inState, ht]⟩

/-- What a move that writes one request does to the counters of its tenant. -/
def Move.counted : Move → Counts → Counts
  | .expire _, c => c.dequeue.leave
  | .start _ _ _, c => c.start
  | .finish _ _ .stale, c => c
  | .finish _ _ _, c => c.stop.leave
  | .cancel rec _ _ _, c => (if rec.onWorker then c.stop else c).dequeue.leave
  | .retry _ _, c => c.stop.enqueue
  | _, c => c

theorem Book.on_tenants (b : Book) (t t' : TenantId) (f : Counts → Counts) :
    (b.on t f).tenants t' = if t = t' then f (b.tenants t') else b.tenants t' := by
  by_cases ht : t = t'
  · subst ht
    simp only [on, Function.update_self, if_true]
  · simp only [on, Function.update_of_ne (Ne.symm ht), if_neg ht]

theorem Book.on_on_tenants (b : Book) (t t' : TenantId) (f g : Counts → Counts) :
    ((b.on t f).on t g).tenants t' = if t = t' then g (f (b.tenants t')) else b.tenants t' := by
  rw [on_tenants, on_tenants]
  split <;> rfl

theorem Book.move_tenants {b : Book} {m : Move} {rec rec' : RequestRecord} (hw : Writes b.core m rec rec')
    (hone : ∀ wr members, m ≠ .reserve wr members) (t : TenantId) :
    (b.act (.move m)).tenants t = if rec.spec.tenant = t then m.counted (b.tenants t) else b.tenants t := by
  cases hw with
  | expire | retry => exact b.on_on_tenants _ _ _ _
  | reserve _ => exact absurd rfl (hone _ _)
  | start => exact b.on_tenants _ _ _
  | flag => exact (ite_self _).symm
  | @finish _ w e =>
    cases e with
    | success | failed | expired => exact b.on_on_tenants _ _ _ _
    | stale => exact (ite_self _).symm
  | cancel =>
    simp only [act, move, post, Move.counted, leave, on_on_tenants]
    cases rec.onWorker with
    | false => rfl
    | true =>
      simp only [if_true, on_tenants]
      split <;> rfl

/-- A move that writes one request keeps the counters exact if it counts the
request's change of state. -/
theorem ExactAt.writes {b : Book} {m : Move} {rec rec' : RequestRecord} (h : ∀ t, ExactAt b t)
    (hw : Writes b.core m rec rec') (hf : b.core.Holds rec) (hone : ∀ wr members, m ≠ .reserve wr members)
    (hq : (m.counted (b.tenants rec.spec.tenant)).queued =
      (b.tenants rec.spec.tenant).queued + gain .queued rec.state rec'.state)
    (hr : (m.counted (b.tenants rec.spec.tenant)).running =
      (b.tenants rec.spec.tenant).running + gain .running rec.state rec'.state) (t : TenantId) :
    ExactAt (b.act (.move m)) t := by
  have hcore : (b.act (.move m)).core = b.core.act m := b.move_core m
  refine ⟨?_, ?_⟩
  all_goals
    rw [hcore, Core.inState_writes hw hf hone, Book.move_tenants hw hone]
    by_cases ht : rec.spec.tenant = t
  · rw [← ht, if_pos rfl, hq, (h _).queued, if_pos rfl]
  · rw [if_neg ht, (h t).queued, if_neg ht, add_zero]
  · rw [← ht, if_pos rfl, hr, (h _).running, if_pos rfl]
  · rw [if_neg ht, (h t).running, if_neg ht, add_zero]

/-- A counter that is not zero is taken down by one. -/
theorem decPos_of_pos {n : ℤ} (h : 0 < n) : decPos n = n - 1 := if_pos h

theorem decPos_zero : decPos 0 = 0 := rfl

/-- Every request is queued, on a worker or over. -/
def Staged (c : Core) : Prop := ∀ r rec, c.requests.find r = some rec →
  rec.state = .queued ∨ rec.state = .reserved ∨ rec.state = .running ∨ isTerminal rec.state = true

theorem Staged.act {c : Core} {m : Move} (h : Staged c) (hen : Enabled c m) : Staged (c.act m) := by
  intro r rec' hf'
  rcases Core.find_act hen hf' with hs | ⟨rec, hf, rfl | hw⟩
  · cases hs with
    | refuse => exact .inr (.inr (.inr hen.2.1))
    | accept => exact .inl rfl
  · exact h r rec' hf
  · have hold := h r rec hf
    cases hw with
    | expire | cancel => exact .inr (.inr (.inr rfl))
    | reserve => exact .inr (.inl rfl)
    | start => exact .inr (.inr (.inl rfl))
    | flag => exact hold
    | retry => exact .inl rfl
    | @finish _ w e =>
      cases e with
      | success => exact .inr (.inr (.inr (by simp [Ending.close, Ending.note, RequestRecord.succeed, isTerminal])))
      | failed | expired => exact .inr (.inr (.inr rfl))
      | stale => simpa [Ending.close, Ending.note, RequestRecord.noteStale] using hold

theorem Staged.working {c : Core} {rec : RequestRecord} (h : Staged c) (hf : c.Holds rec)
    (ht : isTerminal rec.state = false) (hq : rec.state ≠ .queued) : rec.state = .reserved ∨ rec.state = .running := by
  rcases h _ rec hf with hs | hs | hs | hs
  · exact absurd hs hq
  · exact .inl hs
  · exact .inr hs
  · rw [ht] at hs
    cases hs

theorem Move.counted_finish {e : Ending} (he : e ≠ .stale) (rec : RequestRecord) (w : WorkerId) (c : Counts) :
    (Move.finish rec w e).counted c = c.stop.leave := by
  cases e with
  | success | failed | expired => rfl
  | stale => exact absurd rfl he

/-- A move that ends an attempt finds no counter to take off that the request
is not in. -/
def TakesOwn (b : Book) : Move → Prop
  | .finish rec _ e => rec.state ≠ .queued ∧
      (rec.state = .reserved → e ≠ .stale → (b.tenants rec.spec.tenant).running = 0)
  | .retry rec _ => rec.state ≠ .queued ∧ (rec.state = .reserved → (b.tenants rec.spec.tenant).running = 0)
  | .cancel rec _ _ _ => (rec.onWorker = true → (b.tenants rec.spec.tenant).queued = 0) ∧
      (rec.state = .reserved → (b.tenants rec.spec.tenant).running = 0)
  | _ => True

section

variable {b : Book} {rec : RequestRecord} {t : TenantId}

/-- The counter of a state is at least one while a request is in it. -/
theorem ExactAt.running_pos (h : ExactAt b rec.spec.tenant) (hf : b.core.Holds rec) (hs : rec.state = .running) :
    0 < (b.tenants rec.spec.tenant).running := by
  have hpos := b.core.inState_pos hf rfl
  rw [hs] at hpos
  rw [h.running]
  omega

theorem ExactAt.queued_pos (h : ExactAt b rec.spec.tenant) (hf : b.core.Holds rec) (hs : rec.state = .queued) :
    0 < (b.tenants rec.spec.tenant).queued := by
  have hpos := b.core.inState_pos hf rfl
  rw [hs] at hpos
  rw [h.queued]
  omega

/-- A request on a worker is counted out of the running ones, if it is one. -/
theorem ExactAt.stop (h : ExactAt b rec.spec.tenant) (hf : b.core.Holds rec)
    (hs : rec.state = .reserved ∨ rec.state = .running)
    (hr : rec.state = .reserved → (b.tenants rec.spec.tenant).running = 0) :
    decPos (b.tenants rec.spec.tenant).running =
      (b.tenants rec.spec.tenant).running - if rec.state = .running then 1 else 0 := by
  rcases hs with hs | hs
  · rw [hr hs, decPos_zero]
    simp [hs]
  · rw [decPos_of_pos (h.running_pos hf hs), if_pos hs]

end

/-- The next member of a batch leaves the queue. -/
theorem ExactAt.reserveMember {b : Book} {bid : BatchId} {id : RequestId} {rec : RequestRecord}
    (h : ∀ t, ExactAt b t) (hf : b.core.requests.find id = some rec) (hs : rec.state = .queued) (t : TenantId) :
    ExactAt (b.reserveMember bid id) t := by
  have hpos := (h rec.spec.tenant).queued_pos (Keyed.find_key hf) hs
  rw [(h _).queued] at hpos
  have hcount := fun st => b.core.count_reserveMember bid (RequestRecord.inState st t) hf
  simp only [RequestRecord.inState, hs, RequestRecord.reserve, Bool.and_eq_true, beq_iff_eq] at hcount
  simp only [Book.reserveMember, hf]
  by_cases ht : rec.spec.tenant = t
  · subst ht
    refine ⟨?_, ?_⟩
    · refine Eq.trans ?_ (hcount .queued).symm
      simp [Book.on, Counts.dequeue, decPos_of_pos hpos, (h _).queued]
    · refine Eq.trans ?_ (hcount .running).symm
      simp [Book.on, Counts.dequeue, (h _).running]
  · refine ⟨?_, ?_⟩
    · refine Eq.trans ?_ (hcount .queued).symm
      simp [Book.on, Ne.symm ht, ht, (h _).queued]
    · refine Eq.trans ?_ (hcount .running).symm
      simp [Book.on, Ne.symm ht, ht, (h _).running]

theorem Staged.reserveMember {c : Core} (h : Staged c) (bid : BatchId) (id : RequestId) :
    Staged (c.reserveMember bid id) := by
  intro r rec' hf'
  rw [Core.reserveMember_find] at hf'
  split at hf'
  · obtain ⟨rec, _, rfl⟩ := Option.map_eq_some_iff.1 hf'
    exact .inr (.inl rfl)
  · exact h r rec' hf'

/-- The members of a batch wait when they are reserved. -/
theorem Staged.reserve_invariant {I : Book → Prop} {b : Book} {wr : WorkerRecord} {members : List RequestId}
    (h : Staged b.core)
    (hstep : ∀ b' id rec, b'.core.requests.find id = some rec → rec.state = .queued → I b' →
      I (b'.reserveMember b.core.ids.peek id))
    (hpool : ∀ p, I { b with core := { b.core with ids := b.core.ids.tick, pool := p } })
    (hen : Enabled b.core (.reserve wr members)) : I (b.act (.move (.reserve wr members))) := by
  refine (Book.reserve_invariant (I := fun b => Staged b.core ∧ I b) (fun b' id rec hf hs hb' => ?_)
    (fun p => ⟨h, hpool p⟩) hen).2
  have hq : rec.state = .queued := by
    have hstage := hb'.1 id rec hf
    rcases hs with hs | hs
    · exact hs
    · simp [hs, isTerminal] at hstage
  refine ⟨?_, hstep b' id rec hf hq hb'.2⟩
  rw [Book.reserveMember_core]
  exact hb'.1.reserveMember _ id

section moves

variable {b : Book} {rec : RequestRecord} (h : ∀ t, ExactAt b t)

include h

theorem ExactAt.refuse (hen : Enabled b.core (.refuse rec)) (t : TenantId) :
    ExactAt (b.act (.move (.refuse rec))) t := by
  have hcount : ∀ st, isTerminal st = false → ((b.core.requests.put rec).count (RequestRecord.inState st t) : ℤ) =
      b.core.requests.count (RequestRecord.inState st t) := by
    intro st hst
    have hne : rec.state ≠ st := by
      intro he
      subst he
      exact absurd hen.2.1 (by simp [hst])
    rw [Keyed.count_put_of_none hen.1]
    simp [RequestRecord.inState, hne]
  exact ⟨(h t).queued.trans (hcount .queued rfl).symm, (h t).running.trans (hcount .running rfl).symm⟩

theorem ExactAt.accept {spec : RequestSpec} {rid : RequestId} (hen : Enabled b.core (.accept spec rid))
    (t : TenantId) : ExactAt (b.act (.move (.accept spec rid))) t := by
  have htenant : (b.act (.move (.accept spec rid))).tenants t =
      if spec.tenant = t then (b.tenants t).enqueue.enter else b.tenants t := b.on_on_tenants _ _ _ _
  set new := { Impl.admittedRecord spec rid b.core.ids.peek b.core.ids.tick.peek b.core.now with
    state := .queued, queuedAt := b.core.now } with hnew
  have hcount : ∀ st, ((b.core.requests.put new).count (RequestRecord.inState st t) : ℤ) =
      b.core.requests.count (RequestRecord.inState st t) + if spec.tenant = t ∧ .queued = st then 1 else 0 := by
    intro st
    rw [Keyed.count_put_of_none (show b.core.requests.find new.requestId = none from hen)]
    simp [hnew, RequestRecord.inState, Impl.admittedRecord]
  refine ⟨Eq.trans ?_ (hcount .queued).symm, Eq.trans ?_ (hcount .running).symm⟩
  all_goals
    rw [htenant]
    by_cases ht : spec.tenant = t
  · simp [ht, Counts.enter, Counts.enqueue, (h t).queued]
  · simp [ht, (h t).queued]
  · simp [ht, Counts.enter, Counts.enqueue, (h t).running]
  · simp [ht, (h t).running]

theorem ExactAt.expire (hen : Enabled b.core (.expire rec)) (t : TenantId) :
    ExactAt (b.act (.move (.expire rec))) t := by
  have hpos := (h rec.spec.tenant).queued_pos hen.1 hen.2
  refine ExactAt.writes h .expire hen.1 (by simp) ?_ ?_ t
  · simp [Move.counted, Counts.leave, Counts.dequeue, decPos_of_pos hpos, gain, hen.2, RequestRecord.expire,
      sub_eq_add_neg]
  · simp [Move.counted, Counts.leave, Counts.dequeue, gain, hen.2, RequestRecord.expire]

theorem ExactAt.finish (hst : Staged b.core) {w : WorkerId} {e : Ending} (hen : Enabled b.core (.finish rec w e))
    (hm : TakesOwn b (.finish rec w e)) (t : TenantId) : ExactAt (b.act (.move (.finish rec w e))) t := by
  by_cases he : e = .stale
  · subst he
    refine ExactAt.writes h .finish hen.1 (by simp) ?_ ?_ t
    · simp [Move.counted, Ending.close, Ending.note, RequestRecord.noteStale, gain]
    · simp [Move.counted, Ending.close, Ending.note, RequestRecord.noteStale, gain]
  · have hend := Ending.isTerminal_close he b.core.pool w b.core.now rec
    have hstop := (h _).stop hen.1 (hst.working hen.1 hen.2.1 hm.1) fun hs => hm.2 hs he
    have hq : (e.close (b.core.pool.released w (e.note b.core.now rec))).state ≠ .queued :=
      fun hx => by simp [hx, isTerminal] at hend
    have hr : (e.close (b.core.pool.released w (e.note b.core.now rec))).state ≠ .running :=
      fun hx => by simp [hx, isTerminal] at hend
    refine ExactAt.writes h .finish hen.1 (by simp) ?_ ?_ t
    · simp [Move.counted_finish he, Counts.leave, Counts.stop, gain, hq, hm.1]
    · simp [Move.counted_finish he, Counts.leave, Counts.stop, gain, hr, hstop, sub_eq_add_neg]

theorem ExactAt.cancel (hst : Staged b.core) {asked : CancellationReason} {w : WorkerId} {reason : String}
    (hen : Enabled b.core (.cancel rec asked w reason)) (hm : TakesOwn b (.cancel rec asked w reason))
    (t : TenantId) : ExactAt (b.act (.move (.cancel rec asked w reason))) t := by
  by_cases hq : rec.state = .queued
  · have hon : rec.onWorker = false := by simp [RequestRecord.onWorker, hq]
    have hpos := (h rec.spec.tenant).queued_pos hen.1 hq
    refine ExactAt.writes h .cancel hen.1 (by simp) ?_ ?_ t
    · simp [Move.counted, Counts.leave, Counts.dequeue, decPos_of_pos hpos, gain, hq, hon, RequestRecord.cancel,
        sub_eq_add_neg]
    · simp [Move.counted, Counts.leave, Counts.dequeue, gain, hq, hon, RequestRecord.cancel]
  · have hs := hst.working hen.1 hen.2 hq
    have hon : rec.onWorker = true := by rcases hs with hs | hs <;> simp [RequestRecord.onWorker, hs]
    have hstop := (h _).stop hen.1 hs hm.2
    refine ExactAt.writes h .cancel hen.1 (by simp) ?_ ?_ t
    · simp [Move.counted, Counts.leave, Counts.dequeue, Counts.stop, gain, hq, hon, RequestRecord.cancel, hm.1 hon,
        decPos_zero]
    · simp [Move.counted, Counts.leave, Counts.dequeue, Counts.stop, gain, hon, RequestRecord.cancel, hstop,
        sub_eq_add_neg]

theorem ExactAt.retry (hst : Staged b.core) {r : CompletionReport} (hen : Enabled b.core (.retry rec r))
    (hm : TakesOwn b (.retry rec r)) (t : TenantId) : ExactAt (b.act (.move (.retry rec r))) t := by
  have hstop := (h _).stop hen.1 (hst.working hen.1 hen.2.1 hm.1) hm.2
  refine ExactAt.writes h .retry hen.1 (by simp) ?_ ?_ t
  · simp [Move.counted, Counts.stop, Counts.enqueue, RequestRecord.retry, gain, hm.1]
  · simp [Move.counted, Counts.stop, Counts.enqueue, RequestRecord.retry, gain, hstop, sub_eq_add_neg]

theorem ExactAt.act {m : Move} (hst : Staged b.core) (hen : Enabled b.core m) (hm : TakesOwn b m) (t : TenantId) :
    ExactAt (b.act (.move m)) t := by
  cases m with
  | advance | draw | pop | sleep | sweep | setWorker | dropWorker => exact ⟨(h t).queued, (h t).running⟩
  | refuse => exact .refuse h hen t
  | accept => exact .accept h hen t
  | expire => exact .expire h hen t
  | finish => exact .finish h hst hen hm t
  | cancel => exact .cancel h hst hen hm t
  | retry => exact .retry h hst hen hm t
  | reserve wr members =>
    exact hst.reserve_invariant (I := fun b => ∀ t, ExactAt b t)
      (fun b' id rec hf hs hb' => ExactAt.reserveMember hb' hf hs) (fun p t => ⟨(h t).queued, (h t).running⟩) hen t
  | start rec wr snap =>
    refine ExactAt.writes h .start hen.1 (by simp) ?_ ?_ t
    · simp [Move.counted, Counts.start, gain, hen.2, RequestRecord.start]
    · simp [Move.counted, Counts.start, gain, hen.2, RequestRecord.start]
  | flag rec asked =>
    refine ExactAt.writes h .flag hen.1 (by simp) ?_ ?_ t
    · simp [Move.counted, gain]
    · simp [Move.counted, gain]

end moves

/-! ## Losing a worker -/

section

variable {c : Core} {w : WorkerId} {r : RequestId}

theorem Core.not_inFlight_sweep : ¬(c.act (.sweep w)).InFlight w r := by
  intro hx
  obtain ⟨wr, hf, hr⟩ := hx
  have hfind : (c.pool.sweep w).workers.find w = some wr := hf
  rw [Pool.find_sweep_self] at hfind
  obtain ⟨wr₀, _, rfl⟩ := Option.map_eq_some_iff.1 hfind
  exact absurd hr (AList.notMem_empty r)

theorem Core.not_inFlight_dropWorker : ¬(c.act (.dropWorker w)).InFlight w r := by
  intro hx
  obtain ⟨wr, hf, _⟩ := hx
  simp [act, Keyed.find_erase] at hf

/-- A worker's record comes back with the requests in flight it had. -/
theorem Core.not_inFlight_setWorker {wr : WorkerRecord} (hsame : ((c.pool.workers.find wr.id).getD {}).SameWork wr)
    (hno : ¬c.InFlight wr.id r) : ¬(c.act (.setWorker wr)).InFlight wr.id r := by
  intro hx
  obtain ⟨wr', hf, hr⟩ := hx
  have hfind : (c.pool.putWorker wr).workers.find wr.id = some wr' := hf
  rw [Pool.find_putWorker, if_pos rfl, Option.some.injEq] at hfind
  subst hfind
  rw [hsame.2.2.2.2.2.2] at hr
  cases hw : c.pool.workers.find wr.id with
  | none =>
    rw [hw] at hr
    exact absurd hr (AList.notMem_empty r)
  | some wr₀ =>
    rw [hw] at hr
    exact hno ⟨wr₀, hw, hr⟩

end

/-- A lost worker has no request in flight. -/
theorem not_inFlight_of_loses {s : Impl} {op : Op} {w : WorkerId} (h : Loses s op w) (r : RequestId) :
    ¬(scheduler.next s op).core.InFlight w r := by
  cases h with
  | unregister =>
    show ¬(s.doUnregisterWorker w).1.core.InFlight w r
    unfold Impl.doUnregisterWorker
    split
    · next hf =>
      intro hx
      obtain ⟨wr, hw, _⟩ := hx
      exact absurd (hf.symm.trans hw) (by simp)
    · exact Core.not_inFlight_dropWorker (c := (s.recoverInFlight w).core)
  | restart reg hb =>
    obtain ⟨wr, hf, _⟩ := (Option.any_eq_true _ _).1 hb
    obtain ⟨_, s', hsweep⟩ := Impl.recoverInFlight_effects (.restart reg hb) hf
    have hno : ¬(s.recoverInFlight reg.worker).core.InFlight reg.worker r := by
      rw [hsweep.core]
      exact Core.not_inFlight_sweep
    show ¬(s.doRegisterWorker reg).core.InFlight reg.worker r
    unfold Impl.doRegisterWorker
    rw [if_pos hb]
    have hsame := Impl.registered_sameWork (((s.recoverInFlight reg.worker).pool.workers.find reg.worker).getD {}) reg
    exact Core.not_inFlight_setWorker (c := (s.recoverInFlight reg.worker).core) hsame hno

/-- The running requests of a tenant, all of which or none of which are in
flight on `w`, while `w` is recovered. If all are, the counter may be too
low. -/
inductive RunningDrained (w : WorkerId) (b : Book) (t : TenantId) : Prop
  | none (hexact : (b.tenants t).running = b.core.requests.count (RequestRecord.inState .running t))
      (hoff : ∀ r rec, b.core.requests.find r = some rec → rec.inState .running t = true → ¬b.core.InFlight w r)
  | all (hnonneg : 0 ≤ (b.tenants t).running)
      (hle : (b.tenants t).running ≤ b.core.requests.count (RequestRecord.inState .running t))
      (hon : ∀ r rec, b.core.requests.find r = some rec → rec.inState .running t = true → b.core.InFlight w r)

/-- The counters of a tenant while `w` is recovered. -/
structure DrainingAt (w : WorkerId) (b : Book) (t : TenantId) : Prop where
  queued : (b.tenants t).queued = b.core.requests.count (RequestRecord.inState .queued t)
  running : RunningDrained w b t

namespace DrainingAt

variable {w : WorkerId} {b b' : Book} {t : TenantId}

/-- With none of its running requests in flight on `w`, a tenant's counters
are exact. -/
theorem exact (h : DrainingAt w b t) (hoff : ∀ r rec, b.core.requests.find r = some rec →
    rec.inState .running t = true → ¬b.core.InFlight w r) : ExactAt b t := by
  refine ⟨h.queued, ?_⟩
  cases h.running with
  | none hexact => exact hexact
  | all hnonneg hle hon =>
    have hzero : b.core.requests.count (RequestRecord.inState .running t) = 0 := by
      by_contra hpos
      obtain ⟨r, rec, hf, hr⟩ := Keyed.count_pos_iff.1 (Nat.pos_of_ne_zero hpos)
      exact hoff r rec hf hr (hon r rec hf hr)
    omega

theorem of_exact (h : ExactAt b t) (hoff : ∀ r, ¬b.core.InFlight w r) : DrainingAt w b t :=
  ⟨h.queued, .none h.running fun r _ _ _ => hoff r⟩

/-- The requests and the counters are as before, and nothing is in flight on
`w`. -/
theorem cleared (h : DrainingAt w b t) (hoff : ∀ r rec, b.core.requests.find r = some rec →
    rec.inState .running t = true → ¬b.core.InFlight w r) (hreq : b'.core.requests = b.core.requests)
    (hten : b'.tenants = b.tenants) (hoff' : ∀ r, ¬b'.core.InFlight w r) : DrainingAt w b' t := by
  obtain ⟨hq, hr⟩ := h.exact hoff
  exact of_exact ⟨by rw [hten, hreq, hq], by rw [hten, hreq, hr]⟩ hoff'

/-- A running request of `w` is taken off the running ones on its own. -/
theorem settle {rec : RequestRecord} (h : DrainingAt w b t) (hf : b.core.Holds rec)
    (hs : rec.state = .running) (hin : b.core.InFlight w rec.requestId) :
    DrainingAt w (b.act (.settle rec.spec.tenant)) t := by
  by_cases ht : rec.spec.tenant = t
  · subst ht
    have hrun : rec.inState .running rec.spec.tenant = true := by simp [RequestRecord.inState, hs]
    refine ⟨?_, ?_⟩
    · simpa [Book.act, Book.on, Counts.stop] using h.queued
    · cases h.running with
      | none _ hoff => exact absurd hin (hoff _ rec hf hrun)
      | all hnonneg hle hon =>
        have hcount : ((b.act (.settle rec.spec.tenant)).tenants rec.spec.tenant).running =
            decPos (b.tenants rec.spec.tenant).running := by simp [Book.act, Book.on, Counts.stop]
        refine .all ?_ ?_ hon
        · rw [hcount, decPos]
          split <;> omega
        · exact hcount.trans_le ((decPos_le _).trans hle)
  · have hten : (b.act (.settle rec.spec.tenant)).tenants t = b.tenants t := by
      simp [Book.act, Book.on, Ne.symm ht]
    refine ⟨?_, ?_⟩
    · rw [hten]
      exact h.queued
    · cases h.running with
      | none hexact hoff => exact .none (by rw [hten]; exact hexact) hoff
      | all hnonneg hle hon => exact .all (by rw [hten]; exact hnonneg) (by rw [hten]; exact hle) hon

/-- A running request of `w` is retried or failed. -/
theorem recover {rec : RequestRecord} {boot : WorkerBootId} {m : Move} (h : DrainingAt w b t)
    (hm : m = .retry rec (Impl.restartReport w boot rec) ∨ m = .finish rec w (.failed (Impl.restartReport w boot rec)))
    (hen : Enabled b.core m) (hf : b.core.Holds rec) (hs : rec.state = .running)
    (hin : b.core.InFlight w rec.requestId) : DrainingAt w (b.act (.move m)) t := by
  have hcore : (b.act (.move m)).core = b.core.act m := b.move_core m
  obtain ⟨hpool, hfind⟩ := Impl.recover_frame (c := b.core) hm
  have hflight := Impl.inFlight_releaseMember hpool
  rw [← hcore] at hfind hflight
  obtain ⟨rec', hw, hone, hs', hq, hr⟩ : ∃ rec', Writes b.core m rec rec' ∧ (∀ wr members, m ≠ .reserve wr members) ∧
      rec'.state ≠ .running ∧ (∀ c, (m.counted c).queued = c.queued + gain .queued rec.state rec'.state) ∧
      ∀ c, (m.counted c).running = decPos c.running := by
    rcases hm with rfl | rfl
    · refine ⟨_, .retry, by simp, by simp [RequestRecord.retry], fun c => ?_, fun _ => rfl⟩
      simp [Move.counted, Counts.stop, Counts.enqueue, RequestRecord.retry, gain, hs]
    · refine ⟨_, .finish, by simp, by simp [Ending.close, RequestRecord.fail], fun c => ?_, fun _ => rfl⟩
      simp [Move.counted, Counts.leave, Counts.stop, Ending.close, RequestRecord.fail, gain, hs]
  have htenants := Book.move_tenants hw hone
  -- What runs afterwards ran before, and is another request.
  have hran : ∀ r rec₁, (b.act (.move m)).core.requests.find r = some rec₁ → rec₁.inState .running t = true →
      r ≠ rec.requestId ∧ b.core.requests.find r = some rec₁ := by
    intro r rec₁ hf₁ hrun
    have hne : r ≠ rec.requestId := by
      intro he
      subst he
      rw [hcore, Core.find_of_writes hw hen hf, Option.some.injEq] at hf₁
      subst hf₁
      simp [RequestRecord.inState, hs'] at hrun
    exact ⟨hne, (hfind r hne).symm.trans hf₁⟩
  have hcount := fun st => Core.inState_writes hw hf hone st t
  simp only [← hcore] at hcount
  by_cases ht : rec.spec.tenant = t
  · subst ht
    have hrun : rec.inState .running rec.spec.tenant = true := by simp [RequestRecord.inState, hs]
    refine ⟨by rw [htenants, if_pos rfl, hq, hcount, if_pos rfl, h.queued], ?_⟩
    cases h.running with
    | none _ hoff => exact absurd hin (hoff _ rec hf hrun)
    | all hnonneg hle hon =>
      have hpos : 0 < b.core.requests.count (RequestRecord.inState .running rec.spec.tenant) :=
        Keyed.count_pos_iff.2 ⟨_, rec, hf, hrun⟩
      have hcount := hcount .running
      simp only [gain, hs, hs', ↓reduceIte] at hcount
      refine .all ?_ ?_ fun r rec₁ hf₁ hrun₁ => ?_
      · rw [htenants, if_pos rfl, hr, decPos]
        split <;> omega
      · rw [htenants, if_pos rfl, hr, hcount, decPos]
        split <;> omega
      · obtain ⟨hne, hf₀⟩ := hran r rec₁ hf₁ hrun₁
        exact (hflight r).2 ⟨hne, hon r rec₁ hf₀ hrun₁⟩
  · simp only [if_neg ht, add_zero] at hcount
    have hsame : (b.act (.move m)).tenants t = b.tenants t := (htenants t).trans (if_neg ht)
    refine ⟨by rw [hsame, hcount, h.queued], ?_⟩
    cases h.running with
    | none hexact hoff =>
      refine .none (by rw [hsame, hcount, hexact]) fun r rec₁ hf₁ hrun₁ hx => ?_
      exact hoff r rec₁ (hran r rec₁ hf₁ hrun₁).2 hrun₁ ((hflight r).1 hx).2
    | all hnonneg hle hon =>
      refine .all (by rw [hsame]; exact hnonneg) (by rw [hsame, hcount]; exact hle) ?_
      intro r rec₁ hf₁ hrun₁
      obtain ⟨hne, hf₀⟩ := hran r rec₁ hf₁ hrun₁
      exact (hflight r).2 ⟨hne, hon r rec₁ hf₀ hrun₁⟩

end DrainingAt

/-! ## Runs -/

/-- Where a request in flight on `w` is not over, all running requests of its
tenant are in flight there. -/
def LosesWhole (s : Impl) (w : WorkerId) : Prop :=
  ∀ wr ∈ s.pool.workers.find w, ∀ rid ∈ wr.inFlight.keys, ∀ rec ∈ s.requests.find rid, rec.live = true →
    ∀ rec' ∈ s.requests.records, rec'.inState .running rec.spec.tenant = true → rec'.requestId ∈ wr.inFlight

instance (s : Impl) (w : WorkerId) : Decidable (LosesWhole s w) := by unfold LosesWhole; infer_instance

instance (s : Impl) (r : CompletionReport) (rec : RequestRecord) : Decidable (Matches s r rec) :=
  decidable_of_iff (r.epoch.value = s.epochValue ∧ rec.requestId = r.requestId ∧ rec.currentAttempt = r.attemptId ∧
      rec.generation = r.generation ∧ ∃ wr ∈ s.pool.workers.find r.worker, wr.registration.bootId = r.bootId)
    ⟨fun h => ⟨h.1, h.2.1, h.2.2.1, h.2.2.2.1, h.2.2.2.2⟩,
      fun h => ⟨h.epoch, h.request, h.attempt, h.generation, h.worker⟩⟩

/-- No ending of an attempt takes off a counter the request is not in: a
request that has not started ends with no other of its tenant running, a
request on a worker is cancelled with none of its tenant queued, and a worker
is lost with all the running requests of a tenant or none. -/
def CountersSafe (s : Impl) : Op → Prop
  | .complete r => ∀ rec ∈ s.requests.find r.requestId, Matches s r rec →
      (rec.state = .reserved → r.status ≠ .stale → (s.tenantOf rec.spec.tenant).running = 0) ∧
        (r.status = .cancelled ∨ r.status = .succeeded ∧ rec.cancellationRequested = true →
          (s.tenantOf rec.spec.tenant).queued = 0)
  | .cancel req _ _ => ∀ rec ∈ s.requests.find req, rec.state = .reserved →
      (s.tenantOf rec.spec.tenant).running = 0 ∧ (s.tenantOf rec.spec.tenant).queued = 0
  | .unregisterWorker w => LosesWhole s w
  | .registerWorker reg => s.bootChanged reg = true → LosesWhole s reg.worker
  | _ => True

instance (s : Impl) (op : Op) : Decidable (CountersSafe s op) := by
  apply @Op.casesOn _ op <;> (intros; dsimp only [CountersSafe]; infer_instance)

/-- The invariant of such runs. -/
structure Tidy (b : Book) : Prop where
  exact : ∀ t, ExactAt b t
  staged : Staged b.core
  off : QueuedOff b.core
  flighted : Flighted b.core

theorem takesOwn_of_countersSafe {s : Impl} {op : Op} {b : Book} {m : Move} (h : Tidy b)
    (hop : CountersSafe s op) (hu : Unqueued m) (hno : ∀ w, ¬Loses s op w) (he : Posted s op b (.move m)) :
    TakesOwn b m := by
  obtain ⟨⟨hen, hdoes⟩, hback⟩ := he
  generalize hc : b.core = c at hen hdoes
  cases hdoes with
  | @finish r rec e hm hof =>
    obtain rfl := hback r rfl
    refine ⟨hu, fun hres hne => (hop rec (hm.request ▸ hen.1) hm).1 hres fun hst => hne ?_⟩
    cases e with
    | success => simp [Ending.Of, hst] at hof
    | failed => simp [Ending.Of, hst] at hof
    | expired => simp [Ending.Of, hst] at hof
    | stale => rfl
  | @finishCancelled r rec reason hm =>
    obtain ⟨rfl, hasked⟩ := hback.1 r rfl
    obtain ⟨hrun, hq⟩ := hop rec (hm.request ▸ hen.1) hm
    refine ⟨fun _ => hq hasked, fun hres => hrun hres ?_⟩
    rcases hasked with hst | ⟨hst, _⟩ <;> simp [hst]
  | @retry r rec hm =>
    obtain ⟨rfl, hst, _⟩ := hback r rfl
    refine ⟨hu, fun hres => (hop rec (hm.request ▸ hen.1) hm).1 hres ?_⟩
    rcases hst with hst | hst <;> simp [hst]
  | @cancel req reason detail rec text hid hd hr =>
    obtain rfl := hback.2 _ _ _ rfl
    have hres := hop rec (hid ▸ hen.1)
    refine ⟨fun hon => (hres ?_).2, fun hres' => (hres hres').1⟩
    simpa [RequestRecord.onWorker, hd, hr] using hon
  | @cancelQueued detail c rec reason hmem =>
    -- A queued request is on no worker.
    have hoff : rec.onWorker = false := h.off _ rec (hc ▸ hmem) (hc ▸ hen.1)
    refine ⟨fun hon => ?_, fun hres => ?_⟩
    · rw [hoff] at hon
      cases hon
    · simp [RequestRecord.onWorker, hres] at hoff
  | recoverRetry hl => exact absurd hl (hno _)
  | recoverFail hl => exact absurd hl (hno _)
  | _ => trivial

/-- An operation that loses no worker keeps the counters exact. -/
theorem Tidy.act {s : Impl} {op : Op} {b : Book} {e : Entry} (h : Tidy b)
    (hfresh : FreshSubmit s op) (hrep : OnHolder s op) (hop : CountersSafe s op) (hno : ∀ w, ¬Loses s op w)
    (he : Posted s op b e) : Tidy (b.act e) := by
  cases e with
  | turnAway => exact ⟨fun t => ⟨(h.exact t).queued, (h.exact t).running⟩, h.staged, h.off, h.flighted⟩
  | dismiss late => exact absurd hfresh he
  | again rec spec => exact absurd hfresh he.1
  | settle t =>
    obtain ⟨w, _, hl, _⟩ := he
    exact absurd hl (hno w)
  | move m =>
    obtain ⟨hu, hr⟩ := unqueued_of_onHolder hrep he.1 h.flighted
    have hen := he.1.1
    have hown := takesOwn_of_countersSafe h hop hu hno he
    have hcore : (b.act (.move m)).core = b.core.act m := b.move_core m
    refine ⟨ExactAt.act h.exact h.staged hen hown, ?_, ?_, ?_⟩
    · rw [hcore]
      exact h.staged.act hen
    · rw [hcore]
      exact h.off.act hen
    · rw [hcore]
      exact h.flighted.act hen hr

/-- The invariant while `w` is recovered. -/
structure Draining (w : WorkerId) (b : Book) : Prop where
  drained : ∀ t, DrainingAt w b t
  staged : Staged b.core
  off : QueuedOff b.core
  flighted : Flighted b.core

theorem Loses.unique {s : Impl} {op : Op} {w w' : WorkerId} (h : Loses s op w) (h' : Loses s op w') : w = w' := by
  cases h <;> cases h' <;> rfl

theorem Draining.act_drained {s : Impl} {op : Op} {w : WorkerId} {b : Book} {m : Move} (h : Draining w b)
    (hl : Loses s op w) (he : Posted s op b (.move m)) (t : TenantId) : DrainingAt w (b.act (.move m)) t := by
  obtain ⟨⟨hen, hdoes⟩, hback⟩ := he
  have hcore : (b.act (.move m)).core = b.core.act m := b.move_core m
  generalize hc : b.core = c at hdoes
  cases hdoes with
  | @recoverRetry op w' c rec boot hl' hin =>
    obtain rfl := hl.unique hl'
    subst hc
    exact (h.drained t).recover (.inl rfl) hen hen.1 (h.flighted.runs hin hen.1 hen.2.1).1 hin
  | @recoverFail op w' c rec boot hl' hin =>
    obtain rfl := hl.unique hl'
    subst hc
    exact (h.drained t).recover (.inr rfl) hen hen.1 (h.flighted.runs hin hen.1 hen.2.1).1 hin
  | @sweep op w' c hl' =>
    obtain rfl := hl.unique hl'
    refine (h.drained t).cleared (fun r rec hf hrun hx => ?_) rfl rfl fun r => ?_
    · have hend := hback r rec hx hf
      simp only [RequestRecord.inState, Bool.and_eq_true, beq_iff_eq] at hrun
      simp [hrun.2, isTerminal] at hend
    · exact hcore ▸ Core.not_inFlight_sweep
  | dropWorker =>
    cases hl
    refine (h.drained t).cleared (fun r _ _ _ => hc ▸ Core.not_inFlight_sweep) rfl rfl fun r => ?_
    exact hcore ▸ Core.not_inFlight_dropWorker
  | @reregister reg c hb =>
    cases hl
    have hno : ∀ r, ¬b.core.InFlight reg.worker r := fun r => hc ▸ Core.not_inFlight_sweep
    refine (h.drained t).cleared (fun r _ _ _ => hno r) rfl rfl fun r => ?_
    exact hcore ▸ Core.not_inFlight_setWorker hen (hno r)
  | register hb =>
    cases hl with
    | restart _ hb' =>
      rw [hb'] at hb
      cases hb
  | _ => cases hl

theorem Draining.act {s : Impl} {op : Op} {w : WorkerId} {b : Book} {e : Entry} (h : Draining w b)
    (hfresh : FreshSubmit s op) (hrep : OnHolder s op) (hl : Loses s op w) (he : Posted s op b e) :
    Draining w (b.act e) := by
  cases e with
  | turnAway =>
    obtain ⟨spec, pre, rfl⟩ := he
    cases hl
  | dismiss late => exact absurd hfresh he
  | again rec spec => exact absurd hfresh he.1
  | settle t =>
    obtain ⟨w', rec, hl', hf, hin, ht, rfl⟩ := he
    obtain rfl := hl.unique hl'
    have hs := (h.flighted.runs hin hf ht).1
    exact ⟨fun t => (h.drained t).settle hf hs hin, h.staged, h.off, h.flighted⟩
  | move m =>
    obtain ⟨_, hr⟩ := unqueued_of_onHolder hrep he.1 h.flighted
    have hcore : (b.act (.move m)).core = b.core.act m := b.move_core m
    refine ⟨h.act_drained hl he, ?_, ?_, ?_⟩
    · rw [hcore]
      exact h.staged.act he.1.1
    · rw [hcore]
      exact h.off.act he.1.1
    · rw [hcore]
      exact h.flighted.act he.1.1 hr

/-- The recovery of a worker that has all the running requests of a tenant in
flight, or none, starts with exact counters. -/
theorem LosesWhole.draining {s : Impl} {w : WorkerId} (hw : LosesWhole s w) (h : Tidy s.book) : Draining w s.book := by
  refine ⟨fun t => ⟨(h.exact t).queued, ?_⟩, h.staged, h.off, h.flighted⟩
  have hrun := (h.exact t).running
  by_cases hex : ∃ r rec, s.core.InFlight w r ∧ s.requests.find r = some rec ∧ rec.inState .running t = true
  · obtain ⟨r, rec, ⟨wr, hwr, hr⟩, hf, hst⟩ := hex
    simp only [RequestRecord.inState, Bool.and_eq_true, beq_iff_eq] at hst
    obtain ⟨rfl, hs⟩ := hst
    refine .all (by omega) hrun.le fun r' rec' hf' hst' => ⟨wr, hwr, ?_⟩
    have hid : rec'.requestId = r' := Keyed.key_of_find hf'
    have hmem := hw wr hwr r hr rec hf (by simp [RequestRecord.live, hs, isTerminal]) rec'
      (Keyed.mem_records.2 (Keyed.find_key hf')) hst'
    exact hid ▸ hmem
  · exact .none hrun fun r rec hf hst hin => hex ⟨r, rec, hin, hf, hst⟩

theorem step_tidy {s : Impl} {op : Op} (h : Tidy s.book) (hfresh : FreshSubmit s op) (hrep : OnHolder s op)
    (hop : CountersSafe s op) : Tidy (scheduler.next s op).book := by
  by_cases hlost : ∃ w, Loses s op w
  · obtain ⟨w, hl⟩ := hlost
    have hwhole : LosesWhole s w := by
      cases hl with
      | unregister => exact hop
      | restart reg hb => exact hop hb
    have hend := posts_invariant (I := Draining w) (fun _ _ he hb => hb.act hfresh hrep hl he) (hwhole.draining h)
    refine ⟨fun t => ?_, hend.staged, hend.off, hend.flighted⟩
    exact (hend.drained t).exact fun r _ _ _ => not_inFlight_of_loses hl r
  · have hno : ∀ w, ¬Loses s op w := fun w hw => hlost ⟨w, hw⟩
    exact posts_invariant (fun _ _ he hb => hb.act hfresh hrep hop hno he) h

/-- The counters of every tenant are the numbers of its queued and running
requests. -/
def TenantsExact (s : Impl) : Prop := ∀ t,
  (s.tenantOf t).queued = s.requests.count (RequestRecord.inState .queued t) ∧
    (s.tenantOf t).running = s.requests.count (RequestRecord.inState .running t)

/-- **Per-tenant counters.** In a run whose reports are about requests on the
reporting worker, and whose endings of attempts take off no counter the
request is not in, the counters are exact. -/
theorem tenant_counters_exact {cfg : SchedulerConfig} {now : ClockTime} {salt : UInt64}
    {epoch : Option SchedulerEpoch} {ops : List Op}
    (hok : scheduler.Allowed (fun s op => FreshSubmit s op ∧ OnHolder s op ∧ CountersSafe s op)
      (Impl.init cfg now salt epoch) ops) :
    TenantsExact (scheduler.run (Impl.init cfg now salt epoch) ops) := by
  have hinit : Tidy (Impl.init cfg now salt epoch).book := by
    refine ⟨fun t => ⟨rfl, rfl⟩, ?_, ?_, .init cfg now salt epoch⟩
    · simp [Staged, Impl.book, Impl.core, Impl.init]
    · simp [QueuedOff, Impl.book, Impl.core, Impl.init]
  have h := run_invariant (I := fun s => Tidy s.book) (fun s op hs h => step_tidy h hs.1 hs.2.1 hs.2.2) hinit hok
  exact fun t => ⟨(h.exact t).queued, (h.exact t).running⟩

/-- A request fails and is queued again while another of its tenant waits. -/
theorem tenant_counters_exact_retried :
    TenantsExact (scheduler.run (Impl.init {} 0 0x80000001 none) [.registerWorker (plainWorker 3),
      .submit plainSpec (some ⟨7⟩), .planDispatch ⟨7⟩ false, .confirmStart (firstReport 3 .failed),
      .submit plainSpec (some ⟨8⟩), .complete (firstReport 3 .failed), .unregisterWorker ⟨3⟩]) :=
  tenant_counters_exact (by decide +kernel)

/-- A request is cancelled between its reservation and its start while another
of its tenant waits: the one that waits is counted out. -/
theorem tenant_counters_drift :
    let ops : List Op := [.registerWorker (plainWorker 3), .submit plainSpec (some ⟨7⟩), .planDispatch ⟨7⟩ false,
      .submit plainSpec (some ⟨8⟩), .cancel ⟨7⟩ .clientRequested ""]
    scheduler.Allowed (fun s op => FreshSubmit s op ∧ OnHolder s op) (Impl.init {} 0 0x80000001 none) ops ∧
      ¬TenantsExact (scheduler.run (Impl.init {} 0 0x80000001 none) ops) := by
  intro ops
  refine ⟨by decide +kernel, fun h => ?_⟩
  exact absurd (h plainSpec.tenant).1 (by decide +kernel)

end InferenceScheduler
