/-
Every operation is a sequence of effects (`step_effects`), so of entries in the
books (`step_posts`), and which moves each operation makes (`Does`).

On the core alone an operation is a sequence of enabled moves (`step_leads`).
A submission under an id already in use is the one operation that is not: it
enqueues the record stored before (see `Resubmit`). Runs are taken with fresh
ids (`FreshSubmit`).
-/
import InferenceScheduler.Effects

namespace InferenceScheduler

open Machine

/-- A report matches a stored request: the attempt and the generation are the
current ones and the reporting worker is known under the reporting boot. -/
structure Matches (s : Impl) (r : CompletionReport) (rec : RequestRecord) : Prop where
  epoch : r.epoch.value = s.epochValue
  request : rec.requestId = r.requestId
  attempt : rec.currentAttempt = r.attemptId
  generation : rec.generation = r.generation
  worker : ∃ wr, s.pool.workers.find r.worker = some wr ∧ wr.registration.bootId = r.bootId

/-- The ending of an attempt a report asks for. -/
def Ending.Of (r : CompletionReport) : Ending → Prop
  | .success r' => r' = r ∧ r.status = .succeeded
  | .failed r' => r' = r ∧ (r.status = .failed ∨ r.status = .ambiguous)
  | .expired => r.status = .expired
  | .stale => r.status = .stale

/-- An operation at which the scheduler loses a worker: `recover_in_flight`
runs for it. -/
inductive Loses (s : Impl) : Op → WorkerId → Prop
  | unregister (w : WorkerId) : Loses s (.unregisterWorker w) w
  | restart (reg : WorkerRegistration) : s.bootChanged reg → Loses s (.registerWorker reg) reg.worker

/-- A request is in flight on a worker. -/
def Core.InFlight (c : Core) (w : WorkerId) (rid : RequestId) : Prop :=
  ∃ wr, c.pool.workers.find w = some wr ∧ rid ∈ wr.inFlight

/-- The worker and the members a plan reserves, in the state after its expiry
scan. -/
structure Planned (s : Impl) (request : RequestId) (wr : WorkerRecord) (members : List RequestId) : Prop where
  runnable : ∃ rec, s.requests.find request = some rec ∧ (rec.state = .queued ∨ rec.state = .admitted)
  formed : members = s.planMembers request s.now
  chosen : s.pool.workers.find (s.selectWorker members (s.batchCost members) s.now).1 = some wr
  valid : wr.id.valid
  fits : ¬(wr.registration.capability.totalCapacityUnits > 0 ∧ s.batchUnits members > wr.avail)

/-- The moves an operation of `s` makes, and the states it makes them in. -/
inductive Does (s : Impl) : Op → Core → Move → Prop
  | draw {spec pre c} : Does s (.submit spec pre) c .draw
  | refuse {spec pre c rec} : Does s (.submit spec pre) c (.refuse rec)
  | accept {spec pre c rid} : Does s (.submit spec pre) c (.accept spec rid)
  | planExpire {request ex c rec} : Does s (.planDispatch request ex) c (.expire rec)
  | reserve {request ex wr members} : Planned (s.expireScan s.now) request wr members →
      Does s (.planDispatch request ex) (s.expireScan s.now).core (.reserve wr members)
  | seedExpire {c rec} : Does s .planNextSeed c (.expire rec)
  | pop {c k n} : Does s .planNextSeed c (.pop k n)
  | sleep {c k} : Does s .planNextSeed c (.sleep k)
  | start {r rec wr} : Matches s r rec → wr.id = r.worker →
      Does s (.confirmStart r) s.core (.start rec wr r.workerSnapshot)
  | finish {r rec e} : Matches s r rec → Ending.Of r e → Does s (.complete r) s.core (.finish rec r.worker e)
  | finishCancelled {r rec reason} : Matches s r rec →
      Does s (.complete r) s.core (.cancel rec rec.cancelReason r.worker reason)
  | retry {r rec} : Matches s r rec → Does s (.complete r) s.core (.retry rec r)
  | cancel {req reason detail rec text} : rec.requestId = req → rec.state ≠ .dispatched → rec.state ≠ .running →
      Does s (.cancel req reason detail) s.core
        (.cancel rec reason (if rec.state = .reserved then rec.lastWorker else .invalid) text)
  | flag {req reason detail rec} : rec.requestId = req →
      Does s (.cancel req reason detail) s.core (.flag rec reason)
  | cancelQueued {detail c rec reason} : rec.requestId ∈ c.ready.queued →
      Does s (.cancelAllQueued detail) c (.cancel rec .schedulerDrain .invalid reason)
  | recoverRetry {op w c rec boot} : Loses s op w → c.InFlight w rec.requestId →
      Does s op c (.retry rec (Impl.restartReport w boot rec))
  | recoverFail {op w c rec boot} : Loses s op w → c.InFlight w rec.requestId →
      Does s op c (.finish rec w (.failed (Impl.restartReport w boot rec)))
  | sweep {op w c} : Loses s op w → Does s op c (.sweep w)
  | dropWorker {w} {c : Core} : Does s (.unregisterWorker w) (c.act (.sweep w)) (.dropWorker w)
  | reregister {reg} {c : Core} : s.bootChanged reg → Does s (.registerWorker reg) (c.act (.sweep reg.worker))
      (.setWorker (Impl.registered (((c.act (.sweep reg.worker)).pool.workers.find reg.worker).getD {}) reg))
  | register {reg} : s.bootChanged reg = false → Does s (.registerWorker reg) s.core
      (.setWorker (Impl.registered ((s.pool.workers.find reg.worker).getD {}) reg))
  | capability {w cap wr} : s.pool.workers.find w = some wr →
      Does s (.updateCapability w cap) s.core (.setWorker (Impl.withCapability wr cap))
  | workerState {w state snap wr} : s.pool.workers.find w = some wr →
      Does s (.setWorkerState w state snap) s.core
        (.setWorker { wr with state := state, resource := snap.getD wr.resource })
  | advance {n} : Does s (.advance n) s.core (.advance n)

/-- Admissible moves of an operation. -/
def Step (s : Impl) (op : Op) (c : Core) (m : Move) : Prop := Enabled c m ∧ Does s op c m

/-- A submission under a given id is under one not in use. -/
def FreshSubmit (s : Impl) : Op → Prop
  | .submit _ pre => s.requests.find (pre.getD s.idFactory.peek) = none
  | _ => True

instance (s : Impl) (op : Op) : Decidable (FreshSubmit s op) := by
  apply @Op.casesOn _ op <;> (intros; dsimp only [FreshSubmit]; infer_instance)

/-- The scheduler once a submission has its id. -/
def Impl.named (s : Impl) : Option RequestId → Impl
  | none => s.drawId
  | some _ => s

/-- What else holds when an operation makes a move: a submission is accepted
on the decision of `make_admission`, and what is turned down is what was
submitted; what expires is overdue; a report or a cancel makes its one move on the books as they were, a
report asks for the cancellation or the retry it leads to, and a worker is swept
once its requests in flight are dealt with. -/
def Backed (s : Impl) (op : Op) (b : Book) : Move → Prop
  | .refuse rec => (∃ pre, op = .submit rec.spec pre) ∧ (rec.state = .expired ∨ rec.state = .rejected)
  | .accept spec _ => validateSpec spec = .ok () ∧ (s.makeAdmission spec s.now).1 = .admitted ∧
      ∃ pre, op = .submit spec pre ∧ b = (s.named pre).book
  | .expire rec => (rec.spec.deadline.valid && rec.spec.deadline.expired s.now) = true
  | .finish _ _ _ => ∀ r, op = .complete r → b = s.book
  | .cancel rec _ _ _ => (∀ r, op = .complete r → b = s.book ∧
      (r.status = .cancelled ∨ r.status = .succeeded ∧ rec.cancellationRequested = true)) ∧
      ∀ req reason detail, op = .cancel req reason detail → b = s.book
  | .retry _ _ => ∀ r, op = .complete r → b = s.book ∧
      (r.status = .failed ∨ r.status = .ambiguous) ∧ Impl.retryable s.cfg r = true
  | .sweep w => ∀ rid rec, b.core.InFlight w rid → b.core.requests.find rid = some rec → isTerminal rec.state = true
  | _ => True

/-- The entries an operation of `s` posts, and the books it posts them to. -/
def Posted (s : Impl) (op : Op) (b : Book) : Entry → Prop
  | .move m => Step s op b.core m ∧ Backed s op b m
  | .turnAway => ∃ spec pre, op = .submit spec pre
  | .dismiss _ => ¬FreshSubmit s op
  | .again rec spec => ¬FreshSubmit s op ∧ b.core.Holds rec ∧ ∃ pre, op = .submit spec pre
  | .settle t => ∃ w rec, Loses s op w ∧ b.core.Holds rec ∧ b.core.InFlight w rec.requestId ∧
      isTerminal rec.state = false ∧ rec.spec.tenant = t

/-- The effects of an operation of `s`. -/
def Effected (s : Impl) (op : Op) (a : Account) : Deed → Prop
  | .post e notes => Posted s op a.book e ∧ Voiced a.book.core notes e
  | .drain n => (∃ reason, op = .beginDrain reason) ∧ n.type = "drain_started"
  | .roll n => op = .rollEpoch ∧ n.type = "epoch_rollover"

theorem accounts_move_core (a : Account) (m : Move) (notes : List Note) :
    (accounts.next a (.post (.move m) notes)).book.core = a.book.core.act m :=
  (congrArg Book.core (a.act_post_book (.move m) notes)).trans (a.book.move_core m)

/-- On the core, effects that are moves. -/
theorem leads_of_effects {Q : Account → Deed → Prop} {P : Core → Move → Prop} {a a' : Account}
    (hQ : ∀ a f, Q a f → ∃ m notes, f = .post (.move m) notes ∧ P a.book.core m) (h : accounts.Leads Q a a') :
    moves.Leads P a.book.core a'.book.core := by
  refine h.map (v := fun a => a.book.core) fun a f hf => ?_
  obtain ⟨m, notes, rfl, hm⟩ := hQ a f hf
  rw [accounts_move_core]
  exact leads_act hm

namespace Impl

theorem Enters.leads {Q : Account → Deed → Prop} {s t : Impl} {e : Entry} (h : s.Enters e t)
    (hQ : ∀ notes, Voiced s.core notes e → Q s.account (.post e notes)) : accounts.Leads Q s.account t.account := by
  obtain ⟨notes, hvoiced, hacc⟩ := h
  rw [hacc]
  exact leads_effect (hQ notes hvoiced)

theorem Enters.effected {s₀ s t : Impl} {op : Op} {e : Entry} (h : s.Enters e t) (hposted : Posted s₀ op s.book e) :
    accounts.Leads (Effected s₀ op) s.account t.account :=
  h.leads fun _ hvoiced => ⟨hposted, hvoiced⟩

/-! ## Expiry and the choice of the seed -/

/-- An overdue request expires. -/
def Expiring (now : ClockTime) (a : Account) (f : Deed) : Prop :=
  ∃ rec notes, f = .post (.move (.expire rec)) notes ∧ Enabled a.book.core (.expire rec) ∧
    (rec.spec.deadline.valid && rec.spec.deadline.expired now) = true ∧
    Voiced a.book.core notes (.move (.expire rec))

theorem Expiring.effected {s : Impl} {op : Op} (hdoes : ∀ c rec, Does s op c (.expire rec)) (a : Account) (f : Deed)
    (h : Expiring s.now a f) : Effected s op a f := by
  obtain ⟨rec, notes, rfl, hen, hlate, hvoiced⟩ := h
  exact ⟨⟨⟨hen, hdoes _ rec⟩, hlate⟩, hvoiced⟩

/-- What the expiry of overdue requests keeps. -/
theorem Expiring.invariant {now : ClockTime} {I : Core → Prop} {a a' : Account}
    (hstep : ∀ c rec, Enabled c (.expire rec) → (rec.spec.deadline.valid && rec.spec.deadline.expired now) = true →
      I c → I (c.act (.expire rec))) (h : accounts.Leads (Expiring now) a a') (ha : I a.book.core) : I a'.book.core := by
  refine h.invariant (I := fun a => I a.book.core) (fun a f hf ha => ?_) ha
  obtain ⟨rec, notes, rfl, hen, hlate, _⟩ := hf
  rw [accounts_move_core]
  exact hstep _ rec hen hlate ha

/-- A request whose deadline has passed at `now`, if there is one. -/
def Late (s : Impl) (now : ClockTime) (id : RequestId) : Prop :=
  ∀ rec, s.requests.find id = some rec → (rec.spec.deadline.valid && rec.spec.deadline.expired now) = true

theorem expireRequest_effects {s : Impl} {now : ClockTime} {rec : RequestRecord} (h : s.core.Holds rec)
    (hlate : (rec.spec.deadline.valid && rec.spec.deadline.expired now) = true) :
    accounts.Leads (Expiring now) s.account (s.expireRequest rec).account := by
  by_cases hq : rec.state = .queued
  · exact (expireRequest_enters hq).leads fun notes hvoiced => ⟨rec, notes, rfl, ⟨h, hq⟩, hlate, hvoiced⟩
  · rw [expireRequest, if_pos hq]
    exact .refl _

theorem expireId_effects {now : ClockTime} (s : Impl) (id : RequestId) (h : s.Late now id) :
    accounts.Leads (Expiring now) s.account (s.expireId id).account ∧
      ∀ j, j ≠ id → s.Late now j → (s.expireId id).Late now j := by
  unfold expireId
  split
  · exact ⟨.refl _, fun _ _ hj => hj⟩
  next rec hf =>
  refine ⟨expireRequest_effects (Keyed.find_key hf) (h rec hf), fun j hne hj => ?_⟩
  by_cases hq : rec.state = .queued
  · have hid : rec.requestId = id := Keyed.key_of_find hf
    have hreq : (s.expireRequest rec).requests = s.requests.put rec.expire :=
      congrArg Core.requests (expireRequest_enters hq).core
    rw [Late, hreq, Keyed.find_put_ne s.requests (v := rec.expire) fun he => hne (he.symm.trans hid)]
    exact hj
  · rw [expireRequest, if_pos hq]
    exact hj

theorem foldl_expireId_effects {now : ClockTime} (s : Impl) {ids : List RequestId} (hnodup : ids.Nodup)
    (h : ∀ id ∈ ids, s.Late now id) : accounts.Leads (Expiring now) s.account (ids.foldl expireId s).account :=
  Leads.foldl (P := fun id (a : Account) => ∀ rec, a.book.core.requests.find id = some rec →
    (rec.spec.deadline.valid && rec.spec.deadline.expired now) = true) expireId_effects ids s hnodup h

theorem expireScan_effects (s : Impl) (now : ClockTime) :
    accounts.Leads (Expiring now) s.account (s.expireScan now).account := by
  refine foldl_expireId_effects s (s.ready.queued.nodup.filter _) fun id hid rec hf => ?_
  have hover := (List.mem_filter.1 hid).2
  simp only [overdue, hf, Bool.and_eq_true] at hover
  simp only [hover.1.2, hover.2, Bool.and_self]

theorem expireScan_leads {P : Core → Move → Prop} (s : Impl) (now : ClockTime)
    (hok : ∀ c rec, Enabled c (.expire rec) → P c (.expire rec)) :
    moves.Leads P s.core (s.expireScan now).core := by
  refine leads_of_effects (fun a f hf => ?_) (expireScan_effects s now)
  obtain ⟨rec, notes, rfl, hen, _⟩ := hf
  exact ⟨.expire rec, notes, rfl, hok _ rec hen⟩

theorem expireRequest_flows (s : Impl) (rec : RequestRecord) :
    (s.expireRequest rec).ready.flows = s.ready.flows := by
  unfold expireRequest
  split
  · rfl
  · simp only
    split <;> rfl

/-- Expiring a request revives no entry. -/
theorem dead_expireRequest {s : Impl} {rec : RequestRecord} {e : ReadyEntry} (h : s.core.Dead e) :
    (s.expireRequest rec).core.Dead e := by
  have hput : ({ s.core with ready := s.core.ready.dequeue s.core.cfg rec }.put rec.expire).Dead e := by
    intro rec' hf
    simp only [Core.put, Ready.dequeue, USet.mem_erase]
    by_cases hid : rec.requestId = e.id
    · exact .inl fun hm => hm.1 hid.symm
    · have hf' : s.core.requests.find e.id = some rec' := by
        rw [← Keyed.find_put_ne s.core.requests (v := rec.expire) hid]
        exact hf
      rcases h rec' hf' with hq | hg
      · exact .inl fun hm => hq hm.2
      · exact .inr hg
  unfold expireRequest
  split
  · exact h
  · simp only
    split <;> exact hput

theorem state_of_expireRequest {s : Impl} {rec rec' : RequestRecord} (h : s.core.Holds rec)
    (hf : (s.expireRequest rec).requests.find rec.requestId = some rec') : rec'.state ≠ .queued := by
  have hput : (s.requests.put rec.expire).find rec.requestId = some rec' → rec'.state ≠ .queued := by
    intro hf
    obtain rfl : rec.expire = rec' :=
      Option.some.inj ((Keyed.find_put_self s.requests rec.expire).symm.trans hf)
    simp [RequestRecord.expire]
  unfold expireRequest at hf
  split at hf
  · next hq =>
    obtain rfl : rec = rec' := Option.some.inj (h.symm.trans hf)
    exact hq
  · simp only at hf
    split at hf <;> exact hput hf

theorem dead_popDead {now : ClockTime} {e : ReadyEntry} : ∀ (es : List ReadyEntry) (s : Impl), s.core.Dead e →
    (popDead now es s).2.core.Dead e
  | [], s, h => h
  | e' :: es, s, h => by
    unfold popDead
    split
    · exact dead_popDead es s h
    · split
      · exact dead_popDead es s h
      · split
        · exact dead_popDead es _ (dead_expireRequest h)
        · exact h

theorem popDead_flows {now : ClockTime} : ∀ (es : List ReadyEntry) (s : Impl),
    (popDead now es s).2.ready.flows = s.ready.flows
  | [], _ => rfl
  | e :: es, s => by
    unfold popDead
    split
    · exact popDead_flows es s
    · next r _ =>
      split
      · exact popDead_flows es s
      · split
        · exact (popDead_flows es _).trans (expireRequest_flows s r)
        · rfl

/-- The entries `pick_seed` pops are dead when it is done with the flow: they
were dead before, or their request has just expired. -/
theorem popDead_dead {now : ClockTime} : ∀ (es : List ReadyEntry) (s : Impl),
    ∀ e ∈ es.take (popDead now es s).1, (popDead now es s).2.core.Dead e
  | [], _ => by simp
  | e :: es, s => by
    unfold popDead
    split
    · next hf =>
      simp only [List.take_succ_cons, List.forall_mem_cons]
      refine ⟨dead_popDead es s fun rec h => ?_, popDead_dead es s⟩
      exact absurd (hf.symm.trans h) (by simp)
    · next r hf =>
      split
      · next hd =>
        simp only [List.take_succ_cons, List.forall_mem_cons]
        refine ⟨dead_popDead es s fun rec h => ?_, popDead_dead es s⟩
        obtain rfl : r = rec := Option.some.inj (hf.symm.trans h)
        exact hd.imp_right .inl
      · split
        · simp only [List.take_succ_cons, List.forall_mem_cons]
          refine ⟨dead_popDead es _ fun rec h => .inr (.inr ?_), popDead_dead es _⟩
          rw [← Keyed.key_of_find hf] at h
          exact state_of_expireRequest (Keyed.find_key hf) h
        · simp

theorem popDead_effects {now : ClockTime} : ∀ (es : List ReadyEntry) (s : Impl),
    accounts.Leads (Expiring now) s.account (popDead now es s).2.account
  | [], s => .refl _
  | e :: es, s => by
    unfold popDead
    split
    · exact popDead_effects es s
    · next r hf =>
      split
      · exact popDead_effects es s
      · split
        · next hlate => exact (expireRequest_effects (Keyed.find_key hf) hlate).trans (popDead_effects es _)
        · exact .refl _

theorem pickStep_effects (s₀ : Impl) (acc : Impl × Option (FlowKey × ℚ)) (k : FlowKey) :
    accounts.Leads (Effected s₀ .planNextSeed) acc.1.account (pickStep s₀.now acc k).1.account := by
  obtain ⟨s, best⟩ := acc
  have hflow : (popDead s₀.now (s.ready.flow k).pending.entries s).2.ready.flow k = s.ready.flow k := by
    simp only [Ready.flow, popDead_flows]
  set popped := popDead s₀.now (s.ready.flow k).pending.entries s with hpopped
  have hdead : ∀ e ∈ (popped.2.ready.flow k).pending.entries.take popped.1, popped.2.core.Dead e := by
    rw [hflow, hpopped]
    exact popDead_dead _ s
  set pruned := popped.2.setFlow k { s.ready.flow k with pending := (s.ready.flow k).pending.popN popped.1 } with hpruned
  have henters : popped.2.Enters (.move (.pop k popped.1)) pruned := by
    refine .silent ?_ rfl rfl
    rw [hpruned, ← hflow]
    rfl
  have hpop : accounts.Leads (Effected s₀ .planNextSeed) s.account pruned.account :=
    ((popDead_effects _ s).imp (Expiring.effected fun _ _ => .seedExpire)).trans
      (henters.effected ⟨⟨hdead, .pop⟩, trivial⟩)
  unfold pickStep
  simp only [← hpopped, ← hpruned]
  split
  · next htop =>
    have hsleep : pruned.Enters (.move (.sleep k)) (pruned.deactivate k) := .silent rfl rfl rfl
    refine hpop.trans (hsleep.effected ⟨⟨?_, .sleep⟩, trivial⟩)
    simp only [Enabled, Ready.flow, hpruned, setFlow, book, core, AList.lookup_insert, Option.getD_some]
    exact List.head?_eq_none_iff.1 htop
  · split
    · exact hpop
    · split <;> exact hpop

theorem planNextSeed_effects (s : Impl) :
    accounts.Leads (Effected s .planNextSeed) s.account s.planNextSeed.1.account := by
  refine ((expireScan_effects s s.now).imp (Expiring.effected fun _ _ => .seedExpire)).trans ?_
  have hloop := Leads.foldl (P := fun _ _ => True) (v := fun acc => acc.1.account)
    (fun acc k _ => ⟨pickStep_effects s acc k, fun _ _ _ => trivial⟩)
    ((s.expireScan s.now).ready.activeFlows.elems.insertionSort FlowKey.le) (s.expireScan s.now, none)
    ((List.perm_insertionSort _ _).nodup_iff.2 (s.expireScan s.now).ready.activeFlows.nodup) (fun _ _ => trivial)
  unfold planNextSeed pickSeed
  simp only
  split <;> exact hloop

/-! ## Planning -/

theorem fillBatch_eq (s : Impl) (maxb : ℤ) (ids result : List RequestId) (tok : ℤ) :
    ∃ l, l.Sublist ids ∧ s.fillBatch maxb ids result tok = result ++ l := by
  obtain ⟨n, _, heq, _⟩ := s.fillBatch_take maxb ids result tok
  exact ⟨ids.take n, List.take_sublist n ids, heq⟩

theorem candidate_queued {s : Impl} {seed id : RequestId} {now : ClockTime} (h : s.candidate seed now id) :
    id ≠ seed ∧ ∃ rec, s.requests.find id = some rec ∧ rec.state = .queued := by
  simp only [candidate, Bool.and_eq_true, bne_iff_ne] at h
  refine ⟨h.1.1, ?_⟩
  obtain ⟨_, hm⟩ := h
  split at hm
  · simp at hm
  · next c hc => exact ⟨c, hc, by simp only [Bool.and_eq_true, beq_iff_eq] at hm; exact hm.1⟩

/-- A batch is its seed and further queued requests, each once. -/
theorem nodup_candidates (s : Impl) (seed : RequestId) (spec : RequestSpec) (now : ClockTime) :
    (s.candidates seed spec now).Nodup :=
  (List.perm_insertionSort _ _).nodup_iff.2 ((s.ready.bucket _).nodup.filter _)

theorem formBatch_members {s : Impl} {rec : RequestRecord} (now : ClockTime) (h : s.core.Holds rec) :
    ∃ l, s.formBatch rec.requestId now = rec.requestId :: l ∧ (rec.requestId :: l).Nodup ∧
      ∀ id ∈ l, ∃ m, s.requests.find id = some m ∧ m.state = .queued := by
  have hf : s.requests.find rec.requestId = some rec := h
  obtain ⟨l, hl, he⟩ := fillBatch_eq s (batchLimit s.cfg rec.spec) (s.candidates rec.requestId rec.spec now)
    [rec.requestId] rec.spec.tokens.total
  have hcand : ∀ id ∈ s.candidates rec.requestId rec.spec now, s.candidate rec.requestId now id := by
    intro id hid
    simp only [candidates, List.mem_insertionSort, List.mem_filter] at hid
    exact hid.2
  have hnodup := s.nodup_candidates rec.requestId rec.spec now
  refine ⟨l, by simp [formBatch, hf, he], List.nodup_cons.2 ⟨fun hm => ?_, hnodup.sublist hl⟩, fun id hid => ?_⟩
  · exact (candidate_queued (hcand _ (hl.subset hm))).1 rfl
  · exact (candidate_queued (hcand _ (hl.subset hid))).2

theorem expireScan_now (s : Impl) (now : ClockTime) : (s.expireScan now).now = s.now :=
  Expiring.invariant (I := fun c => c.now = s.now) (fun _ _ _ _ h => h) (expireScan_effects s now) rfl

/-- A batch formed around a runnable request can be reserved. -/
theorem planMembers_runnable {s : Impl} {rec : RequestRecord} (now : ClockTime) (h : s.core.Holds rec)
    (hs : rec.state = .queued ∨ rec.state = .admitted) :
    (s.planMembers rec.requestId now).Nodup ∧ s.planMembers rec.requestId now ≠ [] ∧
      rec.requestId ∈ s.planMembers rec.requestId now ∧
      ∀ id ∈ s.planMembers rec.requestId now,
        ∃ m, s.requests.find id = some m ∧ (m.state = .queued ∨ m.state = .admitted) := by
  obtain ⟨l, he, hnodup, hl⟩ := formBatch_members now h
  have hp : s.planMembers rec.requestId now = rec.requestId :: l := by simp [planMembers, he]
  rw [hp]
  refine ⟨hnodup, by simp, List.mem_cons_self, fun id hid => ?_⟩
  rcases List.mem_cons.1 hid with rfl | hid
  · exact ⟨rec, h, hs⟩
  · obtain ⟨m, hm, hq⟩ := hl id hid
    exact ⟨m, hm, .inl hq⟩

end Impl

/-- A plan from `s`, the state after its expiry scan, reserved a batch. -/
structure Dispatched (s s' : Impl) (request : RequestId) (wr : WorkerRecord) (out : DispatchOutcome) : Prop where
  planned : Planned s request wr out.batchMembers
  enabled : Enabled s.core (.reserve wr out.batchMembers)
  core : s'.core = s.core.act (.reserve wr out.batchMembers)
  seed : request ∈ out.batchMembers
  decision : out.decision = .dispatch
  worker : out.workerId = wr.id
  batch : out.batchId = s.idFactory.peek

namespace Impl

theorem planRunnable_cases (s : Impl) {rec : RequestRecord} (ex : Bool) (h : s.core.Holds rec)
    (hs : rec.state = .queued ∨ rec.state = .admitted) :
    (s.planRunnable rec s.now ex).1 = s ∧ (s.planRunnable rec s.now ex).2.decision ≠ .dispatch ∨
      ∃ wr, Dispatched s (s.planRunnable rec s.now ex).1 rec.requestId wr (s.planRunnable rec s.now ex).2 ∧
        s.Enters (.move (.reserve wr (s.planRunnable rec s.now ex).2.batchMembers)) (s.planRunnable rec s.now ex).1 := by
  obtain ⟨hnodup, hne, hseed, hrun⟩ := planMembers_runnable s.now h hs
  unfold planRunnable
  simp only
  split
  · exact .inl ⟨rfl, by simp⟩
  · next hv =>
    simp only [Bool.not_eq_eq_eq_not, Bool.not_true, Bool.not_eq_false] at hv
    split
    · exact .inl ⟨rfl, by simp⟩
    · next wr hwr =>
      split
      · exact .inl ⟨rfl, by simp⟩
      · next hfit =>
        have hid := Keyed.key_of_find hwr
        have henters := s.reserveBatch_enters wr hnodup fun id hid => by
          obtain ⟨m, hm, _⟩ := hrun id hid
          exact Option.isSome_iff_exists.2 ⟨m, hm⟩
        exact .inr ⟨wr,
          { planned := ⟨⟨rec, h, hs⟩, rfl, hwr, hid ▸ hv, hfit⟩
            enabled := ⟨hnodup, hne, Keyed.find_key hwr, hid ▸ hv, hrun⟩
            core := henters.core
            seed := hseed
            decision := rfl
            worker := hid.symm
            batch := rfl }, henters⟩

/-- A plan expires overdue requests and then, if it answers `Dispatch`,
reserves a batch. -/
theorem doPlanDispatch_effects_cases (s : Impl) (request : RequestId) (ex : Bool) :
    accounts.Leads (Expiring s.now) s.account (s.doPlanDispatch request ex).1.account ∧
        (∀ out, (s.doPlanDispatch request ex).2 = .ok out → out.decision ≠ .dispatch) ∨
      ∃ wr out, (s.doPlanDispatch request ex).2 = .ok out ∧
        Dispatched (s.expireScan s.now) (s.doPlanDispatch request ex).1 request wr out ∧
        (s.expireScan s.now).Enters (.move (.reserve wr out.batchMembers)) (s.doPlanDispatch request ex).1 := by
  have hscan := expireScan_effects s s.now
  have hnow := expireScan_now s s.now
  unfold doPlanDispatch
  simp only
  split
  · exact .inl ⟨hscan, by simp⟩
  · next rec hf =>
    have hrec : (s.expireScan s.now).core.Holds rec := Keyed.find_key hf
    split
    · next hlate =>
      refine .inl ⟨hscan.trans (expireRequest_effects hrec hlate), ?_⟩
      rintro _ ⟨⟩
      simp
    · split
      · refine .inl ⟨hscan, ?_⟩
        rintro _ ⟨⟩
        simp
      · next hs =>
        have hplan := planRunnable_cases (s.expireScan s.now) ex hrec (by tauto)
        rw [hnow, show rec.requestId = request from Keyed.key_of_find hf] at hplan
        rcases hplan with ⟨h₁, h₂⟩ | ⟨wr, hd⟩
        · refine .inl ⟨?_, ?_⟩
          · simpa only [h₁] using hscan
          · rintro _ ⟨⟩
            exact h₂
        · exact .inr ⟨wr, _, rfl, hd⟩

theorem doPlanDispatch_cases {P : Core → Move → Prop} (s : Impl) (request : RequestId) (ex : Bool)
    (hok : ∀ c rec, Enabled c (.expire rec) → P c (.expire rec)) :
    moves.Leads P s.core (s.doPlanDispatch request ex).1.core ∧
        (∀ out, (s.doPlanDispatch request ex).2 = .ok out → out.decision ≠ .dispatch) ∨
      ∃ wr out, (s.doPlanDispatch request ex).2 = .ok out ∧
        Dispatched (s.expireScan s.now) (s.doPlanDispatch request ex).1 request wr out := by
  rcases doPlanDispatch_effects_cases s request ex with ⟨hlead, hno⟩ | ⟨wr, out, hout, hd, _⟩
  · refine .inl ⟨leads_of_effects (fun a f hf => ?_) hlead, hno⟩
    obtain ⟨rec, notes, rfl, hen, _⟩ := hf
    exact ⟨.expire rec, notes, rfl, hok _ rec hen⟩
  · exact .inr ⟨wr, out, hout, hd⟩

theorem doPlanDispatch_effects (s : Impl) (request : RequestId) (ex : Bool) :
    accounts.Leads (Effected s (.planDispatch request ex)) s.account (s.doPlanDispatch request ex).1.account := by
  rcases doPlanDispatch_effects_cases s request ex with h | ⟨wr, out, _, hd, henters⟩
  · exact h.1.imp (Expiring.effected fun _ _ => .planExpire)
  · exact ((expireScan_effects s s.now).imp (Expiring.effected fun _ _ => .planExpire)).trans
      (henters.effected ⟨⟨hd.enabled, .reserve hd.planned⟩, trivial⟩)

/-! ## Submission -/

section submission

variable {s : Impl} {spec : RequestSpec} {pre : Option RequestId}

/-- The id a submission is under is not in use, or the submission is not
fresh. -/
theorem not_freshSubmit {old : RequestRecord} (h : s.requests.find (pre.getD s.idFactory.peek) = some old) :
    ¬FreshSubmit s (.submit spec pre) := by
  intro hfresh
  rw [FreshSubmit, h] at hfresh
  cases hfresh

/-- The id drawn changes nothing else. -/
theorem named_frame (s : Impl) (pre : Option RequestId) :
    (s.named pre).requests = s.requests ∧ (s.named pre).now = s.now ∧
      ∀ spec, (s.named pre).makeAdmission spec (s.named pre).now = s.makeAdmission spec s.now := by
  cases pre with
  | none => exact ⟨rfl, rfl, fun _ => rfl⟩
  | some rid => exact ⟨rfl, rfl, fun _ => rfl⟩

theorem admitAs_effects (reason : String) (hv : validateSpec spec = .ok ())
    (hadm : (s.makeAdmission spec s.now).1 = .admitted) :
    accounts.Leads (Effected s (.submit spec pre)) (s.named pre).account
      ((s.named pre).admitAs spec (pre.getD s.idFactory.peek) reason).1.account := by
  obtain ⟨hreq, hnow, _⟩ := s.named_frame pre
  cases hl : spec.deadline.valid && spec.deadline.expired (s.named pre).now with
  | true =>
    -- Admitted after its deadline: an id is drawn for the record's generation.
    refine ((s.named pre).drawId_enters.effected ⟨⟨trivial, .draw⟩, trivial⟩).trans ?_
    cases h : (s.named pre).requests.find (pre.getD s.idFactory.peek) with
    | none => exact (admitAs_late_enters reason hl h).effected ⟨⟨⟨h, rfl, rfl, rfl, rfl⟩, .refuse⟩, ⟨pre, rfl⟩, .inl rfl⟩
    | some old => exact (admitAs_late_enters_again reason hl h).effected (not_freshSubmit (hreq ▸ h))
  | false =>
    cases h : (s.named pre).requests.find (pre.getD s.idFactory.peek) with
    | none => exact (admitAs_enters reason hl h).effected ⟨⟨h, .accept⟩, hv, hadm, pre, rfl, rfl⟩
    | some old =>
      exact (admitAs_enters_again reason hl h).effected ⟨not_freshSubmit (hreq ▸ h), Keyed.find_key h, pre, rfl⟩

theorem reject_effects (reason : String) :
    accounts.Leads (Effected s (.submit spec pre)) (s.named pre).account
      ((s.named pre).reject spec (pre.getD s.idFactory.peek) reason).1.account := by
  obtain ⟨hreq, _, _⟩ := s.named_frame pre
  refine ((s.named pre).drawId_enters.effected ⟨⟨trivial, .draw⟩, trivial⟩).trans ?_
  cases h : (s.named pre).requests.find (pre.getD s.idFactory.peek) with
  | none => exact (reject_enters reason h).effected ⟨⟨⟨h, rfl, rfl, rfl, rfl⟩, .refuse⟩, ⟨pre, rfl⟩, .inr rfl⟩
  | some old => exact (reject_enters_again reason h).effected (not_freshSubmit (hreq ▸ h))

/-- A valid submission, once it has its id. -/
theorem doSubmit_of_valid (s : Impl) {spec : RequestSpec} (pre : Option RequestId) (hv : validateSpec spec = .ok ()) :
    s.doSubmit spec pre = (((s.named pre).submitAs spec (pre.getD s.idFactory.peek)).1,
      .ok ((s.named pre).submitAs spec (pre.getD s.idFactory.peek)).2) := by
  cases pre <;> simp only [doSubmit, hv] <;> rfl

theorem doSubmit_effects (s : Impl) (spec : RequestSpec) (pre : Option RequestId) :
    accounts.Leads (Effected s (.submit spec pre)) s.account (s.doSubmit spec pre).1.account := by
  cases hv : validateSpec spec with
  | error e =>
    simp only [doSubmit, hv]
    exact .refl _
  | ok u =>
    have hnamed : accounts.Leads (Effected s (.submit spec pre)) s.account (s.named pre).account := by
      cases pre with
      | none => exact s.drawId_enters.effected ⟨⟨trivial, .draw⟩, trivial⟩
      | some rid => exact .refl _
    rw [s.doSubmit_of_valid pre hv]
    refine hnamed.trans ?_
    unfold submitAs
    rw [(s.named_frame pre).2.2 spec]
    split
    · next reason hadm => exact admitAs_effects reason hv (congrArg Prod.fst hadm)
    · next reason _ =>
      have hdefer : (s.named pre).Enters .turnAway ((s.named pre).defer reason).1 := .silent rfl rfl rfl
      exact hdefer.effected ⟨spec, pre, rfl⟩
    · exact reject_effects _

end submission

/-! ## Reports -/

theorem doConfirmStart_cases (s : Impl) (r : CompletionReport) :
    (s.doConfirmStart r).1 = s ∧ (s.doConfirmStart r).2 ≠ .ok () ∨
      ∃ rec wr, Matches s r rec ∧ wr.id = r.worker ∧ Enabled s.core (.start rec wr r.workerSnapshot) ∧
        s.Enters (.move (.start rec wr r.workerSnapshot)) (s.doConfirmStart r).1 ∧ (s.doConfirmStart r).2 = .ok () := by
  unfold doConfirmStart
  split
  · exact .inl ⟨rfl, by simp⟩
  next hepoch =>
  split
  · exact .inl ⟨rfl, by simp⟩
  next rec hf =>
  split
  · exact .inl ⟨rfl, by simp⟩
  next hatt =>
  split
  · exact .inl ⟨rfl, by simp⟩
  next hstate =>
  split
  · exact .inl ⟨rfl, by simp⟩
  next wr hwr =>
  split
  · exact .inl ⟨rfl, by simp⟩
  next hboot =>
  split
  · exact .inl ⟨rfl, by simp⟩
  split
  · exact .inl ⟨rfl, by simp⟩
  next hbatch =>
  have hid : wr.id = r.worker := Keyed.key_of_find hwr
  simp only [ne_eq, not_or, not_not] at hepoch hatt hstate hboot
  refine .inr ⟨rec, wr, ⟨hepoch, Keyed.key_of_find hf, hatt.1, hatt.2, wr, hwr, hboot⟩, hid, ?_, ?_, rfl⟩
  · exact ⟨Keyed.find_key hf, hstate, Keyed.find_key hwr, by simpa using hbatch⟩
  · rw [← hid]
    extract_lets pool s₁ s₂ s₃ stats s₄
    have hhomes : s₃.homes = insert rec.spec.tenant s₂.homes := homes_onTenant _ _ (by intro; rfl)
    exact .emit (Book.ext rfl (counts_start _ _) rfl rfl) (congrArg (s.account.withBook s₄.book) hhomes) rfl

theorem doConfirmStart_effects (s : Impl) (r : CompletionReport) :
    accounts.Leads (Effected s (.confirmStart r)) s.account (s.doConfirmStart r).1.account := by
  rcases doConfirmStart_cases s r with ⟨h, _⟩ | ⟨rec, wr, hm, hid, hen, henters, _⟩
  · rw [h]
    exact .refl _
  · exact henters.effected ⟨⟨hen, .start hm hid⟩, trivial⟩

/-- A report that matches is concluded by one move. `Stale` is the answer to
no report but one that says so. -/
theorem conclude_enters {s : Impl} {rec : RequestRecord} {r : CompletionReport} (h : s.core.Holds rec)
    (hm : Matches s r rec) (ht : isTerminal rec.state = false) (hn : r.status.hasName = true) :
    ∃ m, Posted s (.complete r) s.book (.move m) ∧ s.Enters (.move m) (s.conclude rec r).1 ∧
      ((s.conclude rec r).2.acceptance = .staleAttempt ∧ m = .finish rec r.worker .stale ∨
        ((s.conclude rec r).2.acceptance = .accepted ∨ (s.conclude rec r).2.acceptance = .cancelledOutcome) ∧
          m ≠ .finish rec r.worker .stale) ∧
      ((s.conclude rec r).2.reasonCode = "success" → m = .finish rec r.worker (.success r)) := by
  have hw : (s.core.pool.workers.find r.worker).isSome := by
    obtain ⟨wr, hwr, _⟩ := hm.worker
    exact Option.isSome_iff_exists.2 ⟨wr, hwr⟩
  have hcancel := finishCancelled_enters (s := s) rec.cancelReason r.worker "cancelled" ht
  have hposted : (r.status = .cancelled ∨ r.status = .succeeded ∧ rec.cancellationRequested = true) →
      Posted s (.complete r) s.book (.move (.cancel rec rec.cancelReason r.worker "cancelled")) := by
    intro hasked
    refine ⟨⟨⟨h, ht⟩, .finishCancelled hm⟩, fun r' hr' => ?_, fun _ _ _ h => nomatch h⟩
    cases hr'
    exact ⟨rfl, hasked⟩
  unfold conclude
  split
  · next hs =>
    split
    · next hc => exact ⟨_, hposted (.inr ⟨hs, hc⟩), hcancel, by simp⟩
    · next hc =>
      refine ⟨.finish rec r.worker (.success r), ⟨⟨⟨h, ht, hw, fun _ _ => ?_⟩, .finish hm ⟨rfl, hs⟩⟩, fun _ _ => rfl⟩,
        finishSuccess_enters s rec r, by simp⟩
      simpa using hc
  · next hs => exact ⟨_, hposted (.inl hs), hcancel, by simp⟩
  · next hs =>
    exact ⟨.finish rec r.worker .expired, ⟨⟨⟨h, ht, hw, by simp⟩, .finish hm hs⟩, fun _ _ => rfl⟩,
      finishExpired_enters s rec r, by simp⟩
  · next hs =>
    exact ⟨.finish rec r.worker .stale, ⟨⟨⟨h, ht, hw, by simp⟩, .finish hm hs⟩, fun _ _ => rfl⟩,
      finishStale_enters s rec r, by simp⟩
  pick_goal 3
  · next hs =>
    rw [hs] at hn
    cases hn
  all_goals
    next hs =>
    split
    · next hretry =>
      simp only [Bool.and_eq_true] at hretry
      refine ⟨.retry rec r, ⟨⟨⟨h, ht, hw, hretry.2⟩, .retry hm⟩, fun r' hr' => ?_⟩, makeRetry_enters s rec r, by simp⟩
      cases hr'
      exact ⟨rfl, by simp [hs], hretry.1⟩
    · exact ⟨.finish rec r.worker (.failed r), ⟨⟨⟨h, ht, hw, by simp⟩, .finish hm ⟨rfl, by simp [hs]⟩⟩, fun _ _ => rfl⟩,
        finishFailed_enters s rec r, by simp⟩

theorem conclude_move {s : Impl} {rec : RequestRecord} {r : CompletionReport} (h : s.core.Holds rec)
    (hm : Matches s r rec) (ht : isTerminal rec.state = false) (hn : r.status.hasName = true) :
    ∃ m, Step s (.complete r) s.core m ∧ (s.conclude rec r).1.core = s.core.act m ∧
      ((s.conclude rec r).2.acceptance = .staleAttempt ∧ m = .finish rec r.worker .stale ∨
        ((s.conclude rec r).2.acceptance = .accepted ∨ (s.conclude rec r).2.acceptance = .cancelledOutcome) ∧
          m ≠ .finish rec r.worker .stale) ∧
      ((s.conclude rec r).2.reasonCode = "success" → m = .finish rec r.worker (.success r)) := by
  obtain ⟨m, hposted, henters, hans⟩ := conclude_enters h hm ht hn
  exact ⟨m, hposted.1, henters.core, hans⟩

/-- A report that matches a live request is concluded. -/
theorem doComplete_of_matches (s : Impl) {r : CompletionReport} {rec : RequestRecord} (hf : s.core.Holds rec)
    (hm : Matches s r rec) (ht : isTerminal rec.state = false) (hc : rec.cancellationCommitted = false) :
    s.doComplete r = s.conclude rec r := by
  have hfind : s.requests.find r.requestId = some rec := hm.request ▸ hf
  have hworker : (s.pool.workers.find r.worker).any (fun wr => wr.registration.bootId == r.bootId) = true := by
    obtain ⟨wr, hwr, hboot⟩ := hm.worker
    rw [hwr, Option.any_some, hboot]
    exact beq_self_eq_true _
  unfold doComplete
  simp only [hm.epoch, hworker, hfind, hm.attempt, hm.generation, ht, hc]
  simp

/-- A report changes nothing but the count of stale ones, or it matches a request
that has not ended and is concluded. -/
theorem doComplete_cases (s : Impl) (r : CompletionReport) :
    (((s.doComplete r).1 = s ∨ (s.doComplete r).1 = s.countStale) ∧ (s.doComplete r).2.acceptance ≠ .accepted ∧
        ((s.doComplete r).2.acceptance = .cancelledOutcome →
          ∃ rec, s.core.Holds rec ∧ isTerminal rec.state = false ∧ rec.cancellationCommitted)) ∨
      ∃ rec, s.core.Holds rec ∧ Matches s r rec ∧ isTerminal rec.state = false ∧ r.status.hasName = true ∧
        rec.cancellationCommitted = false ∧ s.doComplete r = s.conclude rec r := by
  unfold doComplete
  split
  · exact .inl ⟨.inr rfl, by simp, by simp⟩
  next hepoch =>
  split
  · exact .inl ⟨.inr rfl, by simp, by simp⟩
  next hworker =>
  split
  · exact .inl ⟨.inl rfl, by simp, by simp⟩
  next rec hf =>
  have hrec : s.core.Holds rec := Keyed.find_key hf
  split
  · exact .inl ⟨.inr rfl, by simp, by simp⟩
  next hatt =>
  split
  · exact .inl ⟨.inl rfl, by simp, by simp⟩
  next ht =>
  split
  · next hc => exact .inl ⟨.inl rfl, by simp, fun _ => ⟨rec, hrec, by simpa using ht, hc⟩⟩
  next hc =>
  simp only [ne_eq, not_or, not_not] at hepoch hatt
  simp only [Bool.not_eq_eq_eq_not, Bool.not_true, Bool.not_eq_false, Option.any_eq_true, beq_iff_eq] at hworker
  cases hn : r.status.hasName with
  | false =>
    have hkept : s.conclude rec r = (s, { acceptance := .invalid, reasonCode := "unrecognized_status" }) := by
      unfold conclude
      split <;> first | rfl | (next hs => rw [hs] at hn; cases hn)
    exact .inl ⟨.inl (by rw [hkept]), by simp [hkept], by simp [hkept]⟩
  | true =>
    have hmatches : Matches s r rec := ⟨hepoch, Keyed.key_of_find hf, hatt.1, hatt.2, hworker⟩
    exact .inr ⟨rec, hrec, hmatches, by simpa using ht, rfl, by simpa using hc, rfl⟩

theorem doComplete_effects (s : Impl) (r : CompletionReport) :
    accounts.Leads (Effected s (.complete r)) s.account (s.doComplete r).1.account := by
  rcases doComplete_cases s r with ⟨hkept | hkept, _⟩ | ⟨rec, hrec, hm, ht, hn, _, he⟩
  · rw [hkept]
    exact .refl _
  · rw [hkept]
    exact .refl _
  · obtain ⟨m, hposted, henters, _⟩ := conclude_enters hrec hm ht hn
    rw [he]
    exact henters.effected hposted

/-! ## Cancellation -/

theorem doCancel_effects (s : Impl) (req : RequestId) (reason : CancellationReason) (detail : String) :
    accounts.Leads (Effected s (.cancel req reason detail)) s.account (s.doCancel req reason detail).1.account := by
  unfold doCancel
  split
  · exact .refl _
  next rec hf =>
  have hrec : s.core.Holds rec := Keyed.find_key hf
  have hid : rec.requestId = req := Keyed.key_of_find hf
  split
  · exact .refl _
  next ht =>
  simp only [Bool.not_eq_true] at ht
  have hcancel : rec.state ≠ .dispatched → rec.state ≠ .running →
      Posted s (.cancel req reason detail) s.book (.move
        (.cancel rec reason (if rec.state = .reserved then rec.lastWorker else .invalid) "cancelled")) :=
    fun hd hr => ⟨⟨⟨hrec, ht⟩, .cancel hid hd hr⟩, ⟨(fun _ h => nomatch h), fun _ _ _ _ => rfl⟩⟩
  simp only
  split
  · next hs =>
    rw [if_pos hs] at hcancel
    exact (finishCancelled_enters reason rec.lastWorker "cancelled" ht).effected (hcancel (by simp [hs]) (by simp [hs]))
  · next hs =>
    rw [if_neg hs] at hcancel
    split
    · next hon =>
      have hflag : s.Enters (.move (.flag rec reason))
          ((s.put { rec with cancelReason := reason, cancellationRequested := true }).emitEvent "cancel_requested" req
            rec.currentAttempt rec.lastWorker rec.batchId detail) := .emit rfl rfl (by rw [← hid]; rfl)
      exact hflag.effected ⟨⟨⟨hrec, hon⟩, .flag hid⟩, trivial⟩
    · next hon =>
      simp only [not_or] at hon
      exact (finishCancelled_enters reason .invalid "cancelled" ht).effected (hcancel hon.1 hon.2)

theorem cancelQueued_effects {s₀ : Impl} {detail : String} (s : Impl) (id : RequestId) (h : id ∈ s.ready.queued) :
    accounts.Leads (Effected s₀ (.cancelAllQueued detail)) s.account (cancelQueued detail s id).account ∧
      ∀ id', id' ≠ id → id' ∈ s.ready.queued → id' ∈ (cancelQueued detail s id).ready.queued := by
  unfold cancelQueued
  split
  · exact ⟨.refl _, fun _ _ h => h⟩
  next rec hf =>
  split
  · exact ⟨.refl _, fun _ _ h => h⟩
  next ht =>
  simp only [Bool.not_eq_true] at ht
  have hid : rec.requestId = id := Keyed.key_of_find hf
  have henters := finishCancelled_enters (s := s) .schedulerDrain .invalid
    (if detail = "" then "scheduler_drain" else detail) ht
  have hposted : Posted s₀ (.cancelAllQueued detail) s.book (.move (.cancel rec .schedulerDrain .invalid
      (if detail = "" then "scheduler_drain" else detail))) := by
    refine ⟨⟨⟨Keyed.find_key hf, ht⟩, .cancelQueued (hid ▸ h)⟩, ?_, ?_⟩
    · exact fun _ h => nomatch h
    · exact fun _ _ _ h => nomatch h
  refine ⟨henters.effected hposted, fun id' hne hq => ?_⟩
  have hqueued : (s.finishCancelled { rec with cancelReason := .schedulerDrain } .invalid _).ready.queued = _ :=
    congrArg (·.ready.queued) henters.core
  rw [hqueued]
  refine USet.mem_erase.2 ⟨fun he => hne (he.trans ?_), hq⟩
  exact (Core.unworked_requestId ..).trans hid

theorem doCancelAllQueued_effects (s : Impl) (detail : String) :
    accounts.Leads (Effected s (.cancelAllQueued detail)) s.account (s.doCancelAllQueued detail).account :=
  Leads.foldl (P := fun id (a : Account) => id ∈ a.book.core.ready.queued) cancelQueued_effects s.ready.queued.elems s
    s.ready.queued.nodup fun _ h => h

/-! ## Workers -/

/-- Giving back one request of a worker leaves the others in flight. -/
theorem inFlight_releaseMember {c c' : Core} {w : WorkerId} {rec : RequestRecord}
    (h : c'.pool = c.pool.releaseMember w rec) (id : RequestId) :
    c'.InFlight w id ↔ id ≠ rec.requestId ∧ c.InFlight w id := by
  simp only [Core.InFlight, h, Pool.find_releaseMember, if_pos]
  cases hf : c.pool.workers.find w with
  | none => simp
  | some wr => simp [WorkerRecord.leave_inFlight, AList.mem_erase]

/-- A request of a lost worker is over, or it is settled and then retried or
failed. -/
theorem recoverRequest_cases (w : WorkerId) (boot : WorkerBootId) (s : Impl) (rid : RequestId) :
    (recoverRequest w boot s rid = s ∧ ∀ rec, s.requests.find rid = some rec → isTerminal rec.state = true) ∨
      ∃ rec m, s.requests.find rid = some rec ∧ isTerminal rec.state = false ∧
        (recoverRequest w boot s rid).core = s.core.act m ∧
        (m = .retry rec (restartReport w boot rec) ∧ canRetry s.cfg rec s.now = true ∨
          m = .finish rec w (.failed (restartReport w boot rec))) ∧
        ∃ t, s.Enters (.settle rec.spec.tenant) t ∧ t.Enters (.move m) (recoverRequest w boot s rid) := by
  unfold recoverRequest
  split
  · next hf => exact .inl ⟨rfl, fun rec h => absurd (hf.symm.trans h) (by simp)⟩
  next rec hf =>
  split
  · next ht => exact .inl ⟨rfl, fun rec' h => Option.some.inj (hf.symm.trans h) ▸ ht⟩
  next ht =>
  simp only [Bool.not_eq_true] at ht
  simp only
  split
  · next hc =>
    exact .inr ⟨rec, .retry rec (restartReport w boot rec), hf, ht, (makeRetry_enters ..).core, .inl ⟨rfl, hc⟩,
      _, s.settle_enters rec.spec.tenant, makeRetry_enters ..⟩
  · exact .inr ⟨rec, .finish rec w (.failed (restartReport w boot rec)), hf, ht, (finishFailed_enters ..).core, .inr rfl,
      _, s.settle_enters rec.spec.tenant, finishFailed_enters ..⟩

/-- The recovery of a live request takes it off its worker and writes its
record. -/
theorem recover_frame {c : Core} {w : WorkerId} {boot : WorkerBootId} {rec : RequestRecord} {m : Move}
    (hm : m = .retry rec (restartReport w boot rec) ∨ m = .finish rec w (.failed (restartReport w boot rec))) :
    (c.act m).pool = c.pool.releaseMember w rec ∧
      ∀ id, id ≠ rec.requestId → (c.act m).requests.find id = c.requests.find id := by
  rcases hm with rfl | rfl
  · exact ⟨rfl, fun id hne => Keyed.find_put_ne _ fun he => hne (he.symm.trans (Pool.released_requestId ..))⟩
  · exact ⟨rfl, fun id hne => Keyed.find_put_ne _ fun he => hne (he.symm.trans (Pool.released_requestId ..))⟩

theorem recoverRequest_effects {s₀ : Impl} {op : Op} {w : WorkerId} (boot : WorkerBootId) (hl : Loses s₀ op w)
    (s : Impl) (rid : RequestId) (h : s.core.InFlight w rid) :
    accounts.Leads (Effected s₀ op) s.account (recoverRequest w boot s rid).account ∧
      ∀ id, id ≠ rid → s.core.InFlight w id → (recoverRequest w boot s rid).core.InFlight w id := by
  rcases recoverRequest_cases w boot s rid with ⟨hs, _⟩ | ⟨rec, m, hf, ht, hnext, hm, t, hsettle, henters⟩
  · rw [hs]
    exact ⟨.refl _, fun _ _ h => h⟩
  have hid : rec.requestId = rid := Keyed.key_of_find hf
  have hrec : s.core.Holds rec := Keyed.find_key hf
  have hin : s.core.InFlight w rec.requestId := hid ▸ h
  have hw : (s.core.pool.workers.find w).isSome := by
    obtain ⟨wr, hwr, _⟩ := h
    exact Option.isSome_iff_exists.2 ⟨wr, hwr⟩
  obtain ⟨hpool, _⟩ := recover_frame (c := s.core) (hm.imp_left And.left)
  have hcore : t.core = s.core := congrArg Book.core hsettle.book
  refine ⟨(hsettle.effected ⟨w, rec, hl, hrec, hin, ht, rfl⟩).trans (henters.effected ?_), fun id hne hx => ?_⟩
  · rw [← hcore] at hrec hin hw
    rcases hm with ⟨rfl, hc⟩ | rfl
    · refine ⟨⟨⟨hrec, ht, hw, ?_⟩, .recoverRetry hl hin⟩, fun r hr => ?_⟩
      · rw [show t.book.core = s.core from hcore]
        exact hc
      · subst hr
        cases hl
    · refine ⟨⟨⟨hrec, ht, hw, by simp⟩, .recoverFail hl hin⟩, fun r hr => ?_⟩
      subst hr
      cases hl
  · rw [hnext]
    exact (inFlight_releaseMember hpool id).2 ⟨hid ▸ hne, hx⟩

/-- A request in flight on `w` is over. -/
def Settled (w : WorkerId) (rid : RequestId) (s : Impl) : Prop :=
  ∀ rec, s.core.InFlight w rid → s.requests.find rid = some rec → isTerminal rec.state = true

/-- A round settles its request, unsettles none and puts none in flight. -/
theorem settled_recoverRequest (w : WorkerId) (boot : WorkerBootId) (s : Impl) (rid : RequestId) :
    Settled w rid (recoverRequest w boot s rid) ∧ ∀ id,
      ((recoverRequest w boot s rid).core.InFlight w id → s.core.InFlight w id) ∧
        (Settled w id s → Settled w id (recoverRequest w boot s rid)) := by
  rcases recoverRequest_cases w boot s rid with ⟨hs, hend⟩ | ⟨rec, m, hf, ht, hcore, hm, _⟩
  · rw [hs]
    exact ⟨fun rec _ hf => hend rec hf, fun _ => ⟨fun h => h, fun h => h⟩⟩
  have hid : rec.requestId = rid := Keyed.key_of_find hf
  obtain ⟨hpool, hothers⟩ := recover_frame (c := s.core) (hm.imp_left And.left)
  rw [← hcore] at hpool hothers
  have hself : Settled w rid (recoverRequest w boot s rid) := fun _ hin _ =>
    absurd hid.symm ((inFlight_releaseMember hpool rid).1 hin).1
  refine ⟨hself, fun id => ⟨fun hin => ((inFlight_releaseMember hpool id).1 hin).2, fun h => ?_⟩⟩
  by_cases he : id = rid
  · exact he ▸ hself
  · intro rec' hin hf'
    exact h rec' ((inFlight_releaseMember hpool id).1 hin).2 ((hothers id (hid ▸ he)).symm.trans hf')

theorem foldl_settled (w : WorkerId) (boot : WorkerBootId) : ∀ (l : List RequestId) (s : Impl),
    (∀ id, (l.foldl (recoverRequest w boot) s).core.InFlight w id → s.core.InFlight w id) ∧
      ∀ id, id ∈ l ∨ Settled w id s → Settled w id (l.foldl (recoverRequest w boot) s)
  | [], _ => ⟨fun _ h => h, fun _ h => h.resolve_left List.not_mem_nil⟩
  | a :: l, s => by
    obtain ⟨hself, hround⟩ := settled_recoverRequest w boot s a
    obtain ⟨hin, hset⟩ := foldl_settled w boot l (recoverRequest w boot s a)
    refine ⟨fun id h => (hround id).1 (hin id h), fun id h => hset id ?_⟩
    rcases h with h | h
    · rcases List.mem_cons.1 h with rfl | h
      · exact .inr hself
      · exact .inl h
    · exact .inr ((hround id).2 h)

/-- Losing a worker gives back the requests in flight on it, then sweeps it. -/
theorem recoverInFlight_effects {s₀ s : Impl} {op : Op} {w : WorkerId} {wr : WorkerRecord} (hl : Loses s₀ op w)
    (hf : s.pool.workers.find w = some wr) :
    accounts.Leads (Effected s₀ op) s.account (s.recoverInFlight w).account ∧
      ∃ s' : Impl, s'.Enters (.move (.sweep w)) (s.recoverInFlight w) := by
  have hmem : ∀ id, s.core.InFlight w id → id ∈ inFlightIds wr := by
    intro id hx
    obtain ⟨wr', hwr', hin⟩ := hx
    obtain rfl : wr = wr' := Option.some.inj (hf.symm.trans hwr')
    rw [inFlightIds, List.mem_insertionSort]
    exact hin
  obtain ⟨hin, hset⟩ := foldl_settled w wr.registration.bootId (inFlightIds wr) s
  have hsweep : ((inFlightIds wr).foldl (recoverRequest w wr.registration.bootId) s).Enters (.move (.sweep w))
      (s.recoverInFlight w) := by
    simp only [recoverInFlight, hf]
    exact .silent rfl rfl rfl
  refine ⟨Leads.trans ?_ (hsweep.effected ⟨⟨trivial, .sweep hl⟩, fun id rec hx hrec => ?_⟩), _, hsweep⟩
  · refine Leads.foldl (P := fun id (a : Account) => a.book.core.InFlight w id) (recoverRequest_effects _ hl) _ s ?_ ?_
    · exact (List.perm_insertionSort _ _).nodup_iff.2 wr.inFlight.keys_nodup
    · intro id hid
      simp only [inFlightIds, List.mem_insertionSort] at hid
      exact ⟨wr, hf, hid⟩
  · exact hset id (.inl (hmem id (hin id hx))) rec hx hrec

theorem doUnregisterWorker_effects (s : Impl) (w : WorkerId) :
    accounts.Leads (Effected s (.unregisterWorker w)) s.account (s.doUnregisterWorker w).1.account := by
  unfold doUnregisterWorker
  split
  · exact .refl _
  next wr hf =>
  obtain ⟨hlead, s', hsweep⟩ := recoverInFlight_effects (.unregister w) hf
  simp only
  generalize s.recoverInFlight w = t at hlead hsweep ⊢
  have hdrop : t.Enters (.move (.dropWorker w))
      ({ t with pool := { t.pool with workers := t.pool.workers.erase w } }.emitEvent "worker_unregistered"
        .invalid .invalid w .invalid "unregistered") := .emit rfl rfl ⟨_, rfl, by simp [workerEvents]⟩
  refine hlead.trans (hdrop.effected ⟨⟨trivial, ?_⟩, trivial⟩)
  rw [show t.book.core = s'.core.act (.sweep w) from hsweep.core]
  exact .dropWorker

/-- A worker record is written and told. -/
theorem putWorker_enters (s : Impl) (wr : WorkerRecord) (type : String) (w : WorkerId) (detail : String)
    (htype : type ∈ workerEvents) : s.Enters (.move (.setWorker wr))
      ({ s with pool := s.pool.putWorker wr }.emitEvent type .invalid .invalid w .invalid detail) :=
  .emit rfl rfl ⟨_, rfl, htype⟩

theorem registered_sameWork (wr : WorkerRecord) (reg : WorkerRegistration) : wr.SameWork (registered wr reg) :=
  ⟨.inr rfl, rfl, rfl, rfl, rfl, rfl, rfl⟩

theorem doRegisterWorker_effects (s : Impl) (reg : WorkerRegistration) :
    accounts.Leads (Effected s (.registerWorker reg)) s.account (s.doRegisterWorker reg).account := by
  have hset := fun t : Impl => t.putWorker_enters (registered ((t.pool.workers.find reg.worker).getD {}) reg)
    "worker_registered" reg.worker reg.capability.backend (by decide)
  unfold doRegisterWorker
  simp only
  split
  · next hb =>
    obtain ⟨wr, hf, _⟩ := (Option.any_eq_true _ _).1 hb
    obtain ⟨hlead, s', hsweep⟩ := recoverInFlight_effects (.restart reg hb) hf
    generalize s.recoverInFlight reg.worker = t at hlead hsweep ⊢
    refine hlead.trans ((hset t).effected ⟨⟨registered_sameWork _ reg, ?_⟩, trivial⟩)
    have hcore : t.core = s'.core.act (.sweep reg.worker) := hsweep.core
    rw [show t.pool = (s'.core.act (.sweep reg.worker)).pool from congrArg Core.pool hcore,
      show t.book.core = s'.core.act (.sweep reg.worker) from hcore]
    exact .reregister hb
  · next hb => exact (hset s).effected ⟨⟨registered_sameWork _ reg, .register (by simpa using hb)⟩, trivial⟩

theorem sameWork_of_find {p : Pool} {w : WorkerId} {wr wr' : WorkerRecord} (hf : p.workers.find w = some wr)
    (hid : wr'.id = wr.id) (h : wr.SameWork wr') : ((p.workers.find wr'.id).getD {}).SameWork wr' := by
  rw [hid, Keyed.find_key hf]
  exact h

theorem doUpdateCapability_effects (s : Impl) (w : WorkerId) (cap : WorkerCapability) :
    accounts.Leads (Effected s (.updateCapability w cap)) s.account (s.doUpdateCapability w cap).1.account := by
  unfold doUpdateCapability
  split
  · exact .refl _
  · next wr hf =>
    exact (s.putWorker_enters (withCapability wr cap) "worker_updated" w "capability" (by decide)).effected
      ⟨⟨sameWork_of_find hf rfl ⟨.inl rfl, rfl, rfl, rfl, rfl, rfl, rfl⟩, .capability hf⟩, trivial⟩

theorem doSetWorkerState_effects (s : Impl) (w : WorkerId) (state : WorkerState) (snap : Option ResourceSnapshot) :
    accounts.Leads (Effected s (.setWorkerState w state snap)) s.account
      (s.doSetWorkerState w state snap).1.account := by
  unfold doSetWorkerState
  split
  · exact .refl _
  · next wr hf =>
    exact (s.putWorker_enters { wr with state := state, resource := snap.getD wr.resource } "worker_state" w
      state.nameOf (by decide)).effected
      ⟨⟨sameWork_of_find hf rfl ⟨.inl rfl, rfl, rfl, rfl, rfl, rfl, rfl⟩, .workerState hf⟩, trivial⟩

end Impl

/-- **Every operation is a sequence of effects.** -/
theorem step_effects (s : Impl) (op : Op) :
    accounts.Leads (Effected s op) s.account (scheduler.next s op).account := by
  cases op with
  | submit spec pre => exact s.doSubmit_effects spec pre
  | planDispatch request ex => exact s.doPlanDispatch_effects request ex
  | planNextSeed => exact s.planNextSeed_effects
  | confirmStart r => exact s.doConfirmStart_effects r
  | complete r => exact s.doComplete_effects r
  | cancel req reason detail => exact s.doCancel_effects req reason detail
  | cancelAllQueued detail => exact s.doCancelAllQueued_effects detail
  | registerWorker reg => exact s.doRegisterWorker_effects reg
  | updateCapability w cap => exact s.doUpdateCapability_effects w cap
  | setWorkerState w state snap => exact s.doSetWorkerState_effects w state snap
  | unregisterWorker w => exact s.doUnregisterWorker_effects w
  | beginDrain reason =>
    exact leads_effect (f := .drain ⟨"drain_started", .invalid, .invalid, .invalid, .invalid, reason⟩)
      ⟨⟨reason, rfl⟩, rfl⟩
  | rollEpoch =>
    exact leads_effect (f := .roll ⟨"epoch_rollover", .invalid, .invalid, .invalid, .invalid,
      "epoch=" ++ toString (s.epochValue + 1)⟩) ⟨rfl, rfl⟩
  | advance n => exact Impl.Enters.effected (.silent rfl rfl rfl) (e := .move (.advance n)) ⟨⟨trivial, .advance⟩, trivial⟩

/-- **Every operation is a sequence of entries.** -/
theorem step_posts (s : Impl) (op : Op) : books.Leads (Posted s op) s.book (scheduler.next s op).book := by
  refine (step_effects s op).map (v := Account.book) fun a f hf => ?_
  cases f with
  | post e notes =>
    rw [show (accounts.next a (.post e notes)).book = a.book.act e from a.act_post_book e notes]
    exact leads_post hf.1
  | drain n | roll n => exact .refl _

/-! ## What no effect changes -/

namespace Impl

/-- `global_tokens_` is written by no operation. -/
theorem step_globalTokens (s : Impl) (op : Op) : (scheduler.next s op).globalTokens = s.globalTokens := by
  refine (step_effects s op).invariant (I := fun a => a.tokens = s.globalTokens) (fun a f _ ha => ?_) rfl
  cases f with
  | post e notes => exact (Account.foldl_tell notes _).2.2.1.trans ha
  | drain n | roll n => exact ha

/-- The epoch is written by `roll_epoch` and by no other operation. -/
theorem step_epochValue (s : Impl) {op : Op} (hop : op ≠ .rollEpoch) :
    (scheduler.next s op).epochValue = s.epochValue := by
  refine (step_effects s op).invariant (I := fun a => a.epoch = s.epochValue) (fun a f hf ha => ?_) rfl
  cases f with
  | post e notes => exact (Account.foldl_tell notes _).2.1.trans ha
  | drain n => exact ha
  | roll n => exact absurd hf.1 hop

/-- A drain is not taken back. -/
theorem step_draining {s : Impl} (op : Op) (h : s.draining = true) : (scheduler.next s op).draining = true := by
  refine (step_effects s op).invariant (I := fun a => a.draining = true) (fun a f _ ha => ?_) h
  cases f with
  | post e notes => exact (Account.foldl_tell notes _).2.2.2.1.trans ha
  | drain n => rfl
  | roll n => exact ha

end Impl

/-! ## Invariants -/

/-- **Every operation is a sequence of enabled moves.** -/
theorem step_leads {s : Impl} {op : Op} (h : FreshSubmit s op) :
    moves.Leads (Step s op) s.core (scheduler.next s op).core := by
  refine (step_posts s op).map (v := Book.core) fun b e he => ?_
  cases e with
  | move m =>
    rw [show (books.next b (.move m)).core = b.core.act m from b.move_core m]
    exact leads_act he.1
  | turnAway | settle t => exact .refl _
  | dismiss late => exact absurd h he
  | again rec spec => exact absurd h he.1

/-- What the entries of an operation keep, the operation keeps. -/
theorem posts_invariant {s : Impl} {op : Op} {I : Book → Prop}
    (hstep : ∀ b e, Posted s op b e → I b → I (b.act e)) (hs : I s.book) : I (scheduler.next s op).book :=
  (step_posts s op).invariant hstep hs

/-- An invariant of the entries that operations post holds in every state of a
run whose operations are admissible. -/
theorem books_invariant {ok : Impl → Op → Prop} {I : Book → Prop}
    (hstep : ∀ s op b e, ok s op → Posted s op b e → I b → I (b.act e)) {s : Impl} {ops : List Op}
    (hs : I s.book) (hok : scheduler.Allowed ok s ops) : I (scheduler.run s ops).book :=
  run_invariant (I := fun s => I s.book)
    (fun s op h hb => posts_invariant (fun b e he hb => hstep s op b e h he hb) hb) hs hok

/-- An invariant of the moves that operations make holds in every state of a
run with fresh ids whose operations are admissible. -/
theorem scheduler_invariant {ok : Impl → Op → Prop} {I : Core → Prop}
    (hstep : ∀ s op c m, ok s op → Step s op c m → I c → I (c.act m)) {s : Impl} {ops : List Op}
    (hs : I s.core) (hok : scheduler.Allowed (fun s op => FreshSubmit s op ∧ ok s op) s ops) :
    I (scheduler.run s ops).core :=
  run_invariant_of_leads (a := moves) (fun _ _ h => step_leads h.1)
    (fun s op h c m hm hc => hstep s op c m h.2 hm hc) hs hok

end InferenceScheduler
