/-
Attempts on their way to a worker. Whoever plans a batch has a parcel for each
of its members, at first without the attempt, which is read from the request's
record later; then the parcel is sent.

While an attempt is on its way its request stays off the queue. The request is
queued again with another attempt only, and only on the word of a worker the
attempt was sent to. So what is read late is the attempt that was planned, and
no attempt is on its way twice (`Handed`).
-/
import InferenceScheduler.Attempts
import InferenceScheduler.Flight

namespace InferenceScheduler

open Machine

/-- An attempt sent to a worker. -/
structure Handout where
  request : RequestId
  attempt : AttemptId
  worker : WorkerId
  deriving DecidableEq

def Handout.pair (h : Handout) : RequestId × AttemptId := (h.request, h.attempt)

/-- A member of a planned batch, with its attempt once that is read. -/
structure Parcel where
  request : RequestId
  attempt : Option AttemptId := none
  deriving DecidableEq

/-- The attempts on their way. -/
structure Underway where
  sent : List Handout := []
  parcels : List Parcel := []

/-- The attempt a request has now. -/
def Core.attemptOf (c : Core) (r : RequestId) : AttemptId := ((c.requests.find r).getD {}).currentAttempt

/-- What a parcel is sent as, if its attempt is read now. -/
def Parcel.pair (c : Core) (p : Parcel) : RequestId × AttemptId := (p.request, p.attempt.getD (c.attemptOf p.request))

namespace Underway

def pairs (u : Underway) (c : Core) : List (RequestId × AttemptId) :=
  u.sent.map Handout.pair ++ u.parcels.map (Parcel.pair c)

/-- A batch is planned. -/
def hold (u : Underway) (members : List RequestId) : Underway :=
  { u with parcels := u.parcels ++ members.map fun r => { request := r } }

@[simp] theorem hold_nil (u : Underway) : u.hold [] = u := by simp only [hold, List.map_nil, List.append_nil]

end Underway

/-- A request a plan may take. -/
def RequestRecord.Runnable (rec : RequestRecord) : Prop := rec.state = .queued ∨ rec.state = .admitted

structure Core.Handed (c : Core) (u : Underway) : Prop where
  once : (u.pairs c).Nodup
  issued : ∀ p ∈ u.pairs c, c.ids.Issued p.2
  runnable : ∀ r rec, c.requests.find r = some rec → rec.Runnable →
    c.ids.Issued rec.currentAttempt ∧ (r, rec.currentAttempt) ∉ u.pairs c
  stored : ∀ r, ⟨r, none⟩ ∈ u.parcels → (c.requests.find r).isSome = true
  flight : ∀ w r, c.InFlight w r → ∃ rec, c.requests.find r = some rec ∧
    (isTerminal rec.state = true ∨ ⟨r, rec.currentAttempt, w⟩ ∈ u.sent)

/-- A move that only a worker the attempt was sent to brings about. -/
def Vouched (sent : List Handout) : Move → Prop
  | .start rec wr _ => ⟨rec.requestId, rec.currentAttempt, wr.id⟩ ∈ sent
  | .retry rec r => ⟨rec.requestId, rec.currentAttempt, r.worker⟩ ∈ sent
  | _ => True

/-- The requests a move reserves. -/
def Move.reserves : Move → List RequestId
  | .reserve _ members => members
  | _ => []

/-! ## One move -/

/-- A request becomes runnable by a retry only. -/
theorem Writes.runnable {c : Core} {m : Move} {rec rec' : RequestRecord} (hw : Writes c m rec rec')
    (hr : rec'.Runnable) : rec.Runnable ∨ ∃ rep, m = .retry rec rep := by
  cases hw with
  | expire | reserve | start | cancel => rcases hr with hr | hr <;> cases hr
  | @finish _ w e =>
    cases e with
    | success => rcases hr with hr | hr <;> simp [Ending.close, Ending.note, RequestRecord.succeed] at hr
    | failed | expired => rcases hr with hr | hr <;> cases hr
    | stale => exact .inl (by simpa [Ending.close, Ending.note, RequestRecord.noteStale, RequestRecord.Runnable] using hr)
  | flag => exact .inl hr
  | @retry _ rep => exact .inr ⟨rep, rfl⟩

theorem Core.attemptOf_of_find {c : Core} {r : RequestId} {rec : RequestRecord} (hf : c.requests.find r = some rec) :
    c.attemptOf r = rec.currentAttempt := by
  rw [attemptOf, hf]
  rfl

/-- A request keeps its attempt unless it is retried. -/
theorem Core.attemptOf_act {c : Core} {m : Move} {r : RequestId} (hen : Enabled c m)
    (hf : (c.requests.find r).isSome = true) (hno : ∀ rec rep, m = .retry rec rep → rec.requestId ≠ r) :
    (c.act m).attemptOf r = c.attemptOf r := by
  obtain ⟨rec, hrec⟩ := Option.isSome_iff_exists.1 hf
  obtain ⟨rec', hrec', rfl | hw⟩ := act_find hen hrec
  · rw [attemptOf_of_find hrec, attemptOf_of_find hrec']
  · rw [attemptOf_of_find hrec, attemptOf_of_find hrec']
    rcases hw.attempts with hsame | ⟨rep, rfl⟩
    · exact hsame.1
    · exact absurd (Keyed.key_of_find hrec) (hno rec rep rfl)

namespace Core.Handed

variable {c : Core} {u : Underway} {m : Move}

/-- An attempt that is sent has no parcel any more. -/
theorem not_parcel {h : Handout} (hu : c.Handed u) (hs : h ∈ u.sent) (ha : h.attempt = c.attemptOf h.request) :
    ⟨h.request, none⟩ ∉ u.parcels := by
  intro hmem
  have hdisj := (List.nodup_append.1 hu.once).2.2
  refine hdisj h.pair (List.mem_map_of_mem hs) _ (List.mem_map_of_mem hmem) ?_
  rw [Handout.pair, ha]
  rfl

/-- An attempt is sent to one worker. -/
theorem worker_eq {r : RequestId} {a : AttemptId} {w w' : WorkerId} (hu : c.Handed u) (hs : ⟨r, a, w⟩ ∈ u.sent)
    (hs' : ⟨r, a, w'⟩ ∈ u.sent) : w = w' := by
  have heq := List.inj_on_of_nodup_map (List.nodup_append.1 hu.once).1 hs hs' rfl
  injection heq

/-- The pairs after a move: those on their way, and the members it reserves. -/
theorem pairs_act (hu : c.Handed u) (hen : Enabled c m) (hv : Vouched u.sent m) :
    (u.hold m.reserves).pairs (c.act m) = u.pairs c ++ m.reserves.map fun r => (r, c.attemptOf r) := by
  have hparcel : ∀ p ∈ u.parcels, p.pair (c.act m) = p.pair c := by
    rintro ⟨r, read⟩ hp
    cases read with
    | some a => rfl
    | none =>
      refine congrArg (Prod.mk r) (attemptOf_act hen (hu.stored r hp) fun rec rep hm (hid : rec.requestId = r) => ?_)
      subst hm hid
      exact hu.not_parcel hv (attemptOf_of_find hen.1).symm hp
  have hnew : ∀ r ∈ m.reserves, (Parcel.mk r none).pair (c.act m) = (r, c.attemptOf r) := by
    intro r hr
    cases m with
    | reserve wr members =>
      obtain ⟨rec, hf, _⟩ := hen.2.2.2.2 r hr
      exact congrArg (Prod.mk r) (attemptOf_act hen (by rw [hf]; rfl) fun _ _ h => nomatch h)
    | _ => cases hr
  simp only [Underway.pairs, Underway.hold, List.map_append, List.map_map, List.map_congr_left hparcel,
    ← List.map_congr_left hnew, List.append_assoc]
  rfl

/-- Parcels may be sent or dropped. -/
theorem mono {u' : Underway} (hu : c.Handed u) (hsub : (u'.pairs c).Subperm (u.pairs c)) (hsent : u.sent ⊆ u'.sent)
    (hnone : ∀ r, ⟨r, none⟩ ∈ u'.parcels → ⟨r, none⟩ ∈ u.parcels) : c.Handed u' := by
  refine ⟨?_, fun p hp => hu.issued p (hsub.subset hp), fun r rec hf hr => ?_, fun r hr => hu.stored r (hnone r hr), ?_⟩
  · obtain ⟨l, hperm, hl⟩ := hsub
    exact hperm.nodup_iff.1 (hu.once.sublist hl)
  · obtain ⟨hiss, hnot⟩ := hu.runnable r rec hf hr
    exact ⟨hiss, fun hmem => hnot (hsub.subset hmem)⟩
  · intro w r hfl
    obtain ⟨rec, hf, hor⟩ := hu.flight w r hfl
    exact ⟨rec, hf, hor.imp_right fun h => hsent h⟩

/-- A move writes no runnable record whose attempt is on its way. -/
theorem runnable_act (hu : c.Handed u) (hen : Enabled c m) (hd : (c.act m).ids.Distinct) {r : RequestId}
    {rec : RequestRecord} (hf : (c.act m).requests.find r = some rec) (hr : rec.Runnable) :
    (c.act m).ids.Issued rec.currentAttempt ∧ (r, rec.currentAttempt) ∉ u.pairs c := by
  -- A drawn attempt is on no way yet.
  have hdrawn : rec.currentAttempt = c.ids.tick.peek → (c.act m).ids = c.ids.tick.tick →
      (c.act m).ids.Issued rec.currentAttempt ∧ (r, rec.currentAttempt) ∉ u.pairs c := by
    intro ha hids
    refine ⟨by rw [ha, hids]; exact c.ids.tick.issued_peek, fun hmem => ?_⟩
    rw [hids] at hd
    exact tick_peek_ne hd (hu.issued _ hmem) ha.symm
  have hkeep : ∀ {old : RequestRecord}, c.requests.find r = some old → old.Runnable →
      rec.currentAttempt = old.currentAttempt →
      (c.act m).ids.Issued rec.currentAttempt ∧ (r, rec.currentAttempt) ∉ u.pairs c := by
    intro old hold hrun hsame
    obtain ⟨hiss, hnot⟩ := hu.runnable r old hold hrun
    rw [hsame]
    exact ⟨hiss.of_extends (c.act_ids_extends m), hnot⟩
  rcases Core.find_act hen hf with hs | ⟨old, hold, rfl | hw⟩
  · cases hs with
    | refuse =>
      have hterm := hen.2.1
      rcases hr with hr | hr <;> rw [hr] at hterm <;> cases hterm
    | accept => exact hdrawn rfl rfl
  · exact hkeep hold hr rfl
  · rcases hw.attempts with hsame | ⟨rep, rfl⟩
    · rcases hw.runnable hr with hrun | ⟨rep, rfl⟩
      · exact hkeep hold hrun hsame.1
      · cases hw
        exact hdrawn rfl rfl
    · cases hw
      exact hdrawn rfl rfl

theorem flight_act (hu : c.Handed u) (hen : Enabled c m) (hv : Vouched u.sent m) {w : WorkerId} {r : RequestId}
    (hfl : (c.act m).InFlight w r) : ∃ rec, (c.act m).requests.find r = some rec ∧
      (isTerminal rec.state = true ∨ ⟨r, rec.currentAttempt, w⟩ ∈ u.sent) := by
  obtain ⟨wr', hw', hr⟩ := hfl
  rcases Core.find_worker_act hen hw' with ⟨_, _, hs⟩ | ⟨wr, hw, hu'⟩
  · rw [hs.2.2.2.2.2.2] at hr
    exact absurd hr (AList.notMem_empty r)
  have hmem : r ∈ wr.inFlight ∨ ∃ rec snap, m = .start rec wr snap ∧ r = rec.requestId := by
    rcases hu' with rfl | hu'
    · exact .inl hr
    · exact hu'.inFlight hr
  rcases hmem with hmem | ⟨rec, snap, rfl, rfl⟩
  · obtain ⟨rec, hrec, hor⟩ := hu.flight w r ⟨wr, hw, hmem⟩
    obtain ⟨rec', hrec', rfl | hwr⟩ := Core.act_find hen hrec
    · exact ⟨rec', hrec', hor⟩
    have hnt := hwr.not_terminal hen (Keyed.find_key hrec)
    have hsent := hor.resolve_left (by simp [hnt])
    rcases hwr.attempts with hsame | ⟨rep, rfl⟩
    · exact ⟨rec', hrec', .inr (by rw [hsame.1]; exact hsent)⟩
    · -- The worker that had it retried no longer lists it.
      have hid : rec.requestId = r := Keyed.key_of_find hrec
      have hvouch : ⟨r, rec.currentAttempt, rep.worker⟩ ∈ u.sent := by
        rw [← hid]
        exact hv
      have hwid : rep.worker = w := hu.worker_eq hvouch hsent
      have hrel := (c.pool.find_releaseMember rep.worker rec w).symm.trans hw'
      rw [if_pos hwid, hw, Option.map_some, Option.some.injEq] at hrel
      rw [← hrel, WorkerRecord.leave_inFlight] at hr
      exact absurd hid.symm (AList.mem_erase.1 hr).1
  · have hwid : wr.id = w := Keyed.key_of_find hw
    exact ⟨_, Core.find_of_writes .start hen hen.1, .inr (hwid ▸ hv)⟩

/-- **A vouched move keeps every attempt on one way.** -/
theorem act (hu : c.Handed u) (hen : Enabled c m) (hd : (c.act m).ids.Distinct) (hv : Vouched u.sent m) :
    (c.act m).Handed (u.hold m.reserves) := by
  have hpairs := hu.pairs_act hen hv
  -- What is reserved was runnable.
  have hnew : ∀ r ∈ m.reserves, ∃ rec, c.requests.find r = some rec ∧ rec.Runnable := by
    intro r hr
    cases m with
    | reserve wr members => exact hen.2.2.2.2 r hr
    | _ => cases hr
  have hnodup : m.reserves.Nodup := by
    cases m with
    | reserve wr members => exact hen.1
    | _ => exact List.nodup_nil
  refine ⟨?_, ?_, ?_, ?_, fun w r => hu.flight_act hen hv⟩
  · rw [hpairs, List.nodup_append]
    refine ⟨hu.once, hnodup.map fun r r' h => congrArg Prod.fst h, fun p hp q hq he => ?_⟩
    obtain ⟨r, hr, rfl⟩ := List.mem_map.1 hq
    obtain ⟨rec, hf, hrun⟩ := hnew r hr
    rw [he, Core.attemptOf_of_find hf] at hp
    exact (hu.runnable r rec hf hrun).2 hp
  · rw [hpairs]
    intro p hp
    rcases List.mem_append.1 hp with hp | hp
    · exact (hu.issued p hp).of_extends (c.act_ids_extends m)
    · obtain ⟨r, hr, rfl⟩ := List.mem_map.1 hp
      obtain ⟨rec, hf, hrun⟩ := hnew r hr
      show (c.act m).ids.Issued (c.attemptOf r)
      rw [Core.attemptOf_of_find hf]
      exact (hu.runnable r rec hf hrun).1.of_extends (c.act_ids_extends m)
  · intro r rec hf hr
    obtain ⟨hiss, hnot⟩ := hu.runnable_act hen hd hf hr
    refine ⟨hiss, ?_⟩
    rw [hpairs, List.mem_append, not_or]
    refine ⟨hnot, fun hmem => ?_⟩
    -- What is reserved is not runnable any more.
    obtain ⟨r', hr', he⟩ := List.mem_map.1 hmem
    obtain rfl : r' = r := congrArg Prod.fst he
    cases m with
    | reserve wr members =>
      obtain ⟨old, hold, _⟩ := hnew r' hr'
      have hw : Writes c (.reserve wr members) old _ := .reserve (by rwa [Keyed.key_of_find hold])
      have hfind := Core.find_of_writes hw hen (Keyed.find_key hold)
      obtain rfl : rec = _ := Option.some.inj (hf.symm.trans (Keyed.key_of_find hold ▸ hfind))
      rcases hr with hr | hr <;> cases hr
    | _ => cases hr'
  · intro r hr
    have hsome : (c.requests.find r).isSome = true := by
      rcases List.mem_append.1 hr with hr | hr
      · exact hu.stored r hr
      · obtain ⟨r', hr', he⟩ := List.mem_map.1 hr
        obtain rfl : r' = r := congrArg Parcel.request he
        obtain ⟨rec, hf, _⟩ := hnew r' hr'
        rw [hf]
        rfl
    obtain ⟨rec, hf⟩ := Option.isSome_iff_exists.1 hsome
    obtain ⟨rec', hf', _⟩ := Core.act_find hen hf
    rw [hf']
    rfl

end Core.Handed

/-! ## One operation -/

/-- An operation that only a worker the attempt was sent to asks for. -/
def Op.Vouched (s : Impl) (sent : List Handout) : Op → Prop
  | .confirmStart r => ⟨r.requestId, r.attemptId, r.worker⟩ ∈ sent
  | .complete r => Impl.retryable s.cfg r = true → ⟨r.requestId, r.attemptId, r.worker⟩ ∈ sent
  | _ => True

namespace Core.Handed

variable {s : Impl} {op : Op} {u : Underway}

theorem vouched {c : Core} {m : Move} (hu : c.Handed u) (hen : Enabled c m) (hdoes : Does s op c m)
    (hretry : ∀ rec rep r, m = .retry rec rep → op = .complete r → Impl.retryable s.cfg r = true)
    (hv : op.Vouched s u.sent) : Vouched u.sent m := by
  cases hdoes with
  | start hm hid =>
    show Handout.mk _ _ _ ∈ u.sent
    rw [hm.request, hm.attempt, hid]
    exact hv
  | @retry r rec hm =>
    show Handout.mk _ _ _ ∈ u.sent
    rw [hm.request, hm.attempt]
    exact hv (hretry rec r r rfl rfl)
  | @recoverRetry _ w _ rec _ _ hfl =>
    obtain ⟨rec', hf, hor⟩ := hu.flight w rec.requestId hfl
    obtain rfl : rec' = rec := Option.some.inj (hf.symm.trans hen.1)
    exact hor.resolve_left (by simp [hen.2.1])
  | _ => trivial

/-- An operation other than a plan leaves the attempts on their ways. -/
theorem step (hu : s.core.Handed u) (hfresh : FreshSubmit s op) (hd : (scheduler.next s op).idFactory.Distinct)
    (hv : op.Vouched s u.sent) (hop : ∀ r ex, op ≠ .planDispatch r ex) : (scheduler.next s op).core.Handed u := by
  have hentries : ∀ b e, Posted s op b e → (b.core.ids.Distinct → b.core.Handed u) →
      (b.act e).core.ids.Distinct → (b.act e).core.Handed u := by
    intro b e he hb hdist
    cases e with
    | move m =>
      obtain ⟨⟨hen, hdoes⟩, hback⟩ := he
      rw [Book.act, Book.move_core] at hdist ⊢
      have hc := hb (hdist.of_extends (b.core.act_ids_extends m))
      have hnone : m.reserves = [] := by
        cases m with
        | reserve wr members =>
          generalize b.core = c at hdoes
          cases hdoes
          exact absurd rfl (hop _ _)
        | _ => rfl
      have hact := hc.act hen hdist (hc.vouched hen hdoes (fun rec rep r hm hr => ?_) hv)
      · rwa [hnone, Underway.hold_nil] at hact
      · subst hm
        exact (hback r hr).2.2
    | turnAway | settle => exact hb hdist
    | dismiss => exact absurd hfresh he
    | again => exact absurd hfresh he.1
  exact posts_invariant (I := fun b => b.core.ids.Distinct → b.core.Handed u) hentries (fun _ => hu) hd

theorem expire {c c' : Core} (hu : c.Handed u) (hlead : moves.Leads (fun c m => Enabled c m ∧ ∃ rec, m = .expire rec) c c')
    (hd : c'.ids.Distinct) : c'.Handed u := by
  refine hlead.invariant (I := fun c => c.ids.Distinct → c.Handed u) ?_ (fun _ => hu) hd
  rintro c m ⟨hen, rec, rfl⟩ hc (hdist : (c.act (.expire rec)).ids.Distinct)
  have hact := (hc (hdist.of_extends (c.act_ids_extends _))).act hen hdist trivial
  exact u.hold_nil ▸ hact

/-- A plan holds the members of its batch, if it forms one. -/
theorem plan {r : RequestId} {ex : Bool} (hu : s.core.Handed u)
    (hd : (s.doPlanDispatch r ex).1.idFactory.Distinct) :
    (∀ out, (s.doPlanDispatch r ex).2 = .ok out → out.decision = .dispatch →
      (s.doPlanDispatch r ex).1.core.Handed (u.hold out.batchMembers)) ∧
    ((∀ out, (s.doPlanDispatch r ex).2 = .ok out → out.decision ≠ .dispatch) →
      (s.doPlanDispatch r ex).1.core.Handed u) := by
  have hexpire : ∀ c rec, Enabled c (.expire rec) → Enabled c (.expire rec) ∧ ∃ rec', Move.expire rec = .expire rec' :=
    fun c rec hen => ⟨hen, rec, rfl⟩
  rcases s.doPlanDispatch_cases r ex (P := fun c m => Enabled c m ∧ ∃ rec, m = .expire rec) hexpire with
    ⟨hlead, hno⟩ | ⟨wr, out, hout, hdis⟩
  · exact ⟨fun out hout hdec => absurd hdec (hno out hout), fun _ => hu.expire hlead hd⟩
  · refine ⟨fun out' hout' _ => ?_, fun hno => absurd hdis.decision (hno out hout)⟩
    obtain rfl : out = out' := Except.ok.inj (hout.symm.trans hout')
    have hd' : ((s.expireScan s.now).core.act (.reserve wr out.batchMembers)).ids.Distinct := by
      rw [← hdis.core]
      exact hd
    have hscan : (s.expireScan s.now).core.Handed u :=
      hu.expire (s.expireScan_leads s.now hexpire) (hd'.of_extends (act_ids_extends _ _))
    rw [hdis.core]
    exact hscan.act hdis.enabled hd' trivial

end Core.Handed

/-! ## Ids of submitted requests -/

/-- Every stored request is under an id the factory drew. -/
def Impl.OwnIds (s : Impl) : Prop := ∀ r, (s.requests.find r).isSome = true → s.idFactory.Issued r

theorem Impl.find_submitAs {s : Impl} {spec : RequestSpec} {rid r : RequestId} (hnone : s.requests.find rid = none)
    (hne : r ≠ rid) : (s.submitAs spec rid).1.requests.find r = s.requests.find r := by
  unfold submitAs
  split
  · next reason _ =>
    cases hl : spec.deadline.valid && spec.deadline.expired s.now with
    | true =>
      have hcore := (admitAs_late_enters reason hl hnone).core
      exact (congrArg (fun c => c.requests.find r) hcore).trans (Keyed.find_put_ne s.requests hne.symm)
    | false =>
      have hcore := (admitAs_enters reason hl hnone).core
      exact (congrArg (fun c => c.requests.find r) hcore).trans (Core.find_act_accept hne)
  · rfl
  · next reason _ =>
    have hcore := (@reject_enters s spec rid reason hnone).core
    exact (congrArg (fun c => c.requests.find r) hcore).trans (Keyed.find_put_ne s.requests hne.symm)

/-- A submission without an id is one under the id drawn. -/
theorem next_submit_none {s : Impl} {spec : RequestSpec} (hv : validateSpec spec = .ok ()) :
    scheduler.next s (.submit spec none) = (s.drawId.submitAs spec s.idFactory.peek).1 :=
  congrArg Prod.fst (s.doSubmit_of_valid none hv)

theorem next_submit_none_extends {s : Impl} {spec : RequestSpec} (hv : validateSpec spec = .ok ()) :
    (scheduler.next s (.submit spec none)).idFactory.Extends s.idFactory.tick := by
  have hgiven : scheduler.next s.drawId (.submit spec (some s.idFactory.peek)) =
      (s.drawId.submitAs spec s.idFactory.peek).1 :=
    congrArg Prod.fst (s.drawId.doSubmit_of_valid (some s.idFactory.peek) hv)
  rw [next_submit_none hv, ← hgiven]
  exact step_ids_extends s.drawId _

theorem Impl.OwnIds.fresh {s : Impl} {spec : RequestSpec} (h : s.OwnIds) (hv : validateSpec spec = .ok ())
    (hd : (scheduler.next s (.submit spec none)).idFactory.Distinct) : FreshSubmit s (.submit spec none) := by
  have htick : s.idFactory.tick.Distinct := hd.of_extends (next_submit_none_extends hv)
  show s.requests.find s.idFactory.peek = none
  by_contra hsome
  exact IdFactory.peek_ne_of_issued htick (h _ (Option.isSome_iff_ne_none.2 hsome)) rfl

theorem Impl.OwnIds.submit {s : Impl} {spec : RequestSpec} (h : s.OwnIds) (hv : validateSpec spec = .ok ())
    (hd : (scheduler.next s (.submit spec none)).idFactory.Distinct) :
    (scheduler.next s (.submit spec none)).OwnIds := by
  have hnone : s.drawId.requests.find s.idFactory.peek = none := h.fresh hv hd
  intro r hr
  by_cases hne : r = s.idFactory.peek
  · rw [hne]
    exact s.idFactory.issued_peek.of_extends (next_submit_none_extends hv)
  · rw [next_submit_none hv, find_submitAs hnone hne] at hr
    exact (h r hr).of_extends (step_ids_extends s _)

theorem freshSubmit_of_ne {s : Impl} {op : Op} (hop : ∀ spec pre, op ≠ .submit spec pre) : FreshSubmit s op := by
  cases op with
  | submit spec pre => exact absurd rfl (hop spec pre)
  | _ => trivial

/-- The other operations store no request under a new id. -/
theorem Impl.OwnIds.step {s : Impl} {op : Op} (h : s.OwnIds) (hop : ∀ spec pre, op ≠ .submit spec pre) :
    (scheduler.next s op).OwnIds := by
  intro r hr
  have hkey : s.idFactory.Issued r := by
    refine (step_leads (freshSubmit_of_ne hop)).invariant
      (I := fun c => (c.requests.find r).isSome = true → s.idFactory.Issued r)
      ?_ (h r) hr
    rintro c m ⟨hen, hdoes⟩ hc hr
    obtain ⟨rec, hf⟩ := Option.isSome_iff_exists.1 hr
    rcases Core.find_act hen hf with hs | ⟨old, hold, _⟩
    · cases hs with
      | refuse | accept =>
        cases hdoes
        exact absurd rfl (hop _ _)
    · exact hc (by rw [hold]; rfl)
  exact hkey.of_extends (step_ids_extends s op)

end InferenceScheduler
