/-
The local driver settles its batches. It reports a start and one result for
every member of the batch it has planned, all from the worker the batch is on,
so the members leave the batch one by one, retried or for good, and the batch
goes with the last of them: the workers are as free as before.

It rests on two things the driver does not control. The ids drawn meanwhile
have to be new: a batch under the invalid id is never released. And no request
that waits may be marked as cancelled, which only a recovered file can do.
-/
import InferenceScheduler.LocalDriver
import InferenceScheduler.Sturdy
import InferenceScheduler.Restart
import InferenceScheduler.Wraparound

namespace InferenceScheduler

open Machine Binary

/-! ## A worker with one batch -/

namespace WorkerRecord

/-- No units and no batch on a worker. -/
structure Free (wr : WorkerRecord) : Prop where
  reserved : wr.reservedUnits = 0
  running : wr.runningUnits = 0
  units : wr.batchUnits = ∅
  pending : wr.batchPending = ∅
  members : wr.batchMembers = ∅
  started : wr.startedBatches = ∅

instance (wr : WorkerRecord) : Decidable wr.Free :=
  decidable_of_iff (wr.reservedUnits = 0 ∧ wr.runningUnits = 0 ∧ wr.batchUnits.entries = [] ∧
      wr.batchPending.entries = [] ∧ wr.batchMembers.entries = [] ∧ wr.startedBatches.elems = []) <| by
    constructor
    · rintro ⟨hr, hn, hu, hp, hm, hs⟩
      exact ⟨hr, hn, AList.ext hu, AList.ext hp, AList.ext hm,
        USet.eq_empty fun b hb => by rw [USet.mem_def, hs] at hb; cases hb⟩
    · intro h
      rw [h.units, h.pending, h.members, h.started]
      exact ⟨h.reserved, h.running, rfl, rfl, rfl, rfl⟩

/-- The one batch of a worker is `b`, of `u` units and with `n` members left. -/
structure Bears (wr : WorkerRecord) (b : BatchId) (u n : ℤ) : Prop where
  units : wr.batchUnits = AList.insert b u ∅
  pending : wr.batchPending = AList.insert b n ∅
  members : ∃ ids, wr.batchMembers = AList.insert b ids ∅
  started : ∀ b' ∈ wr.startedBatches, b' = b
  reserved : wr.reservedUnits = if wr.started b then 0 else u
  running : wr.runningUnits = if wr.started b then u else 0

theorem Free.takeBatch {wr : WorkerRecord} (h : wr.Free) (b : BatchId) (u : ℤ) (ids : List RequestId) :
    (wr.takeBatch b u ids).Bears b u ids.length where
  units := by rw [← h.units]; rfl
  pending := by rw [← h.pending]; rfl
  members := ⟨ids, by rw [← h.members]; rfl⟩
  started b' hb' := by
    rw [show (wr.takeBatch b u ids).startedBatches = ∅ from h.started] at hb'
    exact absurd hb' (USet.notMem_empty b')
  reserved := by simp [WorkerRecord.takeBatch, WorkerRecord.started, h.reserved, h.started]
  running := by simp [WorkerRecord.takeBatch, WorkerRecord.started, h.running, h.started]

namespace Bears

variable {wr : WorkerRecord} {b : BatchId} {u n : ℤ}

theorem unitsOf (h : wr.Bears b u n) : wr.unitsOf b = u := by
  rw [WorkerRecord.unitsOf, h.units, AList.lookup_insert]
  rfl

/-- The first start moves all units of the batch, a later one none. -/
theorem startMember (h : wr.Bears b u n) (rid : RequestId) (att : AttemptId) (snap : ResourceSnapshot) :
    (wr.startMember b rid att snap).Bears b u n where
  units := h.units
  pending := h.pending
  members := h.members
  started b' hb' := (USet.mem_insert.1 hb').elim (fun he => he) (h.started b')
  reserved := by
    have hstarted : (wr.startMember b rid att snap).started b = true :=
      decide_eq_true (USet.mem_insert.2 (.inl rfl))
    rw [hstarted, show (wr.startMember b rid att snap).reservedUnits = wr.reservedUnits - wr.startingUnits b from rfl,
      h.reserved, startingUnits, h.unitsOf]
    split <;> simp
  running := by
    have hstarted : (wr.startMember b rid att snap).started b = true :=
      decide_eq_true (USet.mem_insert.2 (.inl rfl))
    rw [hstarted, show (wr.startMember b rid att snap).runningUnits = wr.runningUnits + wr.startingUnits b from rfl,
      h.running, startingUnits, h.unitsOf]
    split <;> simp

/-- A worker that forgets its one batch is free. -/
theorem dropBatch (h : wr.Bears b u n) : (wr.dropBatch b).Free := by
  have herase : ∀ {ν : Type} (v : ν), (AList.insert b v (∅ : Table BatchId ν)).erase b = ∅ := by
    intro ν v
    refine Table.eq_empty_of_lookup fun k => ?_
    rw [Table.lookup_erase_eq, Table.lookup_insert_eq]
    split <;> rfl
  obtain ⟨ids, hids⟩ := h.members
  refine ⟨?_, ?_, ?_, ?_, ?_, ?_⟩
  · simp only [WorkerRecord.dropBatch, h.unitsOf, h.reserved]
    split <;> simp [clamp0]
  · simp only [WorkerRecord.dropBatch, h.unitsOf, h.running]
    split <;> simp [clamp0]
  · rw [show (wr.dropBatch b).batchUnits = wr.batchUnits.erase b from rfl, h.units, herase]
  · rw [show (wr.dropBatch b).batchPending = wr.batchPending.erase b from rfl, h.pending, herase]
  · rw [show (wr.dropBatch b).batchMembers = wr.batchMembers.erase b from rfl, hids, herase]
  · refine USet.eq_empty fun b' hb' => ?_
    obtain ⟨hne, hmem⟩ := USet.mem_erase.1 hb'
    exact hne (h.started b' hmem)

end Bears

/-- A worker with `n` members of the batch `b` left and nothing else: it is free
once there are none. -/
def Carries (wr : WorkerRecord) (b : BatchId) : ℕ → Prop
  | 0 => wr.Free
  | n + 1 => ∃ u, wr.Bears b u (n + 1)

/-- A member leaves. -/
theorem Carries.leave {wr : WorkerRecord} {b : BatchId} {n : ℕ} {rec : RequestRecord} (h : wr.Carries b (n + 1))
    (hin : rec.inBatch = true) (hb : rec.batchId = b) (hv : b.valid = true) : (wr.leave rec).Carries b n := by
  obtain ⟨u, hu⟩ := h
  subst hb
  have hlookup : wr.batchPending.lookup rec.batchId = some (n + 1 : ℤ) := by rw [hu.pending, AList.lookup_insert]
  have hless : ∀ flight, Bears
      { wr with inFlight := flight, batchPending := wr.batchPending.insert rec.batchId (n + 1 - 1 : ℤ) }
      rec.batchId u (n + 1 - 1) := by
    intro flight
    refine ⟨hu.units, ?_, hu.members, hu.started, hu.reserved, hu.running⟩
    rw [hu.pending, AList.insert_insert]
  simp only [WorkerRecord.leave, hin, hv, Bool.and_self, if_true, leaveBatch, hlookup]
  cases n with
  | zero =>
    rw [if_pos (by omega)]
    exact (hless _).dropBatch
  | succ n =>
    rw [if_neg (by omega)]
    exact ⟨u, by simpa using hless _⟩

end WorkerRecord

/-! ## A scheduler with one batch -/

/-- A request that is reserved or running. -/
def RequestRecord.Held (rec : RequestRecord) : Prop := rec.state = .reserved ∨ rec.state = .running

instance (rec : RequestRecord) : Decidable rec.Held :=
  inferInstanceAs (Decidable (rec.state = .reserved ∨ rec.state = .running))

theorem RequestRecord.Held.onWorker {rec : RequestRecord} (h : rec.Held) : rec.onWorker = true := by
  rcases h with h | h <;> simp [RequestRecord.onWorker, h]

theorem RequestRecord.Held.not_terminal {rec : RequestRecord} (h : rec.Held) : isTerminal rec.state = false := by
  rcases h with h | h <;> rw [h] <;> rfl

namespace Core

/-- Nothing is reserved or running, and every worker is free. -/
structure AtRest (c : Core) : Prop where
  requests : ∀ r rec, c.requests.find r = some rec → ¬rec.Held
  workers : ∀ w wr, c.pool.workers.find w = some wr → wr.Free

/-- The one batch there is, `b`, is on the worker `w` under this boot, and the
requests reserved or running are its members `pend` still to settle. -/
structure Engaged (c : Core) (w : WorkerId) (bootId : WorkerBootId) (b : BatchId) (pend : List Ticket) : Prop where
  valid : b.valid = true
  worker : ∃ wr, c.pool.workers.find w = some wr ∧ wr.registration.bootId = bootId ∧ wr.Carries b pend.length
  others : ∀ w' wr, w ≠ w' → c.pool.workers.find w' = some wr → wr.Free
  nodup : (pend.map (·.request)).Nodup
  member : ∀ q ∈ pend, ∃ rec, c.requests.find q.request = some rec ∧ rec.ticket = q ∧ rec.Held ∧
    rec.inBatch = true ∧ rec.batchId = b
  held : ∀ r rec, c.requests.find r = some rec → rec.Held → r ∈ pend.map (·.request)

theorem AtRest.elapsed {c c' : Core} (h : c.AtRest) (he : Elapsed c c') : c'.AtRest := by
  refine ⟨fun r rec hf hheld => ?_, fun w wr hw => h.workers w wr (he.pool ▸ hw)⟩
  rcases he.record r with hsame | ⟨old, _, hexp⟩
  · exact h.requests r rec (hsame ▸ hf) hheld
  · obtain rfl := Option.some.inj (hexp.symm.trans hf)
    rcases hheld with h | h <;> cases h

namespace Engaged

variable {c c' : Core} {w : WorkerId} {bootId : WorkerBootId} {b : BatchId} {q : Ticket} {pend pend' : List Ticket}
  {rec : RequestRecord}

theorem atRest (h : c.Engaged w bootId b []) : c.AtRest := by
  refine ⟨fun r rec hf hheld => absurd (h.held r rec hf hheld) List.not_mem_nil, fun w' wr hw => ?_⟩
  by_cases hne : w = w'
  · subst hne
    obtain ⟨wr', hwr', _, hfree⟩ := h.worker
    obtain rfl := Option.some.inj (hwr'.symm.trans hw)
    exact hfree
  · exact h.others w' wr hne hw

theorem frame (h : c.Engaged w bootId b pend) (hreq : c'.requests = c.requests) (hpool : c'.pool = c.pool) :
    c'.Engaged w bootId b pend := by
  obtain ⟨hv, hw, ho, hn, hm, hh⟩ := h
  rw [← hpool] at hw ho
  rw [← hreq] at hm hh
  exact ⟨hv, hw, ho, hn, hm, hh⟩

theorem perm (h : c.Engaged w bootId b pend) (hp : pend.Perm pend') : c.Engaged w bootId b pend' := by
  obtain ⟨hv, hw, ho, hn, hm, hh⟩ := h
  refine ⟨hv, by rwa [← hp.length_eq], ho, (hp.map _).nodup_iff.1 hn, fun q hq => hm q (hp.mem_iff.2 hq), ?_⟩
  exact fun r rec hf hheld => (hp.map _).mem_iff.1 (hh r rec hf hheld)

/-- A request on a worker is one of the members. -/
theorem member_of_held (h : c.Engaged w bootId b pend) (hf : c.Holds rec) (hheld : rec.Held) :
    rec.ticket ∈ pend ∧ rec.inBatch = true ∧ rec.batchId = b := by
  obtain ⟨q, hq, hid⟩ := List.mem_map.1 (h.held _ rec hf hheld)
  obtain ⟨rec', hf', hticket, _, hin, hb⟩ := h.member q hq
  rw [hid] at hf'
  obtain rfl := Option.some.inj (hf.symm.trans hf')
  exact ⟨hticket ▸ hq, hin, hb⟩

/-- A member starts. -/
theorem start {wr : WorkerRecord} {snap : ResourceSnapshot} (h : c.Engaged w bootId b pend)
    (hen : Enabled c (.start rec wr snap)) (hw : wr.id = w) :
    (c.act (.start rec wr snap)).Engaged w bootId b pend := by
  obtain ⟨hf, hstate, hwr, _⟩ := hen
  obtain ⟨hmem, hin, hb⟩ := h.member_of_held hf (.inl hstate)
  have hfind : ∀ w', (c.act (.start rec wr snap)).pool.workers.find w' =
      if wr.id = w' then some (wr.startMember b rec.requestId rec.currentAttempt snap) else c.pool.workers.find w' := by
    intro w'
    rw [← hb]
    exact Pool.find_start ..
  refine ⟨h.valid, ?_, fun w' wr' hne hwr' => ?_, h.nodup, fun q hq => ?_, fun r rec' hf' hheld => ?_⟩
  · obtain ⟨wr', hwr', hboot, hcarries⟩ := h.worker
    rw [← hw, hwr] at hwr'
    obtain rfl := Option.some.inj hwr'
    refine ⟨_, (hfind w).trans (if_pos hw), hboot, ?_⟩
    obtain ⟨n, hn⟩ := Nat.exists_eq_succ_of_ne_zero (List.length_pos_of_mem hmem).ne'
    rw [hn] at hcarries ⊢
    obtain ⟨u, hu⟩ := hcarries
    exact ⟨u, hu.startMember ..⟩
  · rw [hfind, if_neg (hw ▸ hne)] at hwr'
    exact h.others w' wr' hne hwr'
  · obtain ⟨old, hold, hticket, hheld, hin', hb'⟩ := h.member q hq
    by_cases hid : rec.requestId = q.request
    · rw [← hid, show c.requests.find rec.requestId = some rec from hf] at hold
      obtain rfl := Option.some.inj hold
      refine ⟨rec.start wr.id c.now, ?_, hticket, .inr rfl, hin, hb⟩
      rw [← hid]
      exact Keyed.find_put_self c.requests (rec.start wr.id c.now)
    · have hkept : (c.requests.put (rec.start wr.id c.now)).find q.request = c.requests.find q.request :=
        Keyed.find_put_ne c.requests hid
      exact ⟨old, hkept.trans hold, hticket, hheld, hin', hb'⟩
  · rcases Keyed.find_put_cases hf' with ⟨rfl, hid⟩ | ⟨_, hold⟩
    · exact List.mem_map.2 ⟨rec.ticket, hmem, hid⟩
    · exact h.held r rec' hold hheld

/-- The member of a report leaves. -/
theorem leave {fin : RequestRecord} (h : c.Engaged w bootId b (q :: pend)) (hf : c.Holds rec) (hq : rec.ticket = q)
    (hpool : c'.pool = c.pool.releaseMember w rec) (hreq : c'.requests = c.requests.put fin)
    (hid : fin.requestId = rec.requestId) (hfin : ¬fin.Held) : c'.Engaged w bootId b pend := by
  obtain ⟨hhead, hn⟩ := List.nodup_cons.1 h.nodup
  have hrequest : rec.requestId = q.request := congrArg Ticket.request hq
  obtain ⟨rec', hf', _, _, hin, hb⟩ := h.member q List.mem_cons_self
  rw [← hrequest] at hf'
  obtain rfl := Option.some.inj (hf.symm.trans hf')
  refine ⟨h.valid, ?_, fun w' wr' hne hwr' => ?_, hn, fun p hp => ?_, fun r rec' hf' hheld => ?_⟩
  · obtain ⟨wr, hwr, hboot, hcarries⟩ := h.worker
    refine ⟨wr.leave rec, ?_, by rw [WorkerRecord.leave_registration]; exact hboot, hcarries.leave hin hb h.valid⟩
    rw [hpool, Pool.find_releaseMember, if_pos rfl, hwr]
    rfl
  · rw [hpool, Pool.find_releaseMember, if_neg hne] at hwr'
    exact h.others w' wr' hne hwr'
  · obtain ⟨old, hold, hrest⟩ := h.member p (List.mem_cons_of_mem q hp)
    refine ⟨old, ?_, hrest⟩
    rw [hreq, Keyed.find_put_ne]
    · exact hold
    · rw [hid, hrequest]
      intro hsame
      exact hhead (List.mem_map.2 ⟨p, hp, hsame.symm⟩)
  · rw [hreq] at hf'
    rcases Keyed.find_put_cases hf' with ⟨rfl, _⟩ | ⟨hne, hold⟩
    · exact absurd hheld hfin
    · refine (List.mem_cons.1 (h.held r rec' hold hheld)).resolve_left fun hr => hne ?_
      rw [hid, hrequest, hr]

end Engaged

end Core

section dispatched

variable {t s' : Impl} {r : RequestId} {wr : WorkerRecord} {out : DispatchOutcome}

/-- Every member is handed to the executor. -/
theorem Dispatched.tickets (hd : Dispatched t s' r wr out) :
    ((s'.workRequests out.batchMembers).map (·.ticket)).map (·.request) = out.batchMembers := by
  rw [s'.tickets_workRequests, List.map_filterMap]
  refine (List.filterMap_congr fun id hid => ?_).trans List.filterMap_some
  obtain ⟨old, _, _, hf⟩ := hd.find_member hid
  have hid : (old.reserve t.idFactory.peek t.now).requestId = id := Keyed.key_of_find hf
  rw [hf]
  exact congrArg some hid

/-- A batch is reserved on a scheduler at rest. -/
theorem Core.AtRest.reserve (h : t.core.AtRest) (hd : Dispatched t s' r wr out)
    (hv : (t.idFactory.peek : BatchId).valid = true) : s'.core.Engaged wr.id wr.registration.bootId t.idFactory.peek
      ((s'.workRequests out.batchMembers).map (·.ticket)) := by
  have hknown : t.pool.workers.find wr.id = some wr := hd.enabled.2.2.1
  have hlength : ((s'.workRequests out.batchMembers).map (·.ticket)).length = out.batchMembers.length :=
    (List.length_map _).symm.trans (congrArg List.length hd.tickets)
  refine ⟨hv, ⟨_, hd.find_worker, rfl, ?_⟩, fun w' wr' hne hwr' => ?_, by rw [hd.tickets]; exact hd.enabled.1,
    fun q hq => ?_, fun id rec hf hheld => ?_⟩
  · have hbears := (h.workers _ wr hknown).takeBatch t.idFactory.peek (t.core.batchUnits out.batchMembers) out.batchMembers
    obtain ⟨n, hn⟩ := Nat.exists_eq_succ_of_ne_zero (List.length_pos_iff.2 hd.enabled.2.1).ne'
    rw [hlength, hn]
    rw [hn] at hbears
    exact ⟨_, hbears⟩
  · rw [show s'.core.pool = s'.pool from rfl, hd.pool_reserve, Pool.find_reserve hknown, if_neg hne] at hwr'
    exact h.workers w' wr' hwr'
  · rw [s'.tickets_workRequests, List.mem_filterMap] at hq
    obtain ⟨id, hid, hmap⟩ := hq
    obtain ⟨old, _, _, hnew⟩ := hd.find_member hid
    rw [hnew] at hmap
    obtain rfl := Option.some.inj hmap
    exact ⟨_, Keyed.find_key hnew, rfl, .inl rfl, rfl, rfl⟩
  · rw [hd.tickets]
    by_contra hid
    rw [show s'.core.requests = s'.requests from rfl, hd.find_request, if_neg hid] at hf
    exact h.requests id rec hf hheld

end dispatched

/-! ## A report that ends an attempt -/

/-- What a report does that is not one of `Stale`: the request leaves its worker
and is over, or waits under the attempt drawn for it. -/
theorem complete_leaves {s : Impl} {rep : CompletionReport} {rec : RequestRecord} {m : Move}
    (hstep : Step s (.complete rep) s.core m) (hm : Matches s rep rec) (hf : s.core.Holds rec)
    (hon : rec.onWorker = true) (hstale : rep.status ≠ .stale) :
    ∃ fin, (s.core.act m).pool = s.core.pool.releaseMember rep.worker rec ∧
      (s.core.act m).requests = s.core.requests.put fin ∧ fin.requestId = rec.requestId ∧
      (isTerminal fin.state = true ∨ fin.state = .queued ∧ fin.currentAttempt = s.core.ids.tick.peek ∧
        (s.core.act m).ids = s.core.ids.tick.tick) := by
  obtain ⟨hen, hdoes⟩ := hstep
  -- The move is about the stored record the report names.
  have hsame : ∀ rec₁, Matches s rep rec₁ → s.core.Holds rec₁ → rec₁ = rec := by
    intro rec₁ hm₁ hf₁
    have hid : rec₁.requestId = rec.requestId := hm₁.request.trans hm.request.symm
    rw [Core.Holds, hid] at hf₁
    exact Option.some.inj (hf₁.symm.trans hf)
  cases hdoes with
  | @finish _ rec₁ e hm₁ hof =>
    obtain rfl := hsame rec₁ hm₁ hen.1
    refine ⟨_, rfl, rfl, ?_, .inl ?_⟩
    · rw [Ending.close_requestId, Pool.released_requestId, Ending.note_requestId]
    · cases e with
      | success r =>
        rw [Ending.close, Pool.released_state]
        rfl
      | failed r | expired => rfl
      | stale => exact absurd hof hstale
  | @finishCancelled _ rec₁ reason hm₁ =>
    obtain rfl := hsame rec₁ hm₁ hen.1
    refine ⟨_, ?_, rfl, s.core.unworked_requestId .., .inl rfl⟩
    simp only [Core.act, Core.put, hon, if_true]
  | @retry _ rec₁ hm₁ =>
    obtain rfl := hsame rec₁ hm₁ hen.1
    exact ⟨_, rfl, rfl, Pool.released_requestId .., .inr ⟨rfl, rfl, rfl⟩⟩
  | recoverRetry hl | recoverFail hl | sweep hl => cases hl

/-! ## The ids drawn meanwhile -/

namespace Core

/-- The ids drawn from `c` until the factory is `f` are valid, each is drawn
once, and none of them is the attempt of a request that is not over. -/
structure DrawsFresh (c : Core) (f : IdFactory) : Prop where
  valid : c.ids.Spares f Id.invalidValue
  distinct : ∀ n, n < f.counter → ∀ k, k < n → c.ids.counter ≤ k →
    IdFactory.issue c.ids.salt (n + 1) ≠ IdFactory.issue c.ids.salt (k + 1)
  unused : ∀ r rec, c.requests.find r = some rec → isTerminal rec.state = false →
    c.ids.Spares f rec.currentAttempt.value

/-- The request is through with an attempt that is not drawn again: it is over,
or waits or is served under another one. -/
structure Past (c : Core) (f : IdFactory) (r : RequestId) (a : AttemptId) : Prop where
  undrawn : c.ids.Spares f a.value
  record : ∃ rec, c.requests.find r = some rec ∧
    (isTerminal rec.state = true ∨ rec.currentAttempt ≠ a ∧ (rec.state = .queued ∨ rec.Held))

variable {c : Core} {m : Move} {f : IdFactory}

theorem DrawsFresh.act (h : c.DrawsFresh f) (hen : Enabled c m) : (c.act m).DrawsFresh f := by
  have hext := c.act_ids_extends m
  refine ⟨h.valid.of_extends hext, fun n hn k hk hle => ?_, fun r rec hr ht => ?_⟩
  · rw [hext.1]
    exact h.distinct n hn k hk (Nat.le_trans hext.2 hle)
  · rcases attempt_act hen hr ht with ⟨old, hold, hnt, hsame⟩ | ⟨hnew, hids, _⟩
    · rw [hsame]
      exact (h.unused r old hold hnt).of_extends hext
    · rw [hnew, hids]
      intro n hn hle
      exact h.distinct n hn (c.ids.counter + 1) (Nat.lt_of_succ_le hle) (Nat.le_succ _)

/-- The states of a request that is past an attempt. -/
theorem Past.state {rec rec' : RequestRecord} (hw : Writes c m rec rec') (hs : rec.state = .queued ∨ rec.Held) :
    isTerminal rec'.state = true ∨ rec'.state = .queued ∨ rec'.Held := by
  cases hw with
  | expire | cancel => exact .inl rfl
  | reserve => exact .inr (.inr (.inl rfl))
  | start => exact .inr (.inr (.inr rfl))
  | flag => exact .inr hs
  | retry => exact .inr (.inl rfl)
  | @finish _ w e =>
    cases e with
    | success r =>
      left
      rw [Ending.close, Pool.released_state]
      rfl
    | failed r | expired => exact .inl rfl
    | stale =>
      right
      simpa [Ending.close, Ending.note, RequestRecord.noteStale, RequestRecord.Held] using hs

theorem Past.act {r : RequestId} {a : AttemptId} (h : c.Past f r a) (hen : Enabled c m) (hf : f.Extends (c.act m).ids) :
    (c.act m).Past f r a := by
  refine ⟨h.undrawn.of_extends (c.act_ids_extends m), ?_⟩
  obtain ⟨rec, hr, hrec⟩ := h.record
  obtain ⟨rec', hr', rfl | hw⟩ := Core.act_find hen hr
  · exact ⟨rec', hr', hrec⟩
  · refine ⟨rec', hr', ?_⟩
    rcases hrec with hover | ⟨hne, hstate⟩
    · rw [hw.not_terminal hen (Keyed.find_key hr)] at hover
      cases hover
    · refine (Past.state hw hstate).imp_right fun hs => ⟨?_, hs⟩
      rcases hw.ids with ⟨hsame, _⟩ | ⟨hnew, _, hids⟩
      · rw [hsame]
        exact hne
      · rw [hids] at hf
        rw [hnew]
        intro he
        exact (h.undrawn.of_extends c.ids.extends_tick).peek_ne hf (congrArg Id.value he)

end Core

/-! ## The calls of a driver, as moves -/

/-- The moves that planning and reports make: none is about which workers there
are. -/
def Serves (c : Core) (m : Move) : Prop :=
  Enabled c m ∧ (∀ wr, m ≠ .setWorker wr) ∧ (∀ w, m ≠ .dropWorker w) ∧ ∀ w, m ≠ .sweep w

theorem Core.registration_act {c : Core} {m : Move} (h : Serves c m) (w : WorkerId) :
    ((c.act m).pool.workers.find w).map (·.registration) = (c.pool.workers.find w).map (·.registration) := by
  obtain ⟨hen, hset, hdrop, hsweep⟩ := h
  have hrelease : ∀ w' rec, ((c.pool.releaseMember w' rec).workers.find w).map (·.registration) =
      (c.pool.workers.find w).map (·.registration) := by
    intro w' rec
    rw [Pool.find_releaseMember]
    split
    · simp only [Option.map_map, Function.comp_def, WorkerRecord.leave_registration]
    · rfl
  cases m with
  | advance | draw | refuse | accept | expire | pop | sleep | flag => rfl
  | reserve wr members =>
    rw [(c.act_reserve_frame wr members).2.2.2, Pool.find_reserve hen.2.2.1]
    split
    · next hw =>
      rw [← hw, hen.2.2.1]
      rfl
    · rfl
  | start rec wr snap =>
    rw [show (c.act (.start rec wr snap)).pool = c.pool.start wr rec.batchId rec.requestId rec.currentAttempt snap
      from rfl, Pool.find_start]
    split
    · next hw =>
      rw [← hw, hen.2.2.1]
      rfl
    · rfl
  | finish rec w' e => exact hrelease w' rec
  | retry rec r => exact hrelease r.worker rec
  | cancel rec asked w' reason =>
    simp only [Core.act, Core.put]
    split
    · exact hrelease w' rec
    · rfl
  | setWorker wr => exact absurd rfl (hset wr)
  | dropWorker w' => exact absurd rfl (hdrop w')
  | sweep w' => exact absurd rfl (hsweep w')

/-- The operations a driver makes. -/
def Op.Serving : Op → Prop
  | .planDispatch .. | .planNextSeed | .confirmStart _ | .complete _ | .advance _ => True
  | _ => False

theorem serves_step (s : Impl) (op : Op) (h : op.Serving) : moves.Leads Serves s.core (scheduler.next s op).core := by
  have hfresh : FreshSubmit s op := by
    cases op with
    | submit => cases h
    | _ => trivial
  have hlost : ∀ w, ¬Loses s op w := by
    intro w hl
    cases hl <;> exact h
  refine (step_leads hfresh).map (v := fun c => c) fun c m hm => leads_act ?_
  obtain ⟨hen, hdoes⟩ := hm
  refine ⟨hen, fun wr he => ?_, fun w he => ?_, fun w he => ?_⟩
  · subst he
    cases hdoes <;> exact h
  · subst he
    cases hdoes
    exact h
  · subst he
    cases hdoes with
    | sweep hl => exact hlost _ hl

section leads

variable {c c' : Core} (h : moves.Leads Serves c c')
include h

theorem ids_extends_of_serves : c'.ids.Extends c.ids :=
  h.invariant (I := fun d => d.ids.Extends c.ids) (fun d m _ hd => (d.act_ids_extends m).trans hd) (.refl _)

theorem Uncommitted.of_serves (hu : Uncommitted c) : Uncommitted c' := by
  refine h.invariant (fun d m hm hd => ?_) hu
  exact Uncommitted.act hd hm.1

theorem Core.DrawsFresh.of_serves {f : IdFactory} (hd : c.DrawsFresh f) : c'.DrawsFresh f :=
  h.invariant (I := fun d => d.DrawsFresh f) (fun _ _ hm hd => hd.act hm.1) hd

theorem Core.Past.of_serves {f : IdFactory} {r : RequestId} {a : AttemptId} (hp : c.Past f r a)
    (hf : f.Extends c'.ids) : c'.Past f r a := by
  refine h.invariant (I := fun d => f.Extends d.ids → d.Past f r a) (fun d m hm hd hext => ?_) (fun _ => hp) hf
  exact (hd (hext.trans (d.act_ids_extends m))).act hm.1 hext

theorem registration_of_serves (w : WorkerId) :
    (c'.pool.workers.find w).map (·.registration) = (c.pool.workers.find w).map (·.registration) :=
  h.invariant (I := fun d => (d.pool.workers.find w).map (·.registration) = (c.pool.workers.find w).map (·.registration))
    (fun _ _ hm hd => (Core.registration_act hm w).trans hd) rfl

end leads

namespace Session

variable {ε : Type} (x : Executor ε) (σ : Session ε)

theorem serves_elapse : moves.Leads Serves σ.sched.core (σ.elapse x).sched.core :=
  serves_step σ.sched (.advance (x.elapse σ.env).1) trivial

theorem serves_planNext : moves.Leads Serves σ.sched.core (σ.planNext x).1.sched.core := by
  have hseed : moves.Leads Serves (σ.elapse x).sched.core (σ.elapse x).sched.planNextSeed.1.core :=
    serves_step _ .planNextSeed trivial
  unfold planNext
  simp only
  split
  · exact (σ.serves_elapse x).trans hseed
  · next id _ =>
    have hlater := ((σ.serves_elapse x).trans hseed).trans
      (serves_elapse x { σ.elapse x with sched := (σ.elapse x).sched.planNextSeed.1 })
    exact hlater.trans (serves_step _ (.planDispatch id false) trivial)

variable (w : WorkerId) (bootId : WorkerBootId)

theorem serves_confirm (q : WorkRequest) : moves.Leads Serves σ.sched.core (σ.confirm x w bootId q).sched.core :=
  (σ.serves_elapse x).trans (serves_step _ (.confirmStart _) trivial)

theorem serves_conclude (res : WorkResult) : moves.Leads Serves σ.sched.core (σ.conclude x w bootId res).sched.core :=
  (σ.serves_elapse x).trans (serves_step _ (.complete _) trivial)

theorem serves_confirmAll : ∀ (qs : List WorkRequest) (σ : Session ε),
    moves.Leads Serves σ.sched.core (qs.foldl (confirm x w bootId) σ).sched.core
  | [], _ => .refl _
  | q :: qs, σ => (σ.serves_confirm x w bootId q).trans (serves_confirmAll qs _)

theorem serves_concludeAll : ∀ (rs : List WorkResult) (σ : Session ε),
    moves.Leads Serves σ.sched.core (rs.foldl (conclude x w bootId) σ).sched.core
  | [], _ => .refl _
  | res :: rs, σ => (σ.serves_conclude x w bootId res).trans (serves_concludeAll rs _)

theorem serves_carryOut (reqs : List WorkRequest) :
    moves.Leads Serves σ.sched.core (σ.carryOut x w bootId reqs).sched.core :=
  (serves_confirmAll x w bootId reqs { σ with env := (x.run σ.env reqs).2 }).trans (serves_concludeAll x w bootId _ _)

theorem serves_dispatchOne : moves.Leads Serves σ.sched.core (σ.dispatchOne x).1.sched.core := by
  rcases σ.dispatchOne_cases x with ⟨h, _⟩ | ⟨out, reg, _, _, _, h⟩ <;> rw [h]
  · exact σ.serves_planNext x
  · exact (σ.serves_planNext x).trans (serves_carryOut x _ _ _ _)

end Session

/-! ## A batch settled -/

/-- The statuses an executor may give a result. -/
def CompletionStatus.Settles (status : CompletionStatus) : Prop :=
  status ∈ [.succeeded, .failed, .cancelled, .expired, .ambiguous]

theorem CompletionStatus.Settles.spec {status : CompletionStatus} (h : status.Settles) :
    status ≠ .stale ∧ status.hasName = true := by
  simp only [Settles, List.mem_cons, List.not_mem_nil, or_false] at h
  rcases h with rfl | rfl | rfl | rfl | rfl <;> exact ⟨by simp, rfl⟩

namespace Session

variable {ε : Type} {x : Executor ε} {w : WorkerId} {bootId : WorkerBootId} {b : BatchId} {f : IdFactory}

theorem engaged_confirm {σ : Session ε} {pend : List Ticket} (h : σ.sched.core.Engaged w bootId b pend) (q : WorkRequest) :
    (σ.confirm x w bootId q).sched.core.Engaged w bootId b pend := by
  have helapsed : (σ.elapse x).sched.core.Engaged w bootId b pend := h.frame rfl rfl
  have hcases := (σ.elapse x).sched.doConfirmStart_cases
    (startReport (σ.elapse x).sched σ.driver.frontUnits w bootId q)
  rcases hcases with ⟨hkept, _⟩ | ⟨rec, wr, _, hid, hen, henters, _⟩
  · rw [show (σ.confirm x w bootId q).sched = (σ.elapse x).sched from hkept]
    exact helapsed
  · rw [show (σ.confirm x w bootId q).sched.core = _ from henters.core]
    exact helapsed.start hen hid

theorem engaged_confirmAll {pend : List Ticket} : ∀ (qs : List WorkRequest) (σ : Session ε),
    σ.sched.core.Engaged w bootId b pend → (qs.foldl (confirm x w bootId) σ).sched.core.Engaged w bootId b pend
  | [], _, h => h
  | q :: qs, _, h => engaged_confirmAll qs _ (engaged_confirm h q)

/-- A result settles the member it is about. -/
theorem engaged_conclude {σ : Session ε} {res : WorkResult} {pend : List Ticket}
    (h : σ.sched.core.Engaged w bootId b (res.ticket :: pend)) (hu : Uncommitted σ.sched.core)
    (hfresh : σ.sched.core.DrawsFresh f) (hstatus : res.status.Settles)
    (hf : f.Extends (σ.conclude x w bootId res).sched.idFactory) :
    (σ.conclude x w bootId res).sched.core.Engaged w bootId b pend ∧
      (σ.conclude x w bootId res).sched.core.Past f res.requestId res.attemptId := by
  have helapsed : (σ.elapse x).sched.core.Engaged w bootId b (res.ticket :: pend) := h.frame rfl rfl
  obtain ⟨rec, hrec, hticket, hheld, _⟩ := helapsed.member res.ticket List.mem_cons_self
  obtain ⟨wr, hwr, hboot, _⟩ := helapsed.worker
  have hnt := hheld.not_terminal
  have hcommitted : rec.cancellationCommitted = false := by
    by_contra hc
    rw [hu _ rec hrec (by simpa using hc)] at hnt
    cases hnt
  have hholds : (σ.elapse x).sched.core.Holds rec := Keyed.find_key hrec
  have hmatches : Matches (σ.elapse x).sched (resultReport (σ.elapse x).sched w bootId res) rec :=
    ⟨rfl, congrArg Ticket.request hticket, congrArg Ticket.attempt hticket, congrArg Ticket.generation hticket,
      wr, hwr, hboot⟩
  obtain ⟨hstale, hname⟩ := hstatus.spec
  obtain ⟨m, hstep, hcore, _⟩ := Impl.conclude_move hholds hmatches hnt hname
  rw [← Impl.doComplete_of_matches _ hholds hmatches hnt hcommitted] at hcore
  obtain ⟨fin, hpool, hreq, hid, hend⟩ := complete_leaves hstep hmatches hholds hheld.onWorker hstale
  have hafter : (σ.conclude x w bootId res).sched.core = (σ.elapse x).sched.core.act m := hcore
  have hf' : f.Extends ((σ.elapse x).sched.core.act m).ids := hafter ▸ hf
  have hspares : (σ.elapse x).sched.core.ids.Spares f res.attemptId.value := by
    rw [← show rec.currentAttempt = res.attemptId from hmatches.attempt]
    exact hfresh.unused _ rec hrec hnt
  rw [hafter]
  refine ⟨helapsed.leave hholds hticket hpool hreq hid ?_, ⟨hspares.of_extends (Core.act_ids_extends _ m), fin, ?_, ?_⟩⟩
  · intro hfin
    rcases hend with hend | ⟨hend, _⟩
    · rw [hfin.not_terminal] at hend
      cases hend
    · rcases hfin with h | h <;> rw [hend] at h <;> cases h
  · rw [hreq, show res.requestId = fin.requestId from hmatches.request.symm.trans hid.symm]
    exact Keyed.find_put_self _ fin
  · rcases hend with hend | ⟨hend, hattempt, hids⟩
    · exact .inl hend
    · refine .inr ⟨?_, .inl hend⟩
      rw [hids] at hf'
      rw [hattempt]
      intro he
      exact (hspares.of_extends (IdFactory.extends_tick _)).peek_ne hf' (congrArg Id.value he)

theorem concludeAll_settles : ∀ (rs : List WorkResult) (σ : Session ε),
    σ.sched.core.Engaged w bootId b (rs.map (·.ticket)) → Uncommitted σ.sched.core → σ.sched.core.DrawsFresh f →
    (∀ res ∈ rs, res.status.Settles) → f.Extends (rs.foldl (conclude x w bootId) σ).sched.idFactory →
      (rs.foldl (conclude x w bootId) σ).sched.core.AtRest ∧
        ∀ res ∈ rs, (rs.foldl (conclude x w bootId) σ).sched.core.Past f res.requestId res.attemptId
  | [], _, h, _, _, _, _ => ⟨h.atRest, fun _ hres => absurd hres List.not_mem_nil⟩
  | res :: rs, σ, h, hu, hfresh, hstatus, hf => by
    have hlater := serves_concludeAll x w bootId rs (σ.conclude x w bootId res)
    have hone := σ.serves_conclude x w bootId res
    obtain ⟨hengaged, hpast⟩ := engaged_conclude h hu hfresh (hstatus res List.mem_cons_self)
      (hf.trans (ids_extends_of_serves hlater))
    obtain ⟨hrest, hall⟩ := concludeAll_settles rs _ hengaged (hu.of_serves hone) (hfresh.of_serves hone)
      (fun r hr => hstatus r (List.mem_cons_of_mem res hr)) hf
    refine ⟨hrest, fun r hr => ?_⟩
    rcases List.mem_cons.1 hr with rfl | hr
    · exact hpast.of_serves hlater hf
    · exact hall r hr

end Session

/-- An executor that returns exactly one result per request, in any order, with
the ids of the request and a status that settles it. -/
def Executor.Answers {ε : Type} (x : Executor ε) : Prop :=
  ∀ env reqs, ((x.run env reqs).1.map (·.ticket)).Perm (reqs.map (·.ticket)) ∧
    ∀ res ∈ (x.run env reqs).1, res.status.Settles

/-- The driver's list is that of the registered workers with their boots. -/
def LocalDriver.Lists (d : LocalDriver) (s : Impl) : Prop :=
  ∀ w, (d.findWorker w).map (·.bootId) = (s.pool.workers.find w).map (·.registration.bootId)

namespace Session

variable {ε : Type} {x : Executor ε} {w : WorkerId} {bootId : WorkerBootId} {b : BatchId} {f : IdFactory}

theorem carryOut_settles {σ : Session ε} {reqs : List WorkRequest} (hx : x.Answers)
    (h : σ.sched.core.Engaged w bootId b (reqs.map (·.ticket))) (hu : Uncommitted σ.sched.core)
    (hfresh : σ.sched.core.DrawsFresh f) (hf : f.Extends (σ.carryOut x w bootId reqs).sched.idFactory) :
    (σ.carryOut x w bootId reqs).sched.core.AtRest ∧
      ∀ q ∈ reqs.map (·.ticket), (σ.carryOut x w bootId reqs).sched.core.Past f q.request q.attempt := by
  obtain ⟨hperm, hstatus⟩ := hx σ.env reqs
  have hstarts := serves_confirmAll x w bootId reqs { σ with env := (x.run σ.env reqs).2 }
  have hengaged := engaged_confirmAll (x := x) reqs { σ with env := (x.run σ.env reqs).2 } h
  obtain ⟨hrest, hall⟩ := concludeAll_settles _ _ (hengaged.perm hperm.symm) (hu.of_serves hstarts)
    (hfresh.of_serves hstarts) hstatus hf
  refine ⟨hrest, fun q hq => ?_⟩
  obtain ⟨res, hres, rfl⟩ := List.mem_map.1 (hperm.mem_iff.2 hq)
  exact hall res hres

end Session

namespace Session

variable {ε : Type} (x : Executor ε)

/-- The members of the batch that `dispatch_one` plans, with their attempts. -/
def batch (σ : Session ε) : List (RequestId × AttemptId) :=
  match (σ.planNext x).2 with
  | .error _ => []
  | .ok out =>
    if out.decision = .dispatch then
      out.batchMembers.map fun id => (id, (((σ.planNext x).1.sched.requests.find id).getD {}).currentAttempt)
    else []

/-- The members of all batches `run_until_idle` plans. -/
def batches : ℕ → Session ε → List (RequestId × AttemptId)
  | 0, _ => []
  | n + 1, σ =>
    if σ.sched.queuedCount = 0 then []
    else σ.batch x ++ if (σ.dispatchOne x).2 then batches n (σ.dispatchOne x).1 else []

variable {x} {f : IdFactory} {σ : Session ε}

theorem dispatchOne_settles (hx : x.Answers) (hrest : σ.sched.core.AtRest) (hlist : σ.driver.Lists σ.sched)
    (hu : Uncommitted σ.sched.core) (hfresh : σ.sched.core.DrawsFresh f)
    (hf : f.Extends (σ.dispatchOne x).1.sched.idFactory) :
    (σ.dispatchOne x).1.sched.core.AtRest ∧
      ∀ q ∈ σ.batch x, (σ.dispatchOne x).1.sched.core.Past f q.1 q.2 := by
  rcases σ.planNext_cases x with ⟨helapsed, hno⟩ | ⟨out, wr, t, hout, helapsed, hd⟩
  · have hbatch : σ.batch x = [] := by
      unfold batch
      split
      · rfl
      · next out hout => exact if_neg (hno out hout)
    rw [hbatch]
    rcases σ.dispatchOne_cases x with ⟨h, _⟩ | ⟨out, reg, hout, hdispatch, _⟩
    · rw [h]
      exact ⟨hrest.elapsed helapsed, fun q hq => absurd hq List.not_mem_nil⟩
    · exact absurd hdispatch (hno out hout)
  · have hknown : σ.sched.pool.workers.find wr.id = some wr := by
      rw [← show t.pool = σ.sched.pool from helapsed.pool]
      exact hd.enabled.2.2.1
    have hlisted := hlist wr.id
    rw [hknown, Option.map_some] at hlisted
    obtain ⟨reg, hreg, hboot⟩ := Option.map_eq_some_iff.1 hlisted
    rcases σ.dispatchOne_cases x with ⟨_, hnot⟩ | ⟨out', reg', hout', _, hreg', h⟩
    · rcases hnot out hout hd.decision with hnone | hnil
      · rw [hd.worker, hreg] at hnone
        cases hnone
      · exact absurd hnil hd.workRequests_ne_nil
    · obtain rfl := Except.ok.inj (hout.symm.trans hout')
      rw [hd.worker] at hreg' h
      obtain rfl := Option.some.inj (hreg.symm.trans hreg')
      have hplan := σ.serves_planNext x
      rw [h] at hf ⊢
      have hids : (σ.planNext x).1.sched.core.ids = t.core.ids.tick := by
        rw [hd.core]
        exact (t.core.act_reserve_frame wr out.batchMembers).2.2.1
      have hvalid : (t.idFactory.peek : BatchId).valid = true := by
        have hext := hf.trans (ids_extends_of_serves ((σ.planNext x).1.serves_carryOut x wr.id reg.bootId _))
        rw [hids] at hext
        have hspares : t.core.ids.Spares f Id.invalidValue := helapsed.ids ▸ hfresh.valid
        have hne : (t.idFactory.peek : BatchId).value ≠ Id.invalidValue := hspares.peek_ne hext
        simpa [Id.valid] using hne
      have hengaged := (hrest.elapsed helapsed).reserve hd hvalid
      rw [← hboot] at hengaged
      obtain ⟨hsettled, hall⟩ := carryOut_settles hx hengaged (hu.of_serves hplan) (hfresh.of_serves hplan) hf
      refine ⟨hsettled, fun q hq => ?_⟩
      simp only [batch, hout, hd.decision, if_true] at hq
      obtain ⟨id, hid, rfl⟩ := List.mem_map.1 hq
      obtain ⟨old, _, _, hnew⟩ := hd.find_member hid
      have hrequest : (old.reserve t.idFactory.peek t.now).requestId = id := Keyed.key_of_find hnew
      have hmem : (old.reserve t.idFactory.peek t.now).ticket ∈
          ((σ.planNext x).1.sched.workRequests out.batchMembers).map (·.ticket) := by
        rw [Impl.tickets_workRequests, List.mem_filterMap]
        exact ⟨id, hid, by rw [hnew]; rfl⟩
      have hpast := hall _ hmem
      rw [hnew]
      rw [show (old.reserve t.idFactory.peek t.now).ticket.request = id from hrequest] at hpast
      exact hpast

/-- The list stays that of the registered workers. -/
theorem lists_dispatchOne (h : σ.driver.Lists σ.sched) :
    (σ.dispatchOne x).1.driver.Lists (σ.dispatchOne x).1.sched := by
  intro w
  have hregistration := registration_of_serves (σ.serves_dispatchOne x) w
  have hboot := congrArg (Option.map WorkerRegistration.bootId) hregistration
  rw [Option.map_map, Option.map_map] at hboot
  rw [LocalDriver.findWorker, (σ.dispatchOne_driver x).1]
  exact (h w).trans hboot.symm

theorem serves_runUntilIdle : ∀ (n : ℕ) (σ : Session ε),
    moves.Leads Serves σ.sched.core (σ.runUntilIdle x n).sched.core
  | 0, _ => .refl _
  | n + 1, σ => by
    unfold runUntilIdle
    split
    · exact .refl _
    · simp only
      split
      · exact (σ.serves_dispatchOne x).trans (serves_runUntilIdle n _)
      · exact σ.serves_dispatchOne x

/-- Batch after batch, the scheduler is at rest and the members so far are past
the attempts they were handed out under. -/
theorem runUntilIdle_settles (hx : x.Answers) : ∀ (n : ℕ) (σ : Session ε), σ.sched.core.AtRest →
    σ.driver.Lists σ.sched → Uncommitted σ.sched.core → σ.sched.core.DrawsFresh f →
    f.Extends (σ.runUntilIdle x n).sched.idFactory →
      (σ.runUntilIdle x n).sched.core.AtRest ∧
        ∀ q ∈ σ.batches x n, (σ.runUntilIdle x n).sched.core.Past f q.1 q.2
  | 0, σ, hrest, _, _, _, _ => ⟨hrest, fun q hq => absurd hq List.not_mem_nil⟩
  | n + 1, σ, hrest, hlist, hu, hfresh, hf => by
    unfold runUntilIdle batches at *
    split
    · exact ⟨hrest, fun q hq => absurd hq List.not_mem_nil⟩
    next hqueued =>
    have hone := σ.serves_dispatchOne x
    rw [if_neg hqueued] at hf
    simp only at hf ⊢
    split at hf
    · next hran =>
      have hlater := serves_runUntilIdle (x := x) n (σ.dispatchOne x).1
      have hf' := hf.trans (ids_extends_of_serves hlater)
      obtain ⟨hfirst, hbatch⟩ := dispatchOne_settles hx hrest hlist hu hfresh hf'
      obtain ⟨hend, hmore⟩ := runUntilIdle_settles hx n _ hfirst (lists_dispatchOne hlist) (hu.of_serves hone)
        (hfresh.of_serves hone) hf
      rw [if_pos hran, if_pos hran]
      refine ⟨hend, fun q hq => ?_⟩
      rcases List.mem_append.1 hq with hq | hq
      · exact (hbatch q hq).of_serves hlater hf
      · exact hmore q hq
    · next hran =>
      obtain ⟨hfirst, hbatch⟩ := dispatchOne_settles hx hrest hlist hu hfresh hf
      rw [if_neg hran, if_neg hran, List.append_nil]
      exact ⟨hfirst, hbatch⟩

end Session

/-! ## Every reachable state -/

/-- No request this file has a recovery read is marked as cancelled, unless it
is over. -/
def Unmarked (file : Option Binary.Bytes) : Prop :=
  ∀ payload img, readPersistenceFile file = .ok payload → readable payload = some img →
    ∀ r ∈ img.requests, r.live = true → r.cancellationCommitted = 0

/-- Submissions use new ids, and a recovery is of a file whose requests that are
not over have an attempt and no mark of cancellation. The reports write to the
last attempt of a request without asking whether there is one. -/
def Wholesome (s : Impl) : ServiceOp → Prop
  | .op op => FreshSubmit s op
  | .recover file => Attended file ∧ Unmarked file

theorem Uncommitted.recovered {s : Impl} {img : SavedState} {c : Core} (hc : s.Recovered img c)
    (h : ∀ r ∈ img.requests, r.live = true → r.cancellationCommitted = 0) : Uncommitted c := by
  intro r rec hf hcommitted
  obtain ⟨saved, hsaved, hlive, hrec⟩ := hc.saved hf
  by_contra hrun
  have hzero := h saved hsaved (hlive (by simpa using hrun))
  rcases hrec with rfl | rfl <;> simp [SavedRequest.restore, RequestRecord.requeue, hzero] at hcommitted

theorem Uncommitted.serve {s : Impl} {op : ServiceOp} (h : Uncommitted s.core) (hop : Wholesome s op) :
    Uncommitted (recoverable.next s op).core := by
  cases op with
  | op op =>
    refine (step_leads hop).invariant (fun c m hstep hc => ?_) h
    exact Uncommitted.act hc hstep.1
  | recover file =>
    show Uncommitted (s.doRecover file).1.core
    rcases s.doRecover_recovered file with heq | ⟨img, himg, hc⟩
    · rw [heq]
      exact h
    · obtain ⟨payload, hfile, hread⟩ := Impl.mem_readBack.1 himg
      exact .recovered hc (hop.2 payload img hfile hread)

/-- Runs of the operations alone are among them. -/
theorem allowed_wholesome {s : Impl} {ops : List Op} (hok : scheduler.Allowed FreshSubmit s ops) :
    recoverable.Allowed Wholesome s (ops.map .op) := by
  induction ops generalizing s with
  | nil => trivial
  | cons op ops ih => exact ⟨hok.1, ih hok.2⟩

theorem Uncommitted.served {cfg : SchedulerConfig} {now : ClockTime} {salt : UInt64} {epoch : Option SchedulerEpoch}
    {ops : List ServiceOp} (hok : recoverable.Allowed Wholesome (Impl.init cfg now salt epoch) ops) :
    Uncommitted (recoverable.run (Impl.init cfg now salt epoch) ops).core :=
  run_invariant (I := fun s => Uncommitted s.core) (fun _ _ hop h => h.serve hop) (by intro _ _ hf; cases hf) hok

/-- A request that was handed out under an attempt is over, or queued under
another one. -/
def Impl.Settles (s : Impl) (q : RequestId × AttemptId) : Prop :=
  ∃ rec, s.requests.find q.1 = some rec ∧
    (isTerminal rec.state = true ∨ rec.state = .queued ∧ rec.currentAttempt ≠ q.2)

theorem Core.Past.settles {s : Impl} {f : IdFactory} {q : RequestId × AttemptId} (h : s.core.Past f q.1 q.2)
    (hrest : s.core.AtRest) : s.Settles q := by
  obtain ⟨rec, hf, hrec⟩ := h.record
  refine ⟨rec, hf, hrec.imp_right fun hpast => ⟨?_, hpast.1⟩⟩
  exact hpast.2.resolve_right (hrest.requests _ rec hf)

/-- **The driver settles every batch it dispatches.** From a reachable state at
rest, with the registered workers listed and an executor that answers every
request, `dispatch_one` and `run_until_idle` end at rest, and every member of a
batch they dispatched is over or queued under a new attempt, as long as the ids
drawn meanwhile are new. -/
theorem driver_settles_batches {ε : Type} {x : Executor ε} (hx : x.Answers) {cfg : SchedulerConfig} {now : ClockTime}
    {salt : UInt64} {epoch : Option SchedulerEpoch} {ops : List ServiceOp}
    (hok : recoverable.Allowed Wholesome (Impl.init cfg now salt epoch) ops) {σ : Session ε}
    (hσ : σ.sched = recoverable.run (Impl.init cfg now salt epoch) ops) (hlist : σ.driver.Lists σ.sched)
    (hrest : σ.sched.core.AtRest) :
    (σ.sched.core.DrawsFresh (σ.dispatchOne x).1.sched.idFactory →
      (σ.dispatchOne x).1.sched.core.AtRest ∧ ∀ q ∈ σ.batch x, (σ.dispatchOne x).1.sched.Settles q) ∧
    ∀ n, σ.sched.core.DrawsFresh (σ.runUntilIdle x n).sched.idFactory →
      (σ.runUntilIdle x n).sched.core.AtRest ∧ ∀ q ∈ σ.batches x n, (σ.runUntilIdle x n).sched.Settles q := by
  have hu : Uncommitted σ.sched.core := hσ ▸ Uncommitted.served hok
  refine ⟨fun hfresh => ?_, fun n hfresh => ?_⟩
  · obtain ⟨hend, hpast⟩ := Session.dispatchOne_settles hx hrest hlist hu hfresh (.refl _)
    exact ⟨hend, fun q hq => (hpast q hq).settles hend⟩
  · obtain ⟨hend, hpast⟩ := Session.runUntilIdle_settles hx n σ hrest hlist hu hfresh (.refl _)
    exact ⟨hend, fun q hq => (hpast q hq).settles hend⟩

/-- The one registered worker is the one listed. -/
theorem LocalDriver.Lists.one {s : Impl} {reg : WorkerRegistration}
    (h : s.pool.workers.records.map (fun wr => (wr.id, wr.registration.bootId)) = [(reg.worker, reg.bootId)]) :
    (LocalDriver.make [reg]).Lists s := by
  obtain ⟨wr, hrecords, hwr⟩ := List.map_eq_singleton_iff.1 h
  obtain ⟨hid, hboot⟩ := Prod.mk.inj hwr
  intro w
  have hone : ∀ w wr', s.pool.workers.find w = some wr' → wr' = wr := by
    refine Keyed.forall_find fun wr' hmem => ?_
    rw [hrecords] at hmem
    exact List.mem_singleton.1 hmem
  have hfound : s.pool.workers.find wr.id = some wr :=
    Keyed.mem_records.1 (by rw [hrecords]; exact List.mem_singleton_self wr)
  by_cases hw : reg.worker = w
  · subst hw
    rw [← hid, hfound]
    simp [findWorker, make, hid, hboot]
  · have hnone : s.pool.workers.find w = none := by
      rw [Option.eq_none_iff_forall_ne_some]
      intro wr' hwr'
      obtain rfl := hone w wr' hwr'
      exact hw (hid.symm.trans (Keyed.key_of_find hwr'))
    rw [hnone]
    simp [findWorker, make, hw]

/-- An executor that ends every request alike, in no time. -/
def Executor.uniform (status : CompletionStatus) (failureClass : FailureClass) : Executor Unit where
  run _ reqs := (reqs.map fun q =>
    { requestId := q.requestId, attemptId := q.attemptId, generation := q.generation, status := status,
      failureClass := failureClass }, ())
  elapse _ := (0, ())

theorem Executor.answers_uniform {status : CompletionStatus} (h : status.Settles) (failureClass : FailureClass) :
    (uniform status failureClass).Answers := by
  intro env reqs
  refine ⟨?_, fun res hres => ?_⟩
  · rw [uniform, List.map_map]
    exact .refl _
  · obtain ⟨q, _, rfl⟩ := List.mem_map.1 hres
    exact h
theorem Core.AtRest.of_records {c : Core} (hr : ∀ rec ∈ c.requests.records, ¬rec.Held)
    (hw : ∀ wr ∈ c.pool.workers.records, wr.Free) : c.AtRest :=
  ⟨Keyed.forall_find hr, Keyed.forall_find hw⟩

/-- A worker with a unit on it is in the way. -/
theorem Impl.not_atRest {s : Impl} {w : WorkerId}
    (h : (s.pool.workers.find w).any (fun wr => wr.reservedUnits + wr.runningUnits != 0) = true) : ¬s.core.AtRest := by
  intro hrest
  obtain ⟨wr, hw, hne⟩ := (Option.any_eq_true _ _).1 h
  have hfree := hrest.workers w wr hw
  simp [hfree.reserved, hfree.running] at hne

/-- Two requests that fail twice each, in batches of two. -/
theorem driver_settles_batches_retried :
    let x := Executor.uniform .failed .retryableWorker
    let ops : List Op := [.registerWorker (plainWorker 3), .submit plainSpec (some ⟨7⟩), .submit plainSpec (some ⟨8⟩)]
    let σ : Session Unit :=
      ⟨recoverable.run (Impl.init {} 0 0x80000001 none) (ops.map .op), .make [plainWorker 3], ()⟩
    (σ.batches x 2).length = 4 ∧ (σ.runUntilIdle x 2).sched.core.AtRest ∧
      ∀ q ∈ σ.batches x 2, (σ.runUntilIdle x 2).sched.Settles q := by
  intro x ops σ
  have hok : recoverable.Allowed Wholesome (Impl.init {} 0 0x80000001 none) (ops.map .op) :=
    allowed_wholesome (by decide +kernel)
  have hlist : σ.driver.Lists σ.sched := .one (by decide +kernel)
  have hrest : σ.sched.core.AtRest := .of_records (by decide +kernel) (by decide +kernel)
  have hfresh : σ.sched.core.DrawsFresh (σ.runUntilIdle x 2).sched.idFactory :=
    ⟨by decide +kernel, by decide +kernel, Keyed.forall_find (by decide +kernel)⟩
  have hx : x.Answers := Executor.answers_uniform (by simp [CompletionStatus.Settles]) _
  have hσ : σ.sched = recoverable.run (Impl.init {} 0 0x80000001 none) (ops.map .op) := rfl
  exact ⟨by decide +kernel, (driver_settles_batches hx hok hσ hlist hrest).2 2 hfresh⟩

/-- The state of a file in which the waiting request 7 is marked as cancelled. -/
def markedState : SavedState :=
  let img := (scheduler.run .durable [.registerWorker (plainWorker 3), .submit plainSpec (some ⟨7⟩)]).save
  { img with requests := img.requests.map fun r => { r with cancellationCommitted := 1 } }

/-- Its result is turned away, and its unit runs on. -/
theorem marked_batch_unsettled :
    let file := some (writeFrame markedState.encode)
    let σ : Session Unit := ⟨recoverable.run .durable [.recover file], .make [plainWorker 3], ()⟩
    let τ := (σ.dispatchOne (.uniform .succeeded .internal)).1
    Attended file ∧ σ.driver.Lists σ.sched ∧ σ.sched.core.AtRest ∧ σ.sched.core.DrawsFresh τ.sched.idFactory ∧
      ¬τ.sched.core.AtRest := by
  intro file σ τ
  refine ⟨fun payload img hfile hread => ?_, .one (by decide +kernel),
    .of_records (by decide +kernel) (by decide +kernel),
    ⟨by decide +kernel, by decide +kernel, Keyed.forall_find (by decide +kernel)⟩,
    Impl.not_atRest (w := ⟨3⟩) (by decide +kernel)⟩
  have hpayload : readPersistenceFile file = .ok markedState.encode :=
    readPersistenceFile_ok_iff.2 ⟨by decide +kernel, rfl⟩
  obtain rfl := Except.ok.inj (hpayload.symm.trans hfile)
  have himg : readable markedState.encode = some markedState := by decide +kernel
  have hall : ∀ r ∈ markedState.requests, r.live = true → r.history ≠ [] := by decide +kernel
  rw [himg] at hread
  exact Option.some.inj hread ▸ hall

/-- A batch under the invalid id, which deferred submissions have brought up, is
not released: its one request completes, and its unit stays reserved. And a
request that a recovered file marks as cancelled runs on. -/
theorem unsettled_batches :
    (let s := Impl.init { admission := { maxGlobalAdmitted := 1 } } 0 0xFFFFFFFF none
      let ops : List Op := [.registerWorker (plainWorker 3), .submit plainSpec (some ⟨7⟩)] ++
        (List.replicate (2 ^ 32 - 4) (.submit plainSpec none) ++ [])
      let σ : Session Unit := ⟨scheduler.run s ops, .make [plainWorker 3], ()⟩
      scheduler.Allowed FreshSubmit s ops ∧ σ.driver.Lists σ.sched ∧ σ.sched.core.AtRest ∧
        ¬(σ.dispatchOne (.uniform .succeeded .internal)).1.sched.core.AtRest) ∧
      let file := some (writeFrame markedState.encode)
      let σ : Session Unit := ⟨recoverable.run .durable [.recover file], .make [plainWorker 3], ()⟩
      let τ := (σ.dispatchOne (.uniform .succeeded .internal)).1
      Attended file ∧ σ.driver.Lists σ.sched ∧ σ.sched.core.AtRest ∧ σ.sched.core.DrawsFresh τ.sched.idFactory ∧
        ¬τ.sched.core.AtRest := by
  refine ⟨?_, marked_batch_unsettled⟩
  intro s ops σ
  have hv : validateSpec plainSpec = .ok () := by decide +kernel
  have hd : ((scheduler.run s [.registerWorker (plainWorker 3), .submit plainSpec (some ⟨7⟩)]).makeAdmission plainSpec
      (scheduler.run s [.registerWorker (plainWorker 3), .submit plainSpec (some ⟨7⟩)]).now).1 = .defer := by
    decide +kernel
  have hrun : scheduler.run s ops =
      (scheduler.run s [.registerWorker (plainWorker 3), .submit plainSpec (some ⟨7⟩)]).deferred (2 ^ 32 - 4) :=
    Impl.run_around _ hv hd []
  refine ⟨Impl.allowed_around _ hv hd (by decide +kernel)
    (Impl.freshSubmit_deferred (by decide +kernel) (Keyed.forall_find (by decide +kernel))) trivial, ?_⟩
  simp only [σ, hrun]
  exact ⟨.one (by decide +kernel), .of_records (by decide +kernel) (by decide +kernel),
    Impl.not_atRest (w := ⟨3⟩) (by decide +kernel)⟩

end InferenceScheduler
