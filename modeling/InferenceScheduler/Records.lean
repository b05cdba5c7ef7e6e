/-
What a move does to the records. One request record is written, in one of the
ways `Writes` lists, or a new one is stored; one worker record is written, in
one of the ways `Updates` lists.
-/
import InferenceScheduler.Simulation

namespace InferenceScheduler

/-- The record a move writes, before and after. -/
inductive Writes (c : Core) : Move → RequestRecord → RequestRecord → Prop
  | expire {rec} : Writes c (.expire rec) rec rec.expire
  | reserve {wr members rec} : rec.requestId ∈ members →
      Writes c (.reserve wr members) rec (rec.reserve c.ids.peek c.now)
  | start {rec wr snap} : Writes c (.start rec wr snap) rec (rec.start wr.id c.now)
  | finish {rec w e} : Writes c (.finish rec w e) rec (e.close (c.pool.released w (e.note c.now rec)))
  | cancel {rec asked w reason} : Writes c (.cancel rec asked w reason) rec
      ((c.unworked w { rec with cancelReason := asked }).cancel reason)
  | flag {rec asked} : Writes c (.flag rec asked) rec
      { rec with cancelReason := asked, cancellationRequested := true }
  | retry {rec r} : Writes c (.retry rec r) rec
      ((c.pool.released r.worker (rec.noteFailure r)).retry c.ids.peek c.ids.tick.peek c.now)

/-- A record a move stores under a new id. -/
inductive Stores (c : Core) : Move → RequestRecord → Prop
  | refuse {rec} : Stores c (.refuse rec) rec
  | accept {spec rid} :
      Stores c (.accept spec rid) (Impl.admittedRecord spec rid c.ids.peek c.ids.tick.peek c.now)

/-- The worker record a move writes, before and after. -/
inductive Updates (c : Core) : Move → WorkerRecord → WorkerRecord → Prop
  | reserve {wr members} :
      Updates c (.reserve wr members) wr (wr.takeBatch c.ids.peek (c.batchUnits members) members)
  | start {rec wr snap} :
      Updates c (.start rec wr snap) wr (wr.startMember rec.batchId rec.requestId rec.currentAttempt snap)
  | finish {rec e wr} : Updates c (.finish rec wr.id e) wr (wr.leave rec)
  | cancel {rec asked reason wr} : rec.onWorker = true → Updates c (.cancel rec asked wr.id reason) wr (wr.leave rec)
  | retry {rec r wr} : wr.id = r.worker → Updates c (.retry rec r) wr (wr.leave rec)
  | sweep {wr} : Updates c (.sweep wr.id) wr wr.sweep
  | set {wr wr'} : wr'.id = wr.id → wr.SameWork wr' → Updates c (.setWorker wr') wr wr'

namespace Ending

theorem note_requestId (now : ClockTime) (rec : RequestRecord) (e : Ending) :
    (e.note now rec).requestId = rec.requestId := by cases e <;> rfl

theorem close_requestId (rec : RequestRecord) (e : Ending) : (e.close rec).requestId = rec.requestId := by
  cases e <;> rfl

end Ending

namespace Core

/-! ## The members of a batch -/

section reserveMember

variable (bid : BatchId)

theorem foldl_reserveMember_find : ∀ (ids : List RequestId) (c : Core) (id' : RequestId), ids.Nodup →
    (ids.foldl (reserveMember bid) c).requests.find id' =
      if id' ∈ ids then (c.requests.find id').map (·.reserve bid c.now) else c.requests.find id'
  | [], _, _, _ => by simp
  | id :: ids, c, id', hn => by
    obtain ⟨hid, hn⟩ := List.nodup_cons.1 hn
    rw [List.foldl_cons, foldl_reserveMember_find ids _ id' hn, reserveMember_find,
      (reserveMember_frame bid c id).2.1]
    by_cases he : id = id'
    · subst he
      simp [hid]
    · simp [he, Ne.symm he]

theorem foldl_reserveMember_queued : ∀ (ids : List RequestId) (c : Core) (r : RequestId), ids.Nodup →
    (∀ id ∈ ids, (c.requests.find id).isSome) →
    (r ∈ (ids.foldl (reserveMember bid) c).ready.queued ↔ r ∈ c.ready.queued ∧ r ∉ ids)
  | [], _, _, _, _ => by simp
  | id :: ids, c, r, hn, hids => by
    obtain ⟨hid, hn⟩ := List.nodup_cons.1 hn
    obtain ⟨rec, hf⟩ := Option.isSome_iff_exists.1 (hids id List.mem_cons_self)
    have hkey : rec.requestId = id := Keyed.key_of_find hf
    have hone : r ∈ (c.reserveMember bid id).ready.queued ↔ r ≠ id ∧ r ∈ c.ready.queued := by
      simp only [reserveMember, hf, Ready.accountFlow, Ready.dequeue, USet.mem_erase, hkey]
    rw [List.foldl_cons, foldl_reserveMember_queued ids _ r hn, hone, List.mem_cons, not_or]
    · tauto
    · intro id' hid'
      rw [reserveMember_find, if_neg (by rintro rfl; exact hid hid')]
      exact hids id' (List.mem_cons_of_mem _ hid')

end reserveMember

theorem act_reserve_find {c : Core} {wr : WorkerRecord} {members : List RequestId} (hn : members.Nodup)
    (id : RequestId) : (c.act (.reserve wr members)).requests.find id =
      if id ∈ members then (c.requests.find id).map (·.reserve c.ids.peek c.now) else c.requests.find id :=
  foldl_reserveMember_find c.ids.peek members _ id hn

theorem act_reserve_frame (c : Core) (wr : WorkerRecord) (members : List RequestId) :
    (c.act (.reserve wr members)).cfg = c.cfg ∧ (c.act (.reserve wr members)).now = c.now ∧
      (c.act (.reserve wr members)).ids = c.ids.tick ∧
      (c.act (.reserve wr members)).pool = c.pool.reserve wr.id c.ids.peek (c.batchUnits members) members :=
  foldl_reserveMember_frame c.ids.peek members _

theorem act_reserve_queued {c : Core} {wr : WorkerRecord} {members : List RequestId}
    (h : Enabled c (.reserve wr members)) (r : RequestId) :
    r ∈ (c.act (.reserve wr members)).ready.queued ↔ r ∈ c.ready.queued ∧ r ∉ members := by
  refine foldl_reserveMember_queued c.ids.peek members _ r h.1 fun id hid => ?_
  obtain ⟨rec, hf, _⟩ := h.2.2.2.2 id hid
  exact Option.isSome_iff_exists.2 ⟨rec, hf⟩

/-! ## The ids after a move -/

theorem act_ids_extends (c : Core) (m : Move) : (c.act m).ids.Extends c.ids := by
  cases m with
  | draw => exact c.ids.extends_tick
  | accept | retry => exact c.ids.tick.extends_tick.trans c.ids.extends_tick
  | reserve wr members =>
    rw [(c.act_reserve_frame wr members).2.2.1]
    exact c.ids.extends_tick
  | _ => exact .refl _

/-! ## The records after a move -/

/-- A record stays, or it is the one the move writes. -/
theorem act_find {c : Core} {m : Move} {rid : RequestId} {rec : RequestRecord} (h : Enabled c m)
    (hf : c.requests.find rid = some rec) :
    ∃ rec', (c.act m).requests.find rid = some rec' ∧ (rec' = rec ∨ Writes c m rec rec') := by
  -- A move that writes one record over the stored one.
  have hput : ∀ {m : Move} {old new : RequestRecord}, Writes c m old new → c.Holds old →
      new.requestId = old.requestId →
      ∃ rec', (c.requests.put new).find rid = some rec' ∧ (rec' = rec ∨ Writes c m rec rec') := by
    intro m old new hw hold hid
    obtain ⟨rec', hf', hr⟩ := Keyed.find_put_over hold hid hf
    refine ⟨rec', hf', hr.imp_right ?_⟩
    intro hx
    obtain ⟨rfl, rfl⟩ := hx
    exact hw
  have hnew : ∀ new : RequestRecord, c.requests.find new.requestId = none →
      (c.requests.put new).find rid = some rec := by
    intro new hnone
    rw [Keyed.find_put_ne c.requests, hf]
    intro heq
    subst heq
    simp [hf] at hnone
  cases m with
  | advance | draw | pop | sleep | sweep | setWorker | dropWorker => exact ⟨rec, hf, .inl rfl⟩
  | refuse new => exact ⟨rec, hnew new h.1, .inl rfl⟩
  | accept spec id => exact ⟨rec, hnew (Impl.admittedRecord spec id c.ids.peek c.ids.tick.peek c.now) h, .inl rfl⟩
  | expire old => exact hput .expire h.1 rfl
  | reserve wr members =>
    rw [act_reserve_find h.1, hf]
    split
    · next hmem =>
      rw [← Keyed.key_of_find hf] at hmem
      exact ⟨_, rfl, .inr (.reserve hmem)⟩
    · exact ⟨rec, rfl, .inl rfl⟩
  | start old wr snap => exact hput .start h.1 rfl
  | finish old w e =>
    refine hput .finish h.1 ?_
    rw [Ending.close_requestId, Pool.released_requestId, Ending.note_requestId]
  | cancel old asked w reason => exact hput .cancel h.1 (c.unworked_requestId w _)
  | flag old asked => exact hput .flag h.1 rfl
  | retry old r => exact hput .retry h.1 (c.pool.released_requestId r.worker _)

/-- What a move writes is stored. -/
theorem find_of_writes {c : Core} {m : Move} {rec rec' : RequestRecord} (hw : Writes c m rec rec') (h : Enabled c m)
    (hf : c.Holds rec) : (c.act m).requests.find rec.requestId = some rec' := by
  have hput : ∀ new : RequestRecord, new.requestId = rec.requestId →
      (c.requests.put new).find rec.requestId = some new := by
    intro new hid
    rw [← hid]
    exact Keyed.find_put_self _ _
  cases hw with
  | expire | start | flag => exact hput _ rfl
  | reserve hmem =>
    rw [act_reserve_find h.1, if_pos hmem, show c.requests.find rec.requestId = some rec from hf]
    rfl
  | finish =>
    apply hput
    rw [Ending.close_requestId, Pool.released_requestId, Ending.note_requestId]
  | cancel => exact hput _ (c.unworked_requestId _ _)
  | retry => exact hput _ (c.pool.released_requestId _ _)

/-- A record that was not there is the one the move stores. -/
theorem act_find_none {c : Core} {m : Move} {rid : RequestId} {rec : RequestRecord} (h : Enabled c m)
    (hf : c.requests.find rid = none) (hf' : (c.act m).requests.find rid = some rec) : Stores c m rec := by
  -- A record written over a stored one is under another id.
  have hput : ∀ {old new : RequestRecord}, c.Holds old → new.requestId = old.requestId →
      (c.requests.put new).find rid ≠ some rec := by
    intro old new hold hid
    rw [Keyed.find_put_ne c.requests, hf]
    · simp
    · intro heq
      subst heq
      rw [hid, show c.requests.find old.requestId = some old from hold] at hf
      cases hf
  have hnew : ∀ {new : RequestRecord}, (c.requests.put new).find rid = some rec → rec = new := by
    intro new hn
    rw [Keyed.find_put, hf] at hn
    split at hn
    · exact (Option.some.inj hn).symm
    · cases hn
  cases m with
  | advance | draw | pop | sleep | sweep | setWorker | dropWorker => exact absurd (hf.symm.trans hf') (by simp)
  | refuse new =>
    rw [hnew hf']
    exact .refuse
  | accept spec id =>
    rw [hnew hf']
    exact .accept
  | expire old => exact absurd hf' (hput h.1 rfl)
  | reserve wr members =>
    rw [act_reserve_find h.1, hf] at hf'
    split at hf' <;> cases hf'
  | start old wr snap => exact absurd hf' (hput h.1 rfl)
  | finish old w e =>
    refine absurd hf' (hput h.1 ?_)
    rw [Ending.close_requestId, Pool.released_requestId, Ending.note_requestId]
  | cancel old asked w reason => exact absurd hf' (hput h.1 (c.unworked_requestId w _))
  | flag old asked => exact absurd hf' (hput h.1 rfl)
  | retry old r => exact absurd hf' (hput h.1 (c.pool.released_requestId r.worker _))

/-- The record after a move, from the record or its absence before. -/
theorem find_act {c : Core} {m : Move} {rid : RequestId} {rec' : RequestRecord} (h : Enabled c m)
    (hf' : (c.act m).requests.find rid = some rec') :
    Stores c m rec' ∨ ∃ rec, c.requests.find rid = some rec ∧ (rec' = rec ∨ Writes c m rec rec') := by
  cases hf : c.requests.find rid with
  | none => exact .inl (act_find_none h hf hf')
  | some rec =>
    obtain ⟨rec'', hf'', hr⟩ := act_find h hf
    obtain rfl : rec' = rec'' := Option.some.inj (hf'.symm.trans hf'')
    exact .inr ⟨rec, rfl, hr⟩

/-- An accepted request is written, and no other. -/
theorem find_act_accept {c : Core} {spec : RequestSpec} {rid r : RequestId} (h : r ≠ rid) :
    (c.act (.accept spec rid)).requests.find r = c.requests.find r :=
  Keyed.find_put_ne c.requests h.symm

/-- A retried request is written, and no other. -/
theorem find_act_retry {c : Core} {rec : RequestRecord} {rep : CompletionReport} {r : RequestId}
    (h : r ≠ rec.requestId) : (c.act (.retry rec rep)).requests.find r = c.requests.find r := by
  refine Keyed.find_put_ne c.requests ?_
  simpa [RequestRecord.retry, RequestRecord.noteFailure] using h.symm

/-! ## The workers after a move -/

/-- The worker record after a move, from the record or its absence before. -/
theorem find_worker_act {c : Core} {m : Move} {w : WorkerId} {wr' : WorkerRecord} (h : Enabled c m)
    (hf' : (c.act m).pool.workers.find w = some wr') :
    (c.pool.workers.find w = none ∧ m = .setWorker wr' ∧ WorkerRecord.SameWork {} wr') ∨
      ∃ wr, c.pool.workers.find w = some wr ∧ (wr' = wr ∨ Updates c m wr wr') := by
  -- A member leaves the worker `w'`.
  have hleave : ∀ {m : Move} {w' : WorkerId} {rec : RequestRecord},
      (∀ wr, wr.id = w' → Updates c m wr (wr.leave rec)) → (c.pool.releaseMember w' rec).workers.find w = some wr' →
      ∃ wr, c.pool.workers.find w = some wr ∧ (wr' = wr ∨ Updates c m wr wr') := by
    intro m w' rec hu hf'
    rw [Pool.find_releaseMember] at hf'
    split at hf'
    · next hw =>
      obtain ⟨wr, hf, rfl⟩ := Option.map_eq_some_iff.1 hf'
      have hid : wr.id = w := Keyed.key_of_find hf
      exact ⟨wr, hf, .inr (hu wr (hid.trans hw.symm))⟩
    · exact ⟨wr', hf', .inl rfl⟩
  cases m with
  | advance | draw | refuse | accept | expire | pop | sleep | flag => exact .inr ⟨wr', hf', .inl rfl⟩
  | reserve wr members =>
    rw [(c.act_reserve_frame wr members).2.2.2, Pool.find_reserve h.2.2.1] at hf'
    split at hf'
    · next hw =>
      cases hf'
      exact .inr ⟨wr, hw ▸ h.2.2.1, .inr .reserve⟩
    · exact .inr ⟨wr', hf', .inl rfl⟩
  | start rec wr snap =>
    rw [show (c.act (.start rec wr snap)).pool = c.pool.start wr rec.batchId rec.requestId rec.currentAttempt snap
      from rfl, Pool.find_start] at hf'
    split at hf'
    · next hw =>
      cases hf'
      exact .inr ⟨wr, hw ▸ h.2.2.1, .inr .start⟩
    · exact .inr ⟨wr', hf', .inl rfl⟩
  | finish rec w' e => exact .inr (hleave (fun wr hw => hw ▸ .finish) hf')
  | cancel rec asked w' reason =>
    simp only [act, put] at hf'
    split at hf'
    · next hon => exact .inr (hleave (fun wr hw => hw ▸ .cancel hon) hf')
    · exact .inr ⟨wr', hf', .inl rfl⟩
  | retry rec r => exact .inr (hleave (fun wr hw => .retry hw) hf')
  | sweep w' =>
    simp only [act, Pool.sweep] at hf'
    split at hf'
    · exact .inr ⟨wr', hf', .inl rfl⟩
    · next wr hf =>
      have hid : wr.id = w' := Keyed.key_of_find hf
      rw [Keyed.find_put, show wr.sweep.id = w' from hid] at hf'
      split at hf'
      · next hw =>
        cases hf'
        exact .inr ⟨wr, hw ▸ hf, .inr (hid ▸ .sweep)⟩
      · exact .inr ⟨wr', hf', .inl rfl⟩
  | setWorker new =>
    rw [show (c.act (.setWorker new)).pool = c.pool.putWorker new from rfl, Pool.find_putWorker] at hf'
    split at hf'
    · next hw =>
      cases hf'
      simp only [Enabled, hw] at h
      cases hf : c.pool.workers.find w with
      | none => exact .inl ⟨rfl, rfl, by simpa [hf] using h⟩
      | some wr =>
        have hid : wr.id = w := Keyed.key_of_find hf
        exact .inr ⟨wr, rfl, .inr (.set (hw.trans hid.symm) (by simpa [hf] using h))⟩
    · exact .inr ⟨wr', hf', .inl rfl⟩
  | dropWorker w' =>
    simp only [act, Keyed.find_erase] at hf'
    split at hf'
    · cases hf'
    · exact .inr ⟨wr', hf', .inl rfl⟩

end Core

/-- No move changes what was asked for. -/
theorem Writes.spec {c : Core} {m : Move} {rec rec' : RequestRecord} (hw : Writes c m rec rec') :
    rec'.spec = rec.spec := by
  cases hw with
  | expire | reserve | start | flag => rfl
  | @finish _ w e =>
    rcases c.pool.released_cases w (e.note c.now rec) with h | h <;> rw [h] <;> cases e <;> rfl
  | @cancel _ asked w reason =>
    rcases c.unworked_cases w { rec with cancelReason := asked } with h | h <;> rw [h] <;> rfl
  | retry => exact Pool.released_spec ..

/-- An ending that is counted leaves the request over. -/
theorem Ending.isTerminal_close {e : Ending} (he : e ≠ .stale) (p : Pool) (w : WorkerId) (now : ClockTime)
    (rec : RequestRecord) : isTerminal (e.close (p.released w (e.note now rec))).state = true := by
  cases e with
  | success => simp [close, note, RequestRecord.succeed, isTerminal]
  | failed | expired => rfl
  | stale => exact absurd rfl he

/-- Only a retry writes a request that waits over one that does not. -/
theorem Writes.waits {c : Core} {m : Move} {rec rec' : RequestRecord} (hw : Writes c m rec rec')
    (hs : rec'.state = .queued ∨ rec'.state = .admitted) : rec'.state = rec.state ∨ ∃ r, m = .retry rec r := by
  cases hw with
  | expire | reserve | start | cancel => rcases hs with hs | hs <;> cases hs
  | flag => exact .inl rfl
  | retry => exact .inr ⟨_, rfl⟩
  | @finish _ w e =>
    by_cases he : e = .stale
    · subst he
      simp [Ending.close, Ending.note, RequestRecord.noteStale]
    · have hend := Ending.isTerminal_close he c.pool w c.now rec
      rcases hs with hs | hs <;> simp [hs, isTerminal] at hend

/-! ## The attempts of a request -/

theorem onLast_concat (f : AttemptRecord → AttemptRecord) (a : AttemptRecord) :
    ∀ l : List AttemptRecord, onLast f (l ++ [a]) = l ++ [f a]
  | [] => rfl
  | [_] => rfl
  | b :: d :: l => congrArg (b :: ·) (onLast_concat f a (d :: l))

theorem map_onLast {α : Type} {g : AttemptRecord → α} {f : AttemptRecord → AttemptRecord} (hf : ∀ a, g (f a) = g a) :
    ∀ l : List AttemptRecord, (onLast f l).map g = l.map g
  | [] => rfl
  | [a] => by simp [onLast, hf]
  | a :: b :: l => congrArg (g a :: ·) (map_onLast hf (b :: l))

theorem length_onLast (f : AttemptRecord → AttemptRecord) (l : List AttemptRecord) : (onLast f l).length = l.length := by
  simpa using congrArg List.length (map_onLast (g := fun _ => ()) (f := f) (fun _ => rfl) l)

theorem onLast_id : ∀ l : List AttemptRecord, onLast id l = l
  | [] => rfl
  | [_] => rfl
  | a :: b :: l => congrArg (a :: ·) (onLast_id (b :: l))

/-- A request and its last attempt are over together, and complete together. -/
def EndsWith (state : RequestState) (last : AttemptState) : Prop :=
  (state = .completed ↔ last = .succeeded) ∧ (isTerminal state = true → last.isTerminal = true)

instance (state : RequestState) (last : AttemptState) : Decidable (EndsWith state last) :=
  inferInstanceAs (Decidable (_ ∧ _))

/-- A live request has not ended with an attempt that was found stale. -/
theorem endsWith_stale {state : RequestState} (h : isTerminal state = false) : EndsWith state .stale := by
  revert h
  cases state <;> decide

/-- A write over the last attempt. -/
structure Rewrites (rec rec' : RequestRecord) (f : AttemptRecord → AttemptRecord) : Prop where
  history : rec'.history = onLast f rec.history
  attempt : rec'.currentAttempt = rec.currentAttempt
  generation : rec'.generation = rec.generation
  keeps : ∀ a, (f a).attemptId = a.attemptId ∧ (f a).generation = a.generation
  ending : ∀ a, isTerminal rec.state = false → EndsWith rec.state a.state → EndsWith rec'.state (f a).state
  status : ∀ a, (f a).finalStatus ∈ [a.finalStatus, .succeeded, .failed, .cancelled]

/-- A new attempt after the last one has failed. -/
structure Follows (rec rec' : RequestRecord) (f : AttemptRecord → AttemptRecord) (new : AttemptRecord) : Prop where
  history : rec'.history = onLast f rec.history ++ [new]
  attempt : new.attemptId = rec'.currentAttempt
  generation : new.generation = rec'.generation
  keeps : ∀ a, (f a).attemptId = a.attemptId ∧ (f a).generation = a.generation
  failed : ∀ a, (f a).state = .failed
  ending : EndsWith rec'.state new.state
  status : new.finalStatus = .succeeded ∧ ∀ a, (f a).finalStatus = .failed

/-- A write is one over the last attempt, or a retry adds the next one under
ids it draws. -/
theorem Writes.history {c : Core} {m : Move} {rec rec' : RequestRecord} (hw : Writes c m rec rec') :
    (∃ f, Rewrites rec rec' f) ∨ ∃ r, m = .retry rec r ∧ rec'.currentAttempt = c.ids.tick.peek ∧
      rec'.generation = c.ids.peek ∧ ∃ f new, Follows rec rec' f new := by
  cases hw with
  | expire =>
    exact .inl ⟨_, rfl, rfl, rfl, fun _ => ⟨rfl, rfl⟩, fun _ _ _ => (by decide : EndsWith .expired .expired),
      fun _ => by simp⟩
  | reserve =>
    exact .inl ⟨_, rfl, rfl, rfl, fun _ => ⟨rfl, rfl⟩, fun _ _ _ => (by decide : EndsWith .reserved .reserved),
      fun _ => by simp⟩
  | start =>
    exact .inl ⟨_, rfl, rfl, rfl, fun _ => ⟨rfl, rfl⟩, fun _ _ _ => (by decide : EndsWith .running .running),
      fun _ => by simp⟩
  | flag => exact .inl ⟨id, (onLast_id _).symm, rfl, rfl, fun _ => ⟨rfl, rfl⟩, fun _ _ h => h, fun _ => by simp⟩
  | @finish _ w e =>
    left
    have hrel := c.pool.released_cases w (e.note c.now rec)
    cases e with
    | success r =>
      rcases hrel with h | h <;> rw [h] <;>
        exact ⟨_, rfl, rfl, rfl, fun _ => ⟨rfl, rfl⟩, fun _ _ _ => (by decide : EndsWith .completed .succeeded),
          fun _ => by simp⟩
    | failed r =>
      rcases hrel with h | h <;> rw [h] <;>
        exact ⟨_, rfl, rfl, rfl, fun _ => ⟨rfl, rfl⟩, fun _ _ _ => (by decide : EndsWith .failed .failed),
          fun _ => by simp⟩
    | expired =>
      rcases hrel with h | h <;> rw [h] <;>
        exact ⟨_, rfl, rfl, rfl, fun _ => ⟨rfl, rfl⟩, fun _ _ _ => (by decide : EndsWith .expired .expired),
          fun _ => by simp⟩
    | stale =>
      rcases hrel with h | h <;> rw [h] <;>
        exact ⟨_, rfl, rfl, rfl, fun _ => ⟨rfl, rfl⟩, fun _ ht _ => endsWith_stale ht, fun _ => by simp⟩
  | @cancel _ asked w reason =>
    left
    rcases c.unworked_cases w { rec with cancelReason := asked } with h | h <;> rw [h] <;>
      exact ⟨_, rfl, rfl, rfl, fun _ => ⟨rfl, rfl⟩, fun _ _ _ => (by decide : EndsWith .cancelled .cancelled),
        fun _ => by simp⟩
  | @retry _ r =>
    have hhistory : ((c.pool.released r.worker (rec.noteFailure r)).retry c.ids.peek c.ids.tick.peek c.now).history =
        (rec.noteFailure r).history ++
          [{ attemptId := c.ids.tick.peek, generation := c.ids.peek, state := .created, createdAt := c.now }] := by
      rw [RequestRecord.retry, Pool.released_history]
    exact .inr ⟨r, rfl, rfl, rfl, _, _, hhistory, rfl, rfl, fun _ => ⟨rfl, rfl⟩, fun _ => rfl,
      (by decide : EndsWith .queued .created), rfl, fun _ => rfl⟩

/-- The configuration is fixed. -/
theorem Core.act_cfg (c : Core) (m : Move) : (c.act m).cfg = c.cfg := by
  cases m with
  | reserve wr members => exact (c.act_reserve_frame wr members).1
  | _ => rfl

theorem Book.act_ids_extends (b : Book) (e : Entry) : (b.act e).core.ids.Extends b.core.ids := by
  cases e with
  | move m =>
    rw [act, move_core]
    exact b.core.act_ids_extends m
  | turnAway | dismiss | settle => exact .refl _
  | again => exact (IdFactory.extends_tick _).trans (IdFactory.extends_tick _)

theorem Book.act_cfg (b : Book) (e : Entry) : (b.act e).core.cfg = b.core.cfg := by
  cases e with
  | move m => rw [act, move_core, Core.act_cfg]
  | _ => rfl

/-! ## What was asked for -/

/-- What holds of the specs submitted holds of the specs stored. -/
theorem specs_post {ok : RequestSpec → Prop} {s : Impl} {op : Op} {b : Book} {e : Entry} (he : Posted s op b e)
    (hsub : ∀ spec pre, op = .submit spec pre → ok spec)
    (h : ∀ r rec, b.core.requests.find r = some rec → ok rec.spec) (r : RequestId) (rec : RequestRecord)
    (hf : (b.act e).core.requests.find r = some rec) : ok rec.spec := by
  cases e with
  | move m =>
    rw [show (b.act (.move m)).core = b.core.act m from b.move_core m] at hf
    obtain ⟨⟨hen, hdoes⟩, hback⟩ := he
    rcases Core.find_act hen hf with hst | ⟨old, hold, rfl | hw⟩
    · cases hst with
      | refuse =>
        obtain ⟨⟨pre, hop⟩, _⟩ := hback
        exact hsub _ _ hop
      | accept =>
        obtain ⟨_, _, pre, hop, _⟩ := hback
        exact hsub _ _ hop
    · exact h r _ hold
    · rw [hw.spec]
      exact h r old hold
  | again old spec =>
    have hput : (b.core.requests.put { old with state := .queued, queuedAt := b.core.now }).find r = some rec := hf
    rw [Keyed.find_put] at hput
    split at hput
    · cases hput
      exact h _ old he.2.1
    · exact h r rec hput
  | _ => exact h r rec hf

/-- A submission that is not valid changes nothing. -/
theorem specs_next {ok : RequestSpec → Prop} {s : Impl} {op : Op}
    (hsub : ∀ spec pre, op = .submit spec pre → validateSpec spec = .ok () → ok spec)
    (h : ∀ r rec, s.requests.find r = some rec → ok rec.spec) (r : RequestId) (rec : RequestRecord)
    (hf : (scheduler.next s op).requests.find r = some rec) : ok rec.spec := by
  by_cases hbad : ∃ spec pre e, op = .submit spec pre ∧ validateSpec spec = .error e
  · obtain ⟨spec, pre, e, rfl, he⟩ := hbad
    have hsame : scheduler.next s (.submit spec pre) = s := by
      show (s.doSubmit spec pre).1 = s
      simp only [Impl.doSubmit, he]
    rw [hsame] at hf
    exact h r rec hf
  · refine posts_invariant (I := fun b => ∀ r rec, b.core.requests.find r = some rec → ok rec.spec)
      (fun b e he hb => specs_post he (fun spec pre hop => ?_) hb) h r rec hf
    cases hv : validateSpec spec with
    | error e => exact absurd ⟨spec, pre, e, hop, hv⟩ hbad
    | ok => exact hsub spec pre hop hv

end InferenceScheduler
