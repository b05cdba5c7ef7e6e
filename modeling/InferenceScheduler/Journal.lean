/-
The events as a journal of the requests (`src/scheduler.cpp`, `emit_event` and
`drain_events`). An observer who knows nothing but the events keeps the state
and the attempt of every request and checks each event against them; it ends
with what the scheduler has stored. A client that polls sees from the numbers
alone whether it has missed an event.
-/
import InferenceScheduler.Emission
import InferenceScheduler.Frozen

namespace InferenceScheduler

/-! ## The observer -/

/-- What the events say about a request. -/
structure Sighting where
  state : RequestState
  attempt : AttemptId

/-- The state in which an event leaves a request that has not ended, if it may
come in this one. -/
def moved (type : String) (state : RequestState) : Option RequestState :=
  if type = "queued" then if state = .queued then some state else none
  else if type = "reserved" then if state = .queued ∨ state = .admitted then some .reserved else none
  else if type = "running" then if state = .reserved then some .running else none
  else if type = "cancel_requested" then if state = .dispatched ∨ state = .running then some state else none
  else if type = "completed" then some .completed
  else if type = "failed" then some .failed
  else if type = "cancelled" then some .cancelled
  else if type = "expired" then some .expired
  else none

/-- What an event makes of a sighting. The first event of a request admits it
to the queue or turns it down, the last one ends it; a retry brings a new
attempt, and every other event is about the current one. -/
def observe (type : String) (attempt : AttemptId) : Option Sighting → Option Sighting
  | none =>
    if type = "admitted" then some ⟨.queued, attempt⟩
    else if type = "rejected" then some ⟨.rejected, attempt⟩
    else if type = "expired" then some ⟨.expired, attempt⟩
    else none
  | some seen =>
    if isTerminal seen.state then none
    else if type = "retry" then some ⟨.queued, attempt⟩
    else if attempt = seen.attempt then (moved type seen.state).map (⟨·, attempt⟩)
    else none

/-- The events that are about no request. -/
def aboutNone : List String :=
  ["worker_registered", "worker_updated", "worker_state", "worker_unregistered", "drain_started", "epoch_rollover"]

/-- The observer takes note of an event, or finds it out of place. -/
def watch (seen : RequestId → Option Sighting) (e : SchedulerEvent) : Option (RequestId → Option Sighting) :=
  if e.type ∈ aboutNone then some seen
  else (observe e.type e.attemptId (seen e.requestId)).map fun now => Function.update seen e.requestId (some now)

/-- What the observer has learnt from some events. -/
def replay (seen : RequestId → Option Sighting) (es : List SchedulerEvent) : Option (RequestId → Option Sighting) :=
  es.foldlM watch seen

/-- What the scheduler has stored, as the observer would see it. -/
def Impl.sightings (s : Impl) (r : RequestId) : Option Sighting :=
  (s.requests.find r).map fun rec => ⟨rec.state, rec.currentAttempt⟩

/-! ## What the events of a move tell -/

def SchedulerEvent.topic (e : SchedulerEvent) : Topic := ⟨e.type, e.requestId, e.attemptId⟩

theorem Account.events_topic (notes : List Note) (a : Account) :
    (a.events notes).map SchedulerEvent.topic = notes.map Note.topic := by
  induction notes generalizing a with
  | nil => rfl
  | cons n notes ih => exact congrArg (n.topic :: ·) (ih (a.tell n))

namespace Core

/-- The same of the core. -/
def sightings (c : Core) (r : RequestId) : Option Sighting :=
  (c.requests.find r).map fun rec => ⟨rec.state, rec.currentAttempt⟩

variable {c c' : Core} {rec fin : RequestRecord}

theorem sightings_of_find {r : RequestId} (h : c.requests.find r = some rec) :
    c.sightings r = some ⟨rec.state, rec.currentAttempt⟩ := by rw [sightings, h, Option.map_some]

/-- A record is written. -/
theorem sightings_put (h : c'.requests = c.requests.put fin) :
    c'.sightings = Function.update c.sightings fin.requestId (some ⟨fin.state, fin.currentAttempt⟩) := by
  funext r
  rw [sightings, h, Keyed.find_put, Function.update_apply]
  by_cases hr : r = fin.requestId
  · rw [if_pos hr.symm, if_pos hr, Option.map_some]
  · rw [if_neg (Ne.symm hr), if_neg hr, sightings]

/-- The events about `topics` tell the way from `c` to `c'`. -/
def Told (c : Core) (topics : List Topic) (c' : Core) : Prop :=
  ∀ es : List SchedulerEvent, es.map SchedulerEvent.topic = topics → replay c.sightings es = some c'.sightings

namespace Told

theorem silent (h : c'.requests = c.requests) : c.Told [] c' := by
  intro es hes
  rw [List.map_eq_nil_iff.1 hes, show c'.sightings = c.sightings from funext fun r => by rw [sightings, h, sightings]]
  rfl

theorem trans {c'' : Core} {ts ts' : List Topic} (h : c.Told ts c') (h' : c'.Told ts' c'') : c.Told (ts ++ ts') c'' := by
  intro es hes
  obtain ⟨es₁, es₂, rfl, h₁, h₂⟩ := List.map_eq_append_iff.1 hes
  have hfirst := h es₁ h₁
  rw [replay] at hfirst ⊢
  rw [List.foldlM_append, hfirst]
  exact h' es₂ h₂

theorem one {type : String} {rid : RequestId} {aid : AttemptId}
    (h : ∀ e : SchedulerEvent, e.type = type → e.requestId = rid → e.attemptId = aid →
      watch c.sightings e = some c'.sightings) : c.Told [⟨type, rid, aid⟩] c' := by
  intro es hes
  obtain ⟨e, rfl, he⟩ := List.map_eq_singleton_iff.1 hes
  rw [replay, List.foldlM_cons, h e (congrArg Topic.type he) (congrArg Topic.request he) (congrArg Topic.attempt he)]
  rfl

/-- One event about a request that is written. -/
theorem put {type : String} {aid : AttemptId} {rid : RequestId} (fin : RequestRecord) (h : c'.requests = c.requests.put fin)
    (hid : fin.requestId = rid) (htype : type ∉ aboutNone)
    (hnow : observe type aid (c.sightings rid) = some ⟨fin.state, fin.currentAttempt⟩) :
    c.Told [⟨type, rid, aid⟩] c' := by
  refine one fun e he hr ha => ?_
  rw [watch, he, if_neg htype, ha, hr, hnow, Option.map_some, sightings_put h, hid]

/-- One event about a request that has not ended: it stays under its attempt. -/
theorem live {type : String} (fin : RequestRecord) (hf : c.Holds rec) (h : c'.requests = c.requests.put fin)
    (hid : fin.requestId = rec.requestId) (haid : fin.currentAttempt = rec.currentAttempt)
    (hlive : isTerminal rec.state = false) (hmoved : moved type rec.state = some fin.state)
    (htype : type ∉ aboutNone ∧ type ≠ "retry") : c.Told [⟨type, rec.requestId, rec.currentAttempt⟩] c' := by
  refine put fin h hid htype.1 ?_
  rw [sightings_of_find hf, observe, if_neg (by simp [hlive]), if_neg htype.2, if_pos rfl, hmoved, haid]
  rfl

/-- One event about no request. -/
theorem aside {type : String} {rid : RequestId} {aid : AttemptId} (htype : type ∈ aboutNone)
    (h : c'.requests = c.requests) : c.Told [⟨type, rid, aid⟩] c' :=
  one fun e he _ _ => by
    rw [watch, he, if_pos htype, show c'.sightings = c.sightings from funext fun r => by rw [sightings, h, sightings]]

end Told

theorem told_refuse (hen : Enabled c (.refuse rec)) (hstate : rec.state = .expired ∨ rec.state = .rejected) :
    c.Told (c.topics (.refuse rec)) (c.act (.refuse rec)) := by
  have hnone : c.sightings rec.requestId = none := by rw [sightings, hen.1, Option.map_none]
  rcases hstate with h | h
  all_goals
    simp only [topics, h, reduceCtorEq, ↓reduceIte]
    exact .put rec rfl rfl (by decide) (by rw [hnone, h]; rfl)

theorem told_accept {spec : RequestSpec} {rid : RequestId} (h : c.requests.find rid = none) :
    c.Told (c.topics (.accept spec rid)) (c.act (.accept spec rid)) := by
  have hnone : c.sightings rid = none := by rw [sightings, h, Option.map_none]
  let fin : RequestRecord :=
    { Impl.admittedRecord spec rid c.ids.peek c.ids.tick.peek c.now with state := .queued, queuedAt := c.now }
  have hfin : (c.act (.accept spec rid)).Holds fin := Keyed.find_put_self c.requests fin
  have hadmitted : c.Told [⟨"admitted", rid, c.ids.tick.peek⟩] (c.act (.accept spec rid)) :=
    .put fin rfl rfl (by decide) (by rw [hnone]; rfl)
  exact hadmitted.trans (.live fin hfin (Keyed.put_put c.requests rfl).symm rfl rfl rfl rfl (by decide))

/-- A negative `max_wait` leaves expiries untold. -/
theorem told_expire (hen : Enabled c (.expire rec)) (hwait : 0 ≤ c.cfg.batch.maxWait)
    (hvalid : rec.spec.deadline.valid = true) : c.Told (c.topics (.expire rec)) (c.act (.expire rec)) := by
  rw [topics, if_pos (logsExpiry_iff.2 ⟨hwait, hvalid⟩)]
  exact .live rec.expire hen.1 rfl rfl rfl (by rw [hen.2]; rfl) rfl (by decide)

theorem told_foldl_reserveMember (bid : BatchId) (ids : List RequestId) (c : Core) (hnodup : ids.Nodup)
    (hrun : ∀ id ∈ ids, ∃ m, c.requests.find id = some m ∧ (m.state = .queued ∨ m.state = .admitted)) :
    c.Told (ids.map fun id => ⟨"reserved", id, ((c.requests.find id).getD {}).currentAttempt⟩)
      (ids.foldl (reserveMember bid) c) := by
  induction ids generalizing c with
  | nil => exact .silent rfl
  | cons id ids ih =>
    obtain ⟨hid, hnodup⟩ := List.nodup_cons.1 hnodup
    obtain ⟨m, hm, hstate⟩ := hrun id List.mem_cons_self
    have hother : ∀ j ∈ ids, (c.reserveMember bid id).requests.find j = c.requests.find j := by
      intro j hj
      rw [reserveMember_find, if_neg (by rintro rfl; exact hid hj)]
    have hfirst : c.Told [⟨"reserved", id, ((c.requests.find id).getD {}).currentAttempt⟩] (c.reserveMember bid id) := by
      obtain rfl : m.requestId = id := Keyed.key_of_find hm
      rw [hm, Option.getD_some]
      refine .live (m.reserve bid c.now) hm (by simp only [reserveMember, hm]) rfl rfl ?_ (if_pos hstate) (by decide)
      rcases hstate with h | h <;> rw [h] <;> rfl
    have hrest := ih (c.reserveMember bid id) hnodup fun j hj => by
      rw [hother j hj]
      exact hrun j (List.mem_cons_of_mem id hj)
    rw [List.map_congr_left fun j hj => by rw [hother j hj]] at hrest
    exact hfirst.trans hrest

theorem told_finish {w : WorkerId} {e : Ending} (hen : Enabled c (.finish rec w e)) :
    c.Told (c.topics (.finish rec w e)) (c.act (.finish rec w e)) := by
  obtain ⟨hf, hlive, _⟩ := hen
  cases e with
  | success r =>
    exact .live ((Ending.success r).close (c.pool.released w ((Ending.success r).note c.now rec))) hf rfl
      (Pool.released_requestId ..) (Pool.released_currentAttempt ..) hlive (by rw [Ending.close, Pool.released_state]; rfl)
      (by decide)
  | failed r =>
    exact .live ((Ending.failed r).close (c.pool.released w ((Ending.failed r).note c.now rec))) hf rfl
      (Pool.released_requestId ..) (Pool.released_currentAttempt ..) hlive rfl (by decide)
  | expired =>
    exact .live (Ending.expired.close (c.pool.released w (Ending.expired.note c.now rec))) hf rfl
      (Pool.released_requestId ..) (Pool.released_currentAttempt ..) hlive rfl (by decide)
  | stale =>
    -- A report of `Stale` writes the attempt, which no event tells.
    have hsame : (c.act (.finish rec w .stale)).sightings = c.sightings := by
      refine (sightings_put rfl).trans ?_
      refine Function.update_eq_iff.2 ⟨?_, fun _ _ => rfl⟩
      simp only [Ending.close, Ending.note, RequestRecord.noteStale, Pool.released_state, Pool.released_currentAttempt,
        Pool.released_requestId, sightings_of_find hf]
    intro es hes
    rw [List.map_eq_nil_iff.1 hes, hsame]
    rfl

theorem told_retry {r : CompletionReport} (hen : Enabled c (.retry rec r)) :
    c.Told (c.topics (.retry rec r)) (c.act (.retry rec r)) := by
  obtain ⟨hf, hlive, _⟩ := hen
  refine .put _ rfl (Pool.released_requestId ..) (by decide) ?_
  rw [sightings_of_find hf, observe, if_neg (by simp [hlive]), if_pos rfl]
  rfl

end Core

/-- **The events of an entry tell what it changes**, if a submission is under a
fresh id; a negative `max_wait` leaves expiries untold. -/
theorem Posted.told {s : Impl} {op : Op} {b : Book} {e : Entry} {notes : List Note} (h : Posted s op b e)
    (hvoiced : Voiced b.core notes e) (hfresh : FreshSubmit s op) (hwait : 0 ≤ b.core.cfg.batch.maxWait) :
    b.core.Told (notes.map Note.topic) (b.act e).core := by
  cases e with
  | turnAway | settle t =>
    rw [show notes = [] from hvoiced]
    exact .silent rfl
  | dismiss late => exact absurd hfresh h
  | again rec spec => exact absurd hfresh h.1
  | move m =>
    obtain ⟨⟨hen, _⟩, hbacked⟩ := h
    rw [show (b.act (.move m)).core = b.core.act m from b.move_core m]
    cases m with
    | setWorker wr | dropWorker w =>
      obtain ⟨n, rfl, htype⟩ := hvoiced
      have hnone : ∀ type ∈ workerEvents, type ∈ aboutNone := by decide
      exact .aside (hnone _ htype) rfl
    | refuse rec =>
      rw [hvoiced]
      exact Core.told_refuse hen hbacked.2
    | accept spec rid =>
      rw [hvoiced]
      exact Core.told_accept hen
    | expire rec =>
      rw [hvoiced]
      exact Core.told_expire hen hwait (Bool.and_eq_true_iff.1 hbacked).1
    | reserve wr members =>
      rw [hvoiced]
      exact Core.told_foldl_reserveMember b.core.ids.peek members
        { b.core with
          ids := b.core.ids.tick
          pool := b.core.pool.reserve wr.id b.core.ids.peek (b.core.batchUnits members) members } hen.1 hen.2.2.2.2
    | start rec wr snap =>
      rw [hvoiced]
      obtain ⟨hf, hstate, _⟩ := hen
      exact .live (rec.start wr.id b.core.now) hf rfl rfl rfl (by rw [hstate]; rfl) (by rw [hstate]; rfl) (by decide)
    | finish rec w e =>
      rw [hvoiced]
      exact Core.told_finish hen
    | cancel rec asked w reason =>
      rw [hvoiced]
      refine .live _ hen.1 rfl (Core.unworked_requestId ..) ?_ hen.2 rfl (by decide)
      rcases b.core.unworked_cases w { rec with cancelReason := asked } with h | h <;> rw [h] <;> rfl
    | flag rec asked =>
      rw [hvoiced]
      obtain ⟨hf, hstate⟩ := hen
      refine .live _ hf rfl rfl rfl ?_ (if_pos hstate) (by decide)
      rcases hstate with h | h <;> rw [h] <;> rfl
    | retry rec r =>
      rw [hvoiced]
      exact Core.told_retry hen
    | advance n | draw | pop k n | sleep k | sweep w =>
      rw [hvoiced]
      exact .silent rfl

namespace Impl

/-- The events from `s` to `s'` tell what has changed. -/
structure Tells (s s' : Impl) : Prop where
  wait : s'.cfg.batch.maxWait = s.cfg.batch.maxWait
  told : 0 ≤ s.cfg.batch.maxWait →
    ∃ es, Emitted es s.eventLog s.eventSeq s'.eventLog s'.eventSeq ∧ replay s.sightings es = some s'.sightings

/-- One effect of an operation. -/
theorem told_effect {s : Impl} {op : Op} {a : Account} {f : Deed} (hf : Effected s op a f) (hfresh : FreshSubmit s op)
    (hwait : 0 ≤ a.book.core.cfg.batch.maxWait) :
    replay a.book.core.sightings (a.said f) = some (a.act f).book.core.sightings := by
  cases f with
  | post e notes =>
    rw [a.act_post_book e notes]
    exact hf.1.told hf.2 hfresh hwait _ (Account.events_topic notes _)
  | drain n | roll n =>
    have htype : n.type ∈ aboutNone := by
      rw [hf.2]
      decide
    have haside : a.book.core.Told [n.topic] a.book.core := .aside htype rfl
    exact haside [_] rfl

/-- **Every operation tells what it changes**, if a submission is under a fresh
id. -/
theorem step_tells {s : Impl} {op : Op} (hfresh : FreshSubmit s op) : Tells s (scheduler.next s op) := by
  have hall := (step_effects s op).invariant (I := fun a => a.book.core.cfg = s.cfg ∧ (0 ≤ s.cfg.batch.maxWait →
    ∃ es, Emitted es s.eventLog s.eventSeq a.log a.seq ∧ replay s.sightings es = some a.book.core.sightings)) ?_
    ⟨rfl, fun _ => ⟨[], .refl _ _, rfl⟩⟩
  · exact ⟨congrArg (·.batch.maxWait) hall.1, hall.2⟩
  · intro a f hf ha
    obtain ⟨hcfg, htold⟩ := ha
    refine ⟨?_, fun hwait => ?_⟩
    · cases f with
      | post e notes =>
        rw [show (accounts.next a (.post e notes)).book = a.book.act e from a.act_post_book e notes, Book.act_cfg]
        exact hcfg
      | drain n | roll n => exact hcfg
    · obtain ⟨es, hem, hreplay⟩ := htold hwait
      refine ⟨es ++ a.said f, hem.append (a.act_emitted f), ?_⟩
      rw [replay] at hreplay ⊢
      rw [List.foldlM_append, hreplay]
      exact told_effect hf hfresh (hcfg ▸ hwait)

end Impl

/-! ## Polling -/

/-- `drain_events`. -/
def Impl.drainEvents (s : Impl) : Impl × List SchedulerEvent := ({ s with eventLog := [] }, s.eventLog)

/-- The scheduler, and what its client has taken so far. -/
structure Poller where
  impl : Impl
  got : List SchedulerEvent := []

inductive PollOp
  | op (op : Op)
  | drain

namespace Poller

def step (σ : Poller) : PollOp → Poller
  | .op op => { σ with impl := scheduler.next σ.impl op }
  | .drain => { impl := σ.impl.drainEvents.1, got := σ.got ++ σ.impl.drainEvents.2 }

/-- Every event that is not lost. -/
def events (σ : Poller) : List SchedulerEvent := σ.got ++ σ.impl.eventLog

def numbers (σ : Poller) : List ℕ := σ.events.map (·.sequence)

/-- No number is missing. -/
def Gapless (σ : Poller) : Prop := σ.numbers = List.range' 1 σ.impl.eventSeq

instance (σ : Poller) : Decidable σ.Gapless := inferInstanceAs (Decidable (_ = _))

/-- Submissions are under fresh ids. -/
def Fresh (σ : Poller) : PollOp → Prop
  | .op op => FreshSubmit σ.impl op
  | .drain => True

/-- The log has room for the events of the operation. -/
def Roomy (σ : Poller) : PollOp → Prop
  | .op op => σ.impl.eventLog.length + ((scheduler.next σ.impl op).eventSeq - σ.impl.eventSeq) ≤ 65536
  | .drain => True

instance (σ : Poller) : ∀ i, Decidable (σ.Fresh i)
  | .op op => inferInstanceAs (Decidable (FreshSubmit σ.impl op))
  | .drain => .isTrue trivial

end Poller

def polling : Machine Poller PollOp Unit := ⟨fun σ i => (σ.step i, ())⟩

namespace Poller

/-- All events so far are `es`: they tell the state, and the client has met a
part of them or will. -/
structure Followed (σ : Poller) (es : List SchedulerEvent) : Prop where
  wait : 0 ≤ σ.impl.cfg.batch.maxWait
  numbers : es.map (·.sequence) = List.range' 1 σ.impl.eventSeq
  told : replay (fun _ => none) es = some σ.impl.sightings
  kept : σ.events.Sublist es
  room : σ.impl.eventLog.length ≤ 65536

variable {σ : Poller} {es : List SchedulerEvent}

theorem Followed.length_events (h : σ.Followed es) : es.length = σ.impl.eventSeq := by
  simpa using congrArg List.length h.numbers

/-- No number is missing exactly if nothing is. -/
theorem Followed.gapless_iff (h : σ.Followed es) : σ.Gapless ↔ σ.events.length = σ.impl.eventSeq := by
  constructor
  · intro hgap
    simpa [Poller.numbers] using congrArg List.length hgap
  · intro hlen
    rw [Gapless, Poller.numbers, h.kept.eq_of_length (hlen.trans h.length_events.symm), h.numbers]

theorem Followed.ordered (h : σ.Followed es) : σ.numbers.Pairwise (· < ·) :=
  (h.numbers ▸ List.pairwise_lt_range' : (es.map (·.sequence)).Pairwise (· < ·)).sublist (h.kept.map _)

theorem Followed.replay_events (h : σ.Followed es) (hgap : σ.Gapless) :
    replay (fun _ => none) σ.events = some σ.impl.sightings := by
  rw [h.kept.eq_of_length ((h.gapless_iff.1 hgap).trans h.length_events.symm), h.told]

/-- One operation, or one call of `drain_events`. -/
theorem Followed.step (h : σ.Followed es) {i : PollOp} (hi : σ.Fresh i) :
    (∃ es', (σ.step i).Followed es') ∧ ((σ.step i).Gapless ↔ σ.Gapless ∧ σ.Roomy i) := by
  cases i with
  | drain =>
    have hevents : (σ.step .drain).events = σ.events := List.append_nil _
    refine ⟨⟨es, h.wait, h.numbers, h.told, hevents ▸ h.kept, Nat.zero_le _⟩, ?_⟩
    rw [Gapless, Poller.numbers, hevents]
    exact (and_iff_left trivial).symm
  | op op =>
    have htells := Impl.step_tells hi
    obtain ⟨new, hem, hnew⟩ := htells.told h.wait
    obtain ⟨m, hm⟩ : ∃ m : Mailbox ℕ SchedulerEvent, m.log = σ.impl.eventLog := ⟨⟨σ.impl.eventLog, [], [], []⟩, rfl⟩
    have hlog : (scheduler.next σ.impl op).eventLog = (m.posts 65536 new).log := by
      rw [hem.log, Mailbox.posts_log, hm]
    have hkept := m.posts_log_sublist 65536 new
    have hlength := m.posts_log_length 65536 new (hm ▸ h.room)
    rw [← hlog, hm] at hkept hlength
    have hcount : (σ.step (.op op)).impl.eventSeq = σ.impl.eventSeq + new.length := hem.count
    have hfollowed : (σ.step (.op op)).Followed (es ++ new) := by
      refine ⟨htells.wait ▸ h.wait, ?_, ?_, ?_, ?_⟩
      · rw [List.map_append, h.numbers, hem.numbers, hcount, ← List.range'_append_1, add_comm 1]
      · rw [replay, List.foldlM_append, ← replay, h.told]
        exact hnew
      · have hall := (List.Sublist.refl σ.got).append hkept
        rw [← List.append_assoc] at hall
        exact hall.trans (h.kept.append_right new)
      · exact hlength.trans_le (min_le_left _ _)
    refine ⟨⟨_, hfollowed⟩, ?_⟩
    have hle : σ.events.length ≤ σ.impl.eventSeq := h.length_events ▸ h.kept.length_le
    have hall : (σ.step (.op op)).events.length = σ.got.length + min 65536 (σ.impl.eventLog.length + new.length) := by
      rw [events, List.length_append]
      exact congrArg _ hlength
    rw [events, List.length_append] at hle
    rw [hfollowed.gapless_iff, h.gapless_iff, hall, hcount, Roomy, hem.count, events, List.length_append]
    omega

theorem Followed.run {is : List PollOp} (h : σ.Followed es) (his : polling.Allowed Fresh σ is) :
    (∃ es', (polling.run σ is).Followed es') ∧
      ((polling.run σ is).Gapless ↔ σ.Gapless ∧ polling.Allowed Roomy σ is) := by
  induction is generalizing σ es with
  | nil => exact ⟨⟨es, h⟩, (and_iff_left trivial).symm⟩
  | cons i is ih =>
    obtain ⟨⟨es', hstep⟩, hgap⟩ := h.step his.1
    obtain ⟨hlast, hrest⟩ := ih hstep his.2
    refine ⟨hlast, hrest.trans ?_⟩
    rw [Machine.Allowed, hgap, and_assoc]
    rfl

end Poller

/-- **The events are the whole story, and a client sees when they are not.** For
a scheduler whose expiries are told, whatever is called and whenever the client
polls: the events are numbered upwards; if no number is missing, an observer who
knows nothing else replays them without a surprise and ends with every request's
state and attempt; and no number is missing exactly if every operation had room
for its events. -/
theorem polled_events_rebuild {cfg : SchedulerConfig} {now : ClockTime} {salt : UInt64} {epoch : Option SchedulerEpoch}
    (hwait : 0 ≤ cfg.batch.maxWait) {is : List PollOp}
    (his : polling.Allowed Poller.Fresh ⟨Impl.init cfg now salt epoch, []⟩ is) :
    let σ := polling.run ⟨Impl.init cfg now salt epoch, []⟩ is
    σ.numbers.Pairwise (· < ·) ∧ (σ.Gapless → replay (fun _ => none) σ.events = some σ.impl.sightings) ∧
      (σ.Gapless ↔ polling.Allowed Poller.Roomy ⟨Impl.init cfg now salt epoch, []⟩ is) := by
  intro σ
  have hinit : Poller.Followed ⟨Impl.init cfg now salt epoch, []⟩ [] := ⟨hwait, rfl, rfl, .refl _, Nat.zero_le _⟩
  obtain ⟨⟨es, h⟩, hgap⟩ := hinit.run his
  exact ⟨h.ordered, h.replay_events, hgap.trans (and_iff_right rfl)⟩

/-- A request that is retried once, and another that is cancelled after a poll. -/
theorem polled_events_rebuild_retry :
    let s : Impl := Impl.init {} 0 0x80000001 none
    let is : List PollOp := [.op (.registerWorker (plainWorker 1)), .op (.submit plainSpec (some ⟨7⟩)), .drain,
      .op (.planDispatch ⟨7⟩ false), .op (.complete (firstReport 1 .failed)), .op (.submit plainSpec (some ⟨8⟩)),
      .drain, .op (.cancel ⟨8⟩ .clientRequested "")]
    let σ := polling.run ⟨s, []⟩ is
    σ.got.map (·.type) = ["worker_registered", "admitted", "queued", "reserved", "retry", "admitted", "queued"] ∧
      σ.impl.eventLog.map (·.type) = ["cancelled"] ∧ σ.Gapless ∧
      replay (fun _ => none) σ.events = some σ.impl.sightings := by
  intro s is σ
  have his : polling.Allowed Poller.Fresh ⟨s, []⟩ is := by decide +kernel
  have hgap : σ.Gapless := by decide +kernel
  exact ⟨by decide +kernel, by decide +kernel, hgap, (polled_events_rebuild (by decide) his).2.1 hgap⟩

end InferenceScheduler
