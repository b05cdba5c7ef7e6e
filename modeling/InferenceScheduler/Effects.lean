/-
What operations do besides the counters: they emit events, they make records
of tenants, and two of them write the epoch and the flag of the drain. `Account`
is the view of the state that has all of it, and a `Deed` is an entry of the
books together with the events that come with it. `topics` says what each event
is about and `house` whose records an entry makes, so what holds of the log, the
tenants, the epoch or `global_tokens_` is proved over the effects.
-/
import InferenceScheduler.Books

namespace InferenceScheduler

/-- An event that has no number, epoch and time yet. -/
structure Note where
  type : String
  request : RequestId
  attempt : AttemptId
  worker : WorkerId
  batch : BatchId
  detail : String

/-- What an event is about. -/
structure Topic where
  type : String
  request : RequestId
  attempt : AttemptId

def Note.topic (n : Note) : Topic := ⟨n.type, n.request, n.attempt⟩

@[ext] structure Account where
  book : Book
  epoch : UInt64
  tokens : ℤ
  draining : Bool
  log : List SchedulerEvent
  seq : ℕ
  homes : Set TenantId

/-- The tenants that have a record. -/
def Impl.homes (s : Impl) : Set TenantId := {t | (s.tenants.find t).isSome}

def Impl.account (s : Impl) : Account :=
  ⟨s.book, s.epochValue, s.globalTokens, s.draining, s.eventLog, s.eventSeq, s.homes⟩

/-- The tenants that have a record after an entry: `operator[]` makes one, what
looks a tenant up first does not. -/
def Entry.house (h : Set TenantId) : Entry → Set TenantId
  | .move (.accept spec _) => insert spec.tenant h
  | .move (.finish _ _ .stale) => h
  | .move (.expire rec) | .move (.start rec _ _) | .move (.finish rec _ _) | .move (.cancel rec _ _ _)
  | .move (.retry rec _) => insert rec.spec.tenant h
  | .again rec spec => insert spec.tenant (insert rec.spec.tenant h)
  | _ => h

inductive Deed
  /-- An entry, with its events. -/
  | post (e : Entry) (notes : List Note)
  /-- A drain begins. -/
  | drain (n : Note)
  /-- A new epoch begins. -/
  | roll (n : Note)

namespace Account

/-- The event as it is logged. -/
def event (a : Account) (n : Note) : SchedulerEvent :=
  { sequence := a.seq + 1, epoch := a.epoch, type := n.type, requestId := n.request, attemptId := n.attempt,
    workerId := n.worker, batchId := n.batch, timestampNs := a.book.core.now, detail := n.detail }

def withBook (a : Account) (b : Book) (homes : Set TenantId) : Account := { a with book := b, homes := homes }

/-- `emit_event`. -/
def tell (a : Account) (n : Note) : Account :=
  let log := a.log ++ [a.event n]
  { a with seq := a.seq + 1, log := if log.length > 65536 then log.tail else log }

/-- What an effect does. -/
def act (a : Account) : Deed → Account
  | .post e notes => notes.foldl tell (a.withBook (a.book.act e) (e.house a.homes))
  | .drain n => { a with draining := true }.tell n
  | .roll n => { a with epoch := a.epoch + 1 }.tell n

/-- Telling changes the log and nothing else. -/
theorem foldl_tell (notes : List Note) (a : Account) :
    (notes.foldl tell a).book = a.book ∧ (notes.foldl tell a).epoch = a.epoch ∧
      (notes.foldl tell a).tokens = a.tokens ∧ (notes.foldl tell a).draining = a.draining ∧
      (notes.foldl tell a).homes = a.homes := by
  induction notes generalizing a with
  | nil => exact ⟨rfl, rfl, rfl, rfl, rfl⟩
  | cons n notes ih => exact ih (a.tell n)

theorem act_post_book (a : Account) (e : Entry) (notes : List Note) : (a.act (.post e notes)).book = a.book.act e :=
  (foldl_tell notes _).1

/-- A write to the books between two events, if it is not one of the clock. -/
theorem foldl_tell_book {b : Book} (notes : List Note) (a : Account) (hnow : b.core.now = a.book.core.now) :
    (notes.foldl tell a).withBook b a.homes = notes.foldl tell (a.withBook b a.homes) := by
  induction notes generalizing a with
  | nil => rfl
  | cons n notes ih =>
    have hevent : (a.withBook b a.homes).event n = a.event n := by simp only [event, withBook, hnow]
    have htell : (a.withBook b a.homes).tell n = (a.tell n).withBook b a.homes := by
      rw [tell, hevent]
      rfl
    rw [List.foldl_cons, List.foldl_cons, htell]
    exact ih (a.tell n) hnow

end Account

/-- The effects as a machine of their own. -/
def accounts : Machine Account Deed Unit := ⟨fun a f => (a.act f, ())⟩

theorem leads_effect {P : Account → Deed → Prop} {a : Account} {f : Deed} (h : P a f) :
    accounts.Leads P a (a.act f) :=
  Machine.Leads.single h

/-! ## What the events are about -/

/-- The type of the event that tells an ending. -/
def Ending.told : Ending → Option String
  | .success _ => some "completed"
  | .failed _ => some "failed"
  | .expired => some "expired"
  | .stale => none

/-- Whether an expiry is recorded in the event log. -/
def logsExpiry (cfg : SchedulerConfig) (rec : RequestRecord) : Bool :=
  decide (cfg.batch.maxWait ≥ 0) && rec.spec.deadline.valid

theorem logsExpiry_iff {cfg : SchedulerConfig} {rec : RequestRecord} :
    logsExpiry cfg rec = true ↔ cfg.batch.maxWait ≥ 0 ∧ rec.spec.deadline.valid = true := by
  rw [logsExpiry, Bool.and_eq_true, decide_eq_true_iff]

/-- What the events of a move are about, those of workers apart. -/
def Core.topics (c : Core) : Move → List Topic
  | .refuse rec => [⟨if rec.state = .expired then "expired" else "rejected", rec.requestId, rec.currentAttempt⟩]
  | .accept _ rid => [⟨"admitted", rid, c.ids.tick.peek⟩, ⟨"queued", rid, c.ids.tick.peek⟩]
  | .expire rec => if logsExpiry c.cfg rec then [⟨"expired", rec.requestId, rec.currentAttempt⟩] else []
  | .reserve _ members => members.map fun id => ⟨"reserved", id, ((c.requests.find id).getD {}).currentAttempt⟩
  | .start rec _ _ => [⟨"running", rec.requestId, rec.currentAttempt⟩]
  | .finish rec _ e => e.told.toList.map fun type => ⟨type, rec.requestId, rec.currentAttempt⟩
  | .cancel rec _ _ _ => [⟨"cancelled", rec.requestId, rec.currentAttempt⟩]
  | .flag rec _ => [⟨"cancel_requested", rec.requestId, rec.currentAttempt⟩]
  | .retry rec _ => [⟨"retry", rec.requestId, c.ids.tick.peek⟩]
  | .advance _ | .draw | .pop _ _ | .sleep _ | .sweep _ | .setWorker _ | .dropWorker _ => []

/-- The events about workers. -/
def workerEvents : List String := ["worker_registered", "worker_updated", "worker_state", "worker_unregistered"]

/-- The events that come with an entry. Nothing is said about those of a
submission under an id in use. -/
def Voiced (c : Core) (notes : List Note) : Entry → Prop
  | .move (.setWorker _) | .move (.dropWorker _) => ∃ n, notes = [n] ∧ n.type ∈ workerEvents
  | .move m => notes.map Note.topic = c.topics m
  | .turnAway | .settle _ => notes = []
  | .dismiss _ | .again _ _ => True

/-! ## What the functions do -/

namespace Impl

/-- From `s` the entry `e` leads to `t`, with its events. -/
def Enters (s : Impl) (e : Entry) (t : Impl) : Prop :=
  ∃ notes, Voiced s.core notes e ∧ t.account = s.account.act (.post e notes)

variable {s t : Impl} {e : Entry}

theorem Enters.book (h : s.Enters e t) : t.book = s.book.act e := by
  obtain ⟨notes, _, hacc⟩ := h
  exact (congrArg Account.book hacc).trans (s.account.act_post_book e notes)

theorem Enters.core {m : Move} (h : s.Enters (.move m) t) : t.core = s.core.act m :=
  (congrArg Book.core h.book).trans (s.book.move_core m)

theorem Enters.epochValue (h : s.Enters e t) : t.epochValue = s.epochValue := by
  obtain ⟨notes, _, hacc⟩ := h
  exact (congrArg Account.epoch hacc).trans (Account.foldl_tell notes _).2.1

/-- An entry without an event. -/
theorem Enters.silent (hbook : t.book = s.book.act e) (hrest : t.account = s.account.withBook t.book (e.house s.homes))
    (hvoiced : Voiced s.core [] e) : s.Enters e t :=
  ⟨[], hvoiced, by rw [hrest, hbook]; rfl⟩

/-- An entry with one event, told at the end. -/
theorem Enters.emit {type : String} {rid : RequestId} {aid : AttemptId} {wid : WorkerId} {bid : BatchId}
    {detail : String} (hbook : t.book = s.book.act e)
    (hrest : t.account = s.account.withBook t.book (e.house s.homes))
    (hvoiced : Voiced s.core [⟨type, rid, aid, wid, bid, detail⟩] e) :
    s.Enters e (t.emitEvent type rid aid wid bid detail) := by
  refine ⟨_, hvoiced, ?_⟩
  show t.account.tell ⟨type, rid, aid, wid, bid, detail⟩ = _
  rw [hrest, hbook]
  rfl

/-! ### The tenants -/

theorem homes_onTenant (s : Impl) (t : TenantId) {f : TenantRecord → TenantRecord}
    (hk : ∀ tr, (f tr).tenant = tr.tenant) : (s.onTenant t f).homes = insert t s.homes := by
  ext t'
  simp only [homes, Set.mem_ofPred_eq, Set.mem_insert_iff, find_onTenant s t hk]
  by_cases ht : t = t'
  · simp [ht]
  · simp [ht, Ne.symm ht]

theorem homes_onTenantIfAny (s : Impl) (t : TenantId) {f : TenantRecord → TenantRecord}
    (hk : ∀ tr, (f tr).tenant = tr.tenant) : (s.onTenantIfAny t f).homes = s.homes := by
  ext t'
  simp only [homes, Set.mem_ofPred_eq, find_onTenantIfAny s t hk]
  split <;> simp

theorem homes_dequeueRequest (s : Impl) (rec : RequestRecord) : (s.dequeueRequest rec).homes = s.homes :=
  homes_onTenantIfAny _ _ fun _ => rfl

theorem homes_enqueueRequest (s : Impl) (rec : RequestRecord) :
    (s.enqueueRequest rec).homes = insert rec.spec.tenant s.homes :=
  homes_onTenant _ _ fun _ => rfl

/-! ### The queue -/

theorem dequeueRequest_book (s : Impl) (rec : RequestRecord) : (s.dequeueRequest rec).book =
    { s.book.on rec.spec.tenant .dequeue with core := { s.core with ready := s.ready.dequeue s.cfg rec } } :=
  Book.ext rfl (counts_onTenantIfAny _ _ (g := .dequeue) (fun _ => rfl) (fun _ => rfl) rfl) rfl rfl

theorem enqueueRequest_book (s : Impl) (rec : RequestRecord) : (s.enqueueRequest rec).book =
    { s.book.on rec.spec.tenant .enqueue with core := s.core.enqueue rec } :=
  Book.ext rfl (counts_onTenant _ _ (g := .enqueue) (fun _ => rfl) (fun _ => rfl)) rfl rfl

theorem expireRequest_enters {rec : RequestRecord} (h : rec.state = .queued) :
    s.Enters (.move (.expire rec)) (s.expireRequest rec) := by
  unfold expireRequest
  rw [if_neg (not_not.2 h)]
  extract_lets s₁ s₂ s₃ s₄ stats s₅
  have h₁ : s₁.book = _ := s.dequeueRequest_book rec
  have h₄ : s₄.counts = (s₁.book.on rec.spec.tenant .leave).tenants := counts_leave s₃ rec.spec.tenant
  rw [h₁] at h₄
  have h₅ : s₅.book = s.book.act (.move (.expire rec)) := Book.ext rfl h₄ rfl rfl
  have hhomes : s₄.homes = insert rec.spec.tenant s₃.homes := homes_onTenant _ _ (by intro; rfl)
  have hrest := congrArg (s.account.withBook s₅.book) (hhomes.trans (congrArg (insert _) (s.homes_dequeueRequest rec)))
  split
  · next hlogs =>
    have htold : logsExpiry s.core.cfg rec = true := logsExpiry_iff.2 hlogs
    refine .emit h₅ hrest ?_
    simp only [Voiced, Core.topics, htold]
    rfl
  · next hlogs =>
    have htold : logsExpiry s.core.cfg rec = false := Bool.eq_false_iff.2 fun h => hlogs (logsExpiry_iff.1 h)
    refine .silent h₅ hrest ?_
    simp only [Voiced, Core.topics, htold]
    rfl

/-! ### Dispatch -/

theorem reserveMember_book (w : WorkerId) (bid : BatchId) (s : Impl) (id : RequestId) :
    (s.reserveMember w bid s.now id).book = s.book.reserveMember bid id := by
  cases h : s.requests.find id with
  | none => simp only [reserveMember, Book.reserveMember, book, core, h]
  | some m =>
    have hb : s.book.reserveMember bid id =
        { s.book.on m.spec.tenant .dequeue with core := s.core.reserveMember bid id } := by
      simp only [Book.reserveMember, book, core, h]
    rw [hb]
    simp only [reserveMember, h]
    have hcounts : (s.dequeueRequest m).counts = _ := congrArg Book.tenants (s.dequeueRequest_book m)
    refine Book.ext ?_ hcounts rfl rfl
    simp only [Core.reserveMember, core, h]
    rfl

theorem reserveMember_now (w : WorkerId) (bid : BatchId) (now : ClockTime) (s : Impl) (id : RequestId) :
    (s.reserveMember w bid now id).now = s.now := by
  unfold reserveMember
  split <;> rfl

theorem homes_reserveMember (w : WorkerId) (bid : BatchId) (now : ClockTime) (s : Impl) (id : RequestId) :
    (s.reserveMember w bid now id).homes = s.homes := by
  unfold reserveMember
  split
  · rfl
  · next m _ => exact s.homes_dequeueRequest m

/-- A member is reserved and told. -/
theorem reserveMember_account (w : WorkerId) (bid : BatchId) {s : Impl} {id : RequestId} {m : RequestRecord}
    (h : s.requests.find id = some m) : (s.reserveMember w bid s.now id).account =
      (s.account.withBook (s.book.reserveMember bid id) s.homes).tell
        ⟨"reserved", m.requestId, m.currentAttempt, w, bid, m.terminalReason⟩ := by
  rw [← reserveMember_book w bid s id, ← homes_reserveMember w bid s.now s id]
  simp only [reserveMember, h]
  rfl

/-- The loop over the members tells each of them. -/
theorem foldl_reserveMember_account (w : WorkerId) (bid : BatchId) (ids : List RequestId) (s : Impl)
    (hnodup : ids.Nodup) (hfound : ∀ id ∈ ids, (s.requests.find id).isSome) : ∃ notes : List Note,
      notes.map Note.topic =
          ids.map (fun id => ⟨"reserved", id, ((s.requests.find id).getD {}).currentAttempt⟩) ∧
        (ids.foldl (reserveMember w bid s.now) s).account =
          notes.foldl Account.tell (s.account.withBook (ids.foldl (Book.reserveMember bid) s.book) s.homes) := by
  induction ids generalizing s with
  | nil => exact ⟨[], rfl, rfl⟩
  | cons id ids ih =>
    obtain ⟨hid, hnodup⟩ := List.nodup_cons.1 hnodup
    obtain ⟨m, hm⟩ := Option.isSome_iff_exists.1 (hfound id List.mem_cons_self)
    have hkey : m.requestId = id := Keyed.key_of_find hm
    have hother : ∀ j ∈ ids, (s.reserveMember w bid s.now id).requests.find j = s.requests.find j := by
      intro j hj
      have hcore : (s.reserveMember w bid s.now id).core = s.core.reserveMember bid id :=
        (congrArg Book.core (reserveMember_book w bid s id)).trans (s.book.reserveMember_core bid id)
      have hfind := s.core.reserveMember_find bid id j
      rw [← hcore, if_neg (by rintro rfl; exact hid hj)] at hfind
      exact hfind
    obtain ⟨notes, htopics, hacc⟩ := ih (s.reserveMember w bid s.now id) hnodup fun j hj => by
      rw [hother j hj]
      exact hfound j (List.mem_cons_of_mem id hj)
    refine ⟨⟨"reserved", m.requestId, m.currentAttempt, w, bid, m.terminalReason⟩ :: notes, ?_, ?_⟩
    · have hfirst : ((s.requests.find id).getD {}).currentAttempt = m.currentAttempt := by rw [hm, Option.getD_some]
      have hrest := List.map_congr_left fun j hj =>
        congrArg (fun o => (⟨"reserved", j, (o.getD {}).currentAttempt⟩ : Topic)) (hother j hj)
      rw [List.map_cons, List.map_cons, htopics, hrest, hfirst, ← hkey]
      rfl
    · rw [reserveMember_now, reserveMember_book, homes_reserveMember, reserveMember_account w bid hm] at hacc
      rw [List.foldl_cons, List.foldl_cons, List.foldl_cons, hacc]
      refine congrArg (notes.foldl Account.tell)
        (Account.foldl_tell_book [_] (s.account.withBook (s.book.reserveMember bid id) s.homes) ?_)
      rw [Book.foldl_reserveMember_core]
      exact (Core.foldl_reserveMember_frame bid ids _).2.1

theorem reserveBatch_enters (s : Impl) (wr : WorkerRecord) {members : List RequestId} (hnodup : members.Nodup)
    (hfound : ∀ id ∈ members, (s.requests.find id).isSome) :
    s.Enters (.move (.reserve wr members)) (s.reserveBatch wr members s.now).1 :=
  foldl_reserveMember_account wr.id s.idFactory.peek members
    { s.drawId with pool := s.pool.reserve wr.id s.idFactory.peek (s.batchUnits members) members } hnodup hfound

/-! ### Admission -/

section submission

variable {spec : RequestSpec} {rid : RequestId} (reason : String)

theorem insertRequest_of_none {s : Impl} {rec : RequestRecord} (h : s.requests.find rec.requestId = none) :
    s.insertRequest rec = s.put rec := by simp only [insertRequest, h]

theorem insertRequest_of_some {s : Impl} {rec old : RequestRecord} (h : s.requests.find rec.requestId = some old) :
    s.insertRequest rec = s := by simp only [insertRequest, h]

theorem drawId_enters (s : Impl) : s.Enters (.move .draw) s.drawId := .silent rfl rfl rfl

/-- A request admitted after its deadline. -/
theorem admitAs_late_enters (hl : (spec.deadline.valid && spec.deadline.expired s.now) = true)
    (h : s.requests.find rid = none) : s.drawId.Enters
      (.move (.refuse (lateRecord spec rid s.idFactory.peek s.now))) (s.admitAs spec rid reason).1 := by
  simp only [admitAs, drawId, hl, ↓reduceIte]
  rw [insertRequest_of_none h]
  exact .emit rfl rfl rfl

theorem admitAs_late_enters_again {old : RequestRecord}
    (hl : (spec.deadline.valid && spec.deadline.expired s.now) = true) (h : s.requests.find rid = some old) :
    s.drawId.Enters (.dismiss true) (s.admitAs spec rid reason).1 := by
  simp only [admitAs, drawId, hl, ↓reduceIte]
  rw [insertRequest_of_some h]
  exact .emit rfl rfl trivial

theorem reject_enters (h : s.requests.find rid = none) : s.drawId.Enters
    (.move (.refuse (rejectedRecord spec rid s.idFactory.peek reason s.now))) (s.reject spec rid reason).1 := by
  simp only [reject, drawId]
  rw [insertRequest_of_none h]
  exact .emit rfl rfl rfl

theorem reject_enters_again {old : RequestRecord} (h : s.requests.find rid = some old) :
    s.drawId.Enters (.dismiss false) (s.reject spec rid reason).1 := by
  simp only [reject, drawId]
  rw [insertRequest_of_some h]
  exact .emit rfl rfl trivial

/-- What is enqueued is the record stored when the new one was inserted. -/
theorem enqueueNew_book {s : Impl} {fresh stored : RequestRecord} (reason : String)
    (h : (s.insertRequest fresh).requests.find fresh.requestId = some stored) :
    (s.enqueueNew fresh reason).1.book =
      let b := ((s.insertRequest fresh).book.on stored.spec.tenant .enqueue).on fresh.spec.tenant .enter
      { b with core := (s.insertRequest fresh).core.enqueue stored, admitted := b.admitted + 1 } := by
  unfold enqueueNew
  extract_lets rid s₁ found s₂ s₃ s₄ s₅ s₆
  have hfound : found = stored := congrArg (fun o => o.getD fresh) h
  have h₂ : s₂.book = _ := s₁.enqueueRequest_book found
  have h₄ : s₄.book = { s₂.book.on fresh.spec.tenant .enter with admitted := s₂.globalAdmitted + 1 } :=
    Book.ext rfl (counts_enter _ _) rfl rfl
  show s₄.book = _
  rw [h₄, h₂, hfound]
  rfl

theorem enqueueNew_book_of_none {s : Impl} {fresh : RequestRecord} {reason : String}
    (h : s.requests.find fresh.requestId = none) :
    (s.enqueueNew fresh reason).1.book =
      let b := (s.book.on fresh.spec.tenant .enqueue).on fresh.spec.tenant .enter
      { b with core := s.core.enqueue fresh, admitted := b.admitted + 1 } := by
  have hput := Keyed.put_put s.requests (v := fresh) (w := { fresh with state := .queued, queuedAt := s.now }) rfl
  have hstored : (s.put fresh).requests.find fresh.requestId = some fresh := Keyed.find_put_self s.requests fresh
  have hcore : (s.put fresh).core.enqueue fresh = s.core.enqueue fresh := by simp only [core, put, Core.enqueue, hput]
  rw [← insertRequest_of_none h] at hstored
  rw [enqueueNew_book reason hstored, insertRequest_of_none h, hcore]
  rfl

theorem enqueueNew_book_of_some {s : Impl} {fresh old : RequestRecord} {reason : String}
    (h : s.requests.find fresh.requestId = some old) :
    (s.enqueueNew fresh reason).1.book =
      let b := (s.book.on old.spec.tenant .enqueue).on fresh.spec.tenant .enter
      { b with core := s.core.enqueue old, admitted := b.admitted + 1 } := by
  have hstored : (s.insertRequest fresh).requests.find fresh.requestId = some old := by rw [insertRequest_of_some h, h]
  rw [enqueueNew_book reason hstored, insertRequest_of_some h]

/-- The events of the new request. -/
def newcomer (rid : RequestId) (attempt : AttemptId) : List Note :=
  [⟨"admitted", rid, attempt, .invalid, .invalid, "admitted"⟩, ⟨"queued", rid, attempt, .invalid, .invalid, "queued"⟩]

theorem enqueueNew_account {fresh stored : RequestRecord}
    (h : (s.insertRequest fresh).requests.find fresh.requestId = some stored) : (s.enqueueNew fresh reason).1.account =
      (newcomer fresh.requestId stored.currentAttempt).foldl Account.tell
        (s.account.withBook (s.enqueueNew fresh reason).1.book
          (insert fresh.spec.tenant (insert stored.spec.tenant s.homes))) := by
  have hrest : (s.insertRequest fresh).account = s.account.withBook (s.insertRequest fresh).book s.homes := by
    unfold insertRequest
    split <;> rfl
  unfold enqueueNew
  extract_lets rid s₁ found s₂ s₃ s₄ s₅ s₆
  have hfound : found = stored := congrArg (fun o => o.getD fresh) h
  have h₂ : s₂.homes = insert stored.spec.tenant s.homes := by
    rw [← hfound]
    exact (s₁.homes_enqueueRequest found).trans (congrArg (insert _) (congrArg Account.homes hrest))
  have hhomes : s₄.homes = insert fresh.spec.tenant s₃.homes := homes_onTenant _ _ (by intro; rfl)
  have h₄ : s₄.account = s.account.withBook s₄.book s₄.homes :=
    congrArg (fun a => a.withBook s₄.book s₄.homes) hrest
  have h₆ : s₆.account = (newcomer rid found.currentAttempt).foldl Account.tell s₄.account := rfl
  rw [h₄, hfound, hhomes, show s₃.homes = _ from h₂] at h₆
  exact h₆

theorem admitAs_enters (hl : (spec.deadline.valid && spec.deadline.expired s.now) = false)
    (h : s.requests.find rid = none) : s.Enters (.move (.accept spec rid)) (s.admitAs spec rid reason).1 := by
  simp only [admitAs, drawId, hl, Bool.false_eq_true, ↓reduceIte]
  refine ⟨newcomer rid s.idFactory.tick.peek, rfl, ?_⟩
  have hput := Keyed.find_put_self s.requests (admittedRecord spec rid s.idFactory.peek s.idFactory.tick.peek s.now)
  rw [enqueueNew_account reason (by rw [insertRequest_of_none h]; exact hput), enqueueNew_book_of_none h,
    Set.insert_idem]
  rfl

theorem admitAs_enters_again {old : RequestRecord}
    (hl : (spec.deadline.valid && spec.deadline.expired s.now) = false) (h : s.requests.find rid = some old) :
    s.Enters (.again old spec) (s.admitAs spec rid reason).1 := by
  simp only [admitAs, drawId, hl, Bool.false_eq_true, ↓reduceIte]
  refine ⟨newcomer rid old.currentAttempt, trivial, ?_⟩
  rw [enqueueNew_account reason (by rw [insertRequest_of_some h]; exact h), enqueueNew_book_of_some h]
  rfl

end submission

/-! ### Reports and control -/

theorem releaseBatchMember_spec (s : Impl) (rec : RequestRecord) (w : WorkerId) :
    (s.releaseBatchMember rec w).2.spec = rec.spec := by
  simp only [releaseBatchMember]
  split <;> rfl

/-- The counters after the end of `finish_success`, `finish_failed` and the
branch for `Expired`, which write the tenant's record once. -/
theorem counts_finish (s : Impl) (rec : RequestRecord) (w : WorkerId) :
    (s.onTenant (s.releaseBatchMember rec w).2.spec.tenant fun t =>
        { t with admitted := decPos t.admitted, running := decPos t.running }).counts =
      ((s.book.on rec.spec.tenant .stop).leave rec.spec.tenant).tenants := by
  rw [counts_stop_leave, releaseBatchMember_spec]
  simp only [Book.leave, Book.on, Function.update_self, Function.update_idem]
  rfl

theorem homes_finish (s : Impl) (rec : RequestRecord) (w : WorkerId) :
    (s.onTenant (s.releaseBatchMember rec w).2.spec.tenant fun t =>
        { t with admitted := decPos t.admitted, running := decPos t.running }).homes =
      insert rec.spec.tenant s.homes := by
  rw [homes_onTenant _ _ (by intro; rfl), releaseBatchMember_spec]

/-- One event about a record that keeps its id and its attempt. -/
theorem told_of_same {type : String} {rec fin : RequestRecord} (hid : fin.requestId = rec.requestId)
    (hattempt : fin.currentAttempt = rec.currentAttempt) :
    [(⟨type, fin.requestId, fin.currentAttempt⟩ : Topic)] = [⟨type, rec.requestId, rec.currentAttempt⟩] := by
  rw [hid, hattempt]

section reports

variable (s : Impl) (rec : RequestRecord) (r : CompletionReport)

theorem finishSuccess_enters : s.Enters (.move (.finish rec r.worker (.success r))) (s.finishSuccess rec r) := by
  unfold finishSuccess
  extract_lets res fin s₁ s₂ s₃ stats s₄
  have h₃ : s₃.counts = _ := s.counts_finish (rec.succeed r s.now) r.worker
  have hrest := congrArg (s.account.withBook s₄.book) (s.homes_finish (rec.succeed r s.now) r.worker)
  exact .emit (Book.ext rfl h₃ rfl rfl) hrest
    (told_of_same (Pool.released_requestId ..) (Pool.released_currentAttempt ..))

theorem finishFailed_enters : s.Enters (.move (.finish rec r.worker (.failed r))) (s.finishFailed rec r) := by
  unfold finishFailed
  extract_lets res fin s₁ s₂ s₃ stats s₄
  have h₃ : s₃.counts = _ := s.counts_finish (rec.noteFailure r) r.worker
  have hrest := congrArg (s.account.withBook s₄.book) (s.homes_finish (rec.noteFailure r) r.worker)
  exact .emit (Book.ext rfl h₃ rfl rfl) hrest
    (told_of_same (Pool.released_requestId ..) (Pool.released_currentAttempt ..))

theorem finishExpired_enters : s.Enters (.move (.finish rec r.worker .expired)) (s.finishExpired rec r) := by
  unfold finishExpired
  extract_lets res src fin s₁ s₂ s₃ stats s₄
  have h₃ : s₃.counts = _ := s.counts_finish rec.noteExpired r.worker
  have hrest := congrArg (s.account.withBook s₄.book) (s.homes_finish rec.noteExpired r.worker)
  exact .emit (Book.ext rfl h₃ rfl rfl) hrest
    (told_of_same (Pool.released_requestId ..) (Pool.released_currentAttempt ..))

theorem finishStale_enters : s.Enters (.move (.finish rec r.worker .stale)) (s.finishStale rec r) := .silent rfl rfl rfl

theorem makeRetry_enters : s.Enters (.move (.retry rec r)) (s.makeRetry rec r) := by
  unfold makeRetry
  extract_lets res s₁ gen s₂ att s₃ fresh stats s₄ s₅
  have h₁ : s₁.book = { s.book.on rec.spec.tenant .stop with
      core := { s.core with pool := s.pool.releaseMember r.worker rec } } :=
    Book.ext rfl (counts_stop _ _) rfl rfl
  have h₄ : s₄.book =
      { s₁.book with
        core := { s₁.core with ids := s₁.idFactory.tick.tick }
        tally := { s₁.book.tally with
          attempts := s₁.book.tally.attempts + 1, retries := s₁.book.tally.retries + 1 } } := rfl
  have hspec : fresh.spec = rec.spec := s.releaseBatchMember_spec (rec.noteFailure r) r.worker
  have hid : fresh.requestId = rec.requestId := Pool.released_requestId s.pool r.worker (rec.noteFailure r)
  have h₅ : s₅.book = s.book.act (.move (.retry rec r)) := by
    rw [show s₅.book = _ from s₄.enqueueRequest_book fresh, h₄, h₁, hspec]
    rfl
  have hhomes : s₅.homes = insert rec.spec.tenant s.homes := by
    have h₁ : s₁.homes = insert rec.spec.tenant s.homes := homes_onTenant _ _ (by intro; rfl)
    rw [show s₅.homes = _ from s₄.homes_enqueueRequest fresh, hspec, show s₄.homes = _ from h₁, Set.insert_idem]
  refine .emit h₅ (congrArg (s.account.withBook s₅.book) hhomes) ?_
  rw [hid]
  rfl

end reports

/-- The running count `recover_in_flight` takes off on its own. -/
theorem settle_enters (s : Impl) (t : TenantId) :
    s.Enters (.settle t) (s.onTenantIfAny t fun tr => { tr with running := decPos tr.running }) :=
  .silent (Book.ext rfl (counts_onTenantIfAny s t (g := .stop) (fun _ => rfl) (fun _ => rfl) rfl) rfl rfl)
    (congrArg (s.account.withBook _) (s.homes_onTenantIfAny t fun _ => rfl)) rfl

/-- `finish_cancelled` once the request has left its worker. -/
theorem finishCancelled_of_left {rec fin : RequestRecord} {w : WorkerId} (reason : String)
    (hleft : s.leaveWorker rec w = (t, fin)) (h : isTerminal rec.state = false) (hspec : fin.spec = rec.spec) :
    ∃ u : Impl, s.finishCancelled rec w reason =
        u.emitEvent "cancelled" fin.requestId fin.currentAttempt w fin.batchId reason ∧
      u.account = t.account.withBook u.book (insert rec.spec.tenant t.homes) ∧
      u.book =
        { (t.book.on rec.spec.tenant .dequeue).leave rec.spec.tenant with
          core := { t.core with ready := t.ready.dequeue t.cfg fin }.put (fin.cancel reason)
          tally := { t.book.tally with cancelled := t.book.tally.cancelled + 1 } } := by
  unfold finishCancelled
  rw [if_neg (by simp [h]), hleft]
  extract_lets res s₁ fin' s₂ s₃ s₄ stats s₅
  have h₁ : s₁.book = _ := t.dequeueRequest_book fin
  have h₄ : s₄.counts = (s₁.book.on rec.spec.tenant .leave).tenants := by
    rw [← hspec]
    exact counts_leave s₃ fin.spec.tenant
  rw [h₁, hspec] at h₄
  have hhomes : s₄.homes = insert rec.spec.tenant t.homes := by
    rw [← t.homes_dequeueRequest fin, ← hspec]
    exact (homes_onTenant _ _ (by intro; rfl) : s₄.homes = insert fin.spec.tenant s₃.homes)
  exact ⟨s₅, rfl, congrArg (t.account.withBook s₅.book) hhomes, Book.ext rfl h₄ rfl rfl⟩

theorem finishCancelled_enters {rec : RequestRecord} (asked : CancellationReason) (w : WorkerId)
    (reason : String) (h : isTerminal rec.state = false) :
    s.Enters (.move (.cancel rec asked w reason)) (s.finishCancelled { rec with cancelReason := asked } w reason) := by
  have hon : RequestRecord.onWorker { rec with cancelReason := asked } = rec.onWorker := rfl
  cases hw : rec.onWorker with
  | false =>
    have hleft : s.leaveWorker { rec with cancelReason := asked } w = (s, { rec with cancelReason := asked }) := by
      simp only [leaveWorker, hon, hw, Bool.false_eq_true, ↓reduceIte]
    obtain ⟨u, heq, hrest, hbook⟩ := finishCancelled_of_left reason hleft h rfl
    rw [heq]
    refine .emit (hbook.trans ?_) hrest rfl
    simp only [Book.act, Book.move, Book.post, Core.act, Core.unworked, hon, hw, Bool.false_eq_true, ↓reduceIte]
    rfl
  | true =>
    have hleft : s.leaveWorker { rec with cancelReason := asked } w =
        (({ s with pool := s.pool.releaseMember w rec } : Impl).onTenant rec.spec.tenant fun t =>
          { t with running := decPos t.running }, s.pool.released w { rec with cancelReason := asked }) := by
      simp only [leaveWorker, hon, hw, ↓reduceIte]
      rfl
    have hcounts := counts_stop { s with pool := s.pool.releaseMember w rec } rec.spec.tenant
    obtain ⟨u, heq, hrest, hbook⟩ := finishCancelled_of_left reason hleft h
      (s.releaseBatchMember_spec { rec with cancelReason := asked } w)
    rw [heq]
    rw [homes_onTenant _ _ (by intro; rfl), Set.insert_idem] at hrest
    refine .emit (hbook.trans ?_) hrest (told_of_same (Pool.released_requestId ..) (Pool.released_currentAttempt ..))
    simp only [Book.act, Book.move, Book.post, Core.act, Core.unworked, hon, hw, ↓reduceIte]
    refine Book.ext rfl ?_ rfl rfl
    simp only [Book.leave, Book.on, book, hcounts]
    rfl

end Impl

end InferenceScheduler
