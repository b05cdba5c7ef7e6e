/-
The scheduler's counters. `Book` is the view of the state that has them: the
core, the three counters of every tenant, the number of admitted requests and
the statistics of requests and attempts. Every move of the core has its
postings, and four entries post without a move: a submission that is deferred,
one under an id already in use (turned down, or enqueued as the record stored
before), and the running count that `recover_in_flight` takes off on its own.
-/
import InferenceScheduler.Moves

namespace InferenceScheduler

/-- The counters of a tenant. -/
structure Counts where
  admitted : ℤ := 0
  queued : ℤ := 0
  running : ℤ := 0

namespace Counts

def enter (c : Counts) : Counts := { c with admitted := c.admitted + 1 }
def leave (c : Counts) : Counts := { c with admitted := decPos c.admitted }
def enqueue (c : Counts) : Counts := { c with queued := c.queued + 1 }
def dequeue (c : Counts) : Counts := { c with queued := decPos c.queued }
def start (c : Counts) : Counts := { c with running := c.running + 1 }
def stop (c : Counts) : Counts := { c with running := decPos c.running }

end Counts

/-- The statistics of requests and their attempts. -/
structure Tally where
  submitted : ℕ
  admitted : ℕ
  deferred : ℕ
  rejected : ℕ
  completed : ℕ
  cancelled : ℕ
  expired : ℕ
  failed : ℕ
  attempts : ℕ
  retries : ℕ

@[ext] structure Book where
  core : Core
  tenants : TenantId → Counts
  admitted : ℤ
  tally : Tally

def TenantRecord.counts (t : TenantRecord) : Counts := ⟨t.admitted, t.queued, t.running⟩

def SchedulerStats.tally (t : SchedulerStats) : Tally :=
  ⟨t.requestsSubmitted, t.requestsAdmitted, t.requestsDeferred, t.requestsRejected, t.requestsCompleted,
    t.requestsCancelled, t.requestsExpired, t.requestsFailed, t.attemptsCreated, t.retries⟩

/-- The counters of a tenant, those of a new record if there is none. -/
def Impl.counts (s : Impl) (t : TenantId) : Counts := (s.tenantOf t).counts

def Impl.book (s : Impl) : Book := ⟨s.core, s.counts, s.globalAdmitted, s.stats.tally⟩

/-- What is posted. -/
inductive Entry
  /-- A move of the core, with its postings. -/
  | move (m : Move)
  /-- A submission is deferred. -/
  | turnAway
  /-- A submission under an id in use is rejected, or found late. -/
  | dismiss (late : Bool)
  /-- A submission under an id in use enqueues the record stored under it. -/
  | again (rec : RequestRecord) (spec : RequestSpec)
  /-- A request of a lost worker is taken off its tenant's running ones. -/
  | settle (t : TenantId)

namespace Book

/-- Write a tenant's counters. -/
def on (b : Book) (t : TenantId) (f : Counts → Counts) : Book :=
  { b with tenants := Function.update b.tenants t (f (b.tenants t)) }

/-- A submission is counted as rejected, or as admitted and expired at once. -/
def refuse (b : Book) (late : Bool) : Book :=
  { b with tally :=
    if late then
      { b.tally with
        submitted := b.tally.submitted + 1
        admitted := b.tally.admitted + 1
        expired := b.tally.expired + 1 }
    else { b.tally with submitted := b.tally.submitted + 1, rejected := b.tally.rejected + 1 } }

/-- A submission is counted as admitted, with its first attempt. -/
def accept (b : Book) (t : TenantId) : Book :=
  { b.on t .enter with
    admitted := b.admitted + 1
    tally :=
      { b.tally with
        submitted := b.tally.submitted + 1
        admitted := b.tally.admitted + 1
        attempts := b.tally.attempts + 1 } }

/-- A request of the tenant leaves the admitted ones. -/
def leave (b : Book) (t : TenantId) : Book := { b.on t .leave with admitted := decPos b.admitted }

/-- The loop body of `do_plan_dispatch` over the members. -/
def reserveMember (bid : BatchId) (b : Book) (id : RequestId) : Book :=
  match b.core.requests.find id with
  | none => b
  | some m => { b.on m.spec.tenant .dequeue with core := b.core.reserveMember bid id }

/-- The postings of an attempt's ending. -/
def close (b : Book) (t : TenantId) : Ending → Book
  | .success _ =>
    let b := (b.on t .stop).leave t
    { b with tally := { b.tally with completed := b.tally.completed + 1 } }
  | .failed _ =>
    let b := (b.on t .stop).leave t
    { b with tally := { b.tally with failed := b.tally.failed + 1 } }
  | .expired =>
    let b := (b.on t .stop).leave t
    { b with tally := { b.tally with expired := b.tally.expired + 1 } }
  | .stale => b

/-- The postings of a move, a reservation apart. -/
def post (b : Book) : Move → Book
  | .refuse rec => b.refuse (rec.state == .expired)
  | .accept spec _ => (b.on spec.tenant .enqueue).accept spec.tenant
  | .expire rec =>
    let b := (b.on rec.spec.tenant .dequeue).leave rec.spec.tenant
    { b with tally := { b.tally with expired := b.tally.expired + 1 } }
  | .start rec _ _ => b.on rec.spec.tenant .start
  | .finish rec _ e => b.close rec.spec.tenant e
  | .cancel rec _ _ _ =>
    let b := if rec.onWorker then b.on rec.spec.tenant .stop else b
    let b := (b.on rec.spec.tenant .dequeue).leave rec.spec.tenant
    { b with tally := { b.tally with cancelled := b.tally.cancelled + 1 } }
  | .retry rec _ =>
    let b := (b.on rec.spec.tenant .stop).on rec.spec.tenant .enqueue
    { b with tally := { b.tally with attempts := b.tally.attempts + 1, retries := b.tally.retries + 1 } }
  | .reserve _ _ | .flag _ _ | .advance _ | .draw | .pop _ _ | .sleep _ | .sweep _ | .setWorker _
  | .dropWorker _ => b

/-- A move with its postings. -/
def move (b : Book) (m : Move) : Book :=
  match m with
  | .reserve wr members =>
    members.foldl (reserveMember b.core.ids.peek)
      { b with core :=
        { b.core with
          ids := b.core.ids.tick
          pool := b.core.pool.reserve wr.id b.core.ids.peek (b.core.batchUnits members) members } }
  | m => { b.post m with core := b.core.act m }

/-- What an entry does. -/
def act (b : Book) : Entry → Book
  | .move m => b.move m
  | .turnAway =>
    { b with tally := { b.tally with submitted := b.tally.submitted + 1, deferred := b.tally.deferred + 1 } }
  | .dismiss late => b.refuse late
  | .again rec spec =>
    { (b.on rec.spec.tenant .enqueue).accept spec.tenant with
      core := { b.core with ids := b.core.ids.tick.tick }.enqueue rec }
  | .settle t => b.on t .stop

end Book

/-- The entries as a machine of their own. -/
def books : Machine Book Entry Unit := ⟨fun b e => (b.act e, ())⟩

theorem leads_post {P : Book → Entry → Prop} {b : Book} {e : Entry} (h : P b e) : books.Leads P b (b.act e) :=
  Machine.Leads.single h

/-! ## The core of a book -/

namespace Book

theorem reserveMember_core (bid : BatchId) (b : Book) (id : RequestId) :
    (b.reserveMember bid id).core = b.core.reserveMember bid id := by
  cases h : b.core.requests.find id with
  | none => simp only [reserveMember, Core.reserveMember, h]
  | some m => simp only [reserveMember, h]

theorem foldl_reserveMember_core (bid : BatchId) : ∀ (ids : List RequestId) (b : Book),
    (ids.foldl (reserveMember bid) b).core = ids.foldl (Core.reserveMember bid) b.core
  | [], _ => rfl
  | id :: ids, b => by
    rw [List.foldl_cons, List.foldl_cons, foldl_reserveMember_core bid ids, reserveMember_core]

@[simp] theorem move_core (b : Book) (m : Move) : (b.move m).core = b.core.act m := by
  cases m with
  | reserve wr members => exact foldl_reserveMember_core _ members _
  | _ => rfl

end Book

/-! ## The tenants' counters -/

namespace Impl

/-- The counters after a write to a tenant's record. -/
theorem counts_onTenant (s : Impl) (t : TenantId) {f : TenantRecord → TenantRecord} {g : Counts → Counts}
    (hk : ∀ tr, (f tr).tenant = tr.tenant) (hc : ∀ tr, (f tr).counts = g tr.counts) :
    (s.onTenant t f).counts = Function.update s.counts t (g (s.counts t)) := by
  funext t'
  show (((s.onTenant t f).tenants.find t').getD _).counts = _
  rw [find_onTenant s t hk]
  by_cases ht : t = t'
  · subst ht
    rw [if_pos rfl, Function.update_self, Option.getD_some]
    exact hc _
  · rw [if_neg ht, Function.update_of_ne (Ne.symm ht)]
    rfl

/-- A write through an iterator that does not change the counters of a new
record. -/
theorem counts_onTenantIfAny (s : Impl) (t : TenantId) {f : TenantRecord → TenantRecord} {g : Counts → Counts}
    (hk : ∀ tr, (f tr).tenant = tr.tenant) (hc : ∀ tr, (f tr).counts = g tr.counts) (hg : g {} = {}) :
    (s.onTenantIfAny t f).counts = Function.update s.counts t (g (s.counts t)) := by
  cases h : s.tenants.find t with
  | none =>
    have hnew : s.counts t = {} := by simp only [counts, tenantOf, h, Option.getD_none, TenantRecord.counts]
    have hsame : (s.onTenantIfAny t f).counts = s.counts := by
      funext t'
      simp only [counts, tenantOf, onTenantIfAny, h]
    rw [hsame, hnew, hg, ← hnew, Function.update_eq_self]
  | some tr =>
    have hon : (s.onTenantIfAny t f).counts = (s.onTenant t f).counts := by
      funext t'
      simp only [counts, tenantOf, onTenantIfAny, onTenant, h, Option.getD_some]
    rw [hon, counts_onTenant s t hk hc]

section

variable (s : Impl) (t : TenantId)

theorem counts_enter : (s.onTenant t fun tr => { tr with admitted := tr.admitted + 1 }).counts =
    Function.update s.counts t (s.counts t).enter :=
  counts_onTenant s t (g := .enter) (fun _ => rfl) (fun _ => rfl)

theorem counts_leave : (s.onTenant t fun tr => { tr with admitted := decPos tr.admitted }).counts =
    Function.update s.counts t (s.counts t).leave :=
  counts_onTenant s t (g := .leave) (fun _ => rfl) (fun _ => rfl)

theorem counts_start : (s.onTenant t fun tr => { tr with running := tr.running + 1 }).counts =
    Function.update s.counts t (s.counts t).start :=
  counts_onTenant s t (g := .start) (fun _ => rfl) (fun _ => rfl)

theorem counts_stop : (s.onTenant t fun tr => { tr with running := decPos tr.running }).counts =
    Function.update s.counts t (s.counts t).stop :=
  counts_onTenant s t (g := .stop) (fun _ => rfl) (fun _ => rfl)

theorem counts_stop_leave :
    (s.onTenant t fun tr => { tr with admitted := decPos tr.admitted, running := decPos tr.running }).counts =
      Function.update s.counts t (s.counts t).stop.leave :=
  counts_onTenant s t (g := fun c => c.stop.leave) (fun _ => rfl) (fun _ => rfl)

end

end Impl

end InferenceScheduler
