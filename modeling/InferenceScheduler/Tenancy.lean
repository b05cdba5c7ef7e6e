/-
Every waiting request's tenant has a record (`Housed`), whatever the
operations: requests start to wait in `enqueue_request` only, which asks for
the tenant's record, and no record of a tenant is ever dropped. Recovery keeps
this too, unless it stops halfway: then the requests are there and the tenants
are not.
-/
import InferenceScheduler.Records
import InferenceScheduler.Recovery

namespace InferenceScheduler

open Binary

/-! ## Operations -/

/-- Records of tenants are made, not dropped. -/
theorem Entry.subset_house (h : Set TenantId) (e : Entry) : h ⊆ e.house h := by
  intro t ht
  unfold Entry.house
  split <;> simp [ht]

/-- `Impl.Housed` for the view of the state the effects act on. -/
def Account.Housed (a : Account) : Prop :=
  ∀ id rec, a.book.core.requests.find id = some rec → Impl.waiting rec = true → rec.spec.tenant ∈ a.homes

/-- What starts to wait is new, or retried, or the record of an id in use: the
tenant's record is asked for. -/
theorem Account.Housed.act {s : Impl} {op : Op} {a : Account} {f : Deed} (h : a.Housed) (hf : Effected s op a f) :
    (a.act f).Housed := by
  cases f with
  | drain n | roll n => exact h
  | post e notes =>
    intro id rec hrec hw
    rw [act_post_book] at hrec
    rw [show (a.act (.post e notes)).homes = e.house a.homes from (foldl_tell notes _).2.2.2.2]
    cases e with
    | turnAway | settle t | dismiss late => exact h id rec hrec hw
    | again stored spec =>
      rcases Keyed.find_put_cases hrec with ⟨rfl, -⟩ | ⟨-, hold⟩
      · exact .inr (.inl rfl)
      · exact .inr (.inr (h id rec hold hw))
    | move m =>
      have hen := hf.1.1.1
      rw [show (a.book.act (.move m)).core = a.book.core.act m from a.book.move_core m] at hrec
      have hstate : rec.state = .queued ∨ rec.state = .admitted := by simpa [Impl.waiting] using hw
      rcases Core.find_act hen hrec with hs | ⟨old, hold, rfl | hwr⟩
      · cases hs with
        | accept => exact .inl rfl
        | refuse =>
          have hover := hen.2.1
          rcases hstate with hs | hs <;> simp [hs, isTerminal] at hover
      · exact Entry.subset_house _ _ (h id rec hold hw)
      · rw [hwr.spec]
        rcases hwr.waits hstate with hsame | ⟨r, rfl⟩
        · rw [Impl.waiting, hsame] at hw
          exact Entry.subset_house _ _ (h id old hold hw)
        · exact .inl rfl

/-- **Every operation keeps the waiting requests' tenants.** -/
theorem Impl.Housed.step {s : Impl} (h : s.Housed) (op : Op) : (s.step op).1.Housed := by
  have hs : s.account.Housed := h
  refine (step_effects s op).invariant (I := Account.Housed) (fun a f hf ha => ?_) hs
  exact ha.act hf

/-! ## Recovery -/

namespace Impl

theorem homes_enqueueLocked (s : Impl) (rec : RequestRecord) :
    (s.enqueueLocked rec).homes = insert rec.spec.tenant s.homes :=
  homes_onTenant _ _ (by intro; rfl)

/-- The loop that builds up the queue asks for the record of every tenant. -/
theorem mem_homes_foldl_enqueueLocked (l : List RequestRecord) (s : Impl) (k : TenantId)
    (h : k ∈ s.homes ∨ ∃ rec ∈ l, rec.spec.tenant = k) : k ∈ (l.foldl enqueueLocked s).homes := by
  induction l generalizing s with
  | nil => exact h.resolve_right (by simp)
  | cons rec l ih =>
    refine ih (s.enqueueLocked rec) ?_
    rw [homes_enqueueLocked]
    rcases h with h | ⟨rec', hmem, rfl⟩
    · exact .inl (.inr h)
    · rcases List.mem_cons.1 hmem with rfl | hmem
      · exact .inl (.inl rfl)
      · exact .inr ⟨rec', hmem, rfl⟩

theorem housed_rebuildReady (s : Impl) : s.rebuildReady.Housed := by
  intro id rec hrec hw
  rw [requests_rebuildReady, Option.map_eq_some_iff] at hrec
  obtain ⟨old, hold, rfl⟩ := hrec
  have hwait : waiting old = true := by
    by_contra hnot
    rw [if_neg hnot] at hw
    exact hnot hw
  rw [if_pos hwait]
  refine mem_homes_foldl_enqueueLocked _ s.resetQueued _ (.inr ⟨old, ?_, rfl⟩)
  exact List.mem_filter.2 ⟨Keyed.mem_records.2 (Keyed.find_key hold), hwait⟩

end Impl

/-- A recovery of this file does not stop halfway: it is refused before anything
is cleared, or read to its end. -/
def Whole (file : Option Bytes) : Prop :=
  ∀ payload, readPersistenceFile file = .ok payload → HasFormat payload → ∃ img rest, Decodes payload img rest

theorem Impl.Housed.doRecover {s : Impl} (h : s.Housed) {file : Option Bytes} (hwhole : Whole file) :
    (s.doRecover file).1.Housed := by
  rcases s.doRecover_cases file with ⟨mode, heq⟩ | ⟨payload, img, hfile, hread, ⟨_, hcut⟩ | heq⟩
  · rw [heq]
    exact h
  · -- The file is not one that is read halfway.
    obtain ⟨img', rest, hd⟩ := hwhole payload hfile (readable_isSome_iff.1 (by rw [hread]; rfl))
    exact absurd hd (hcut img' rest)
  · rw [heq]
    exact housed_rebuildReady _

/-! ## Runs with recoveries -/

/-- An operation, or a recovery from what a path holds. -/
inductive ServiceOp
  | op (op : Op)
  | recover (file : Option Bytes)

def Impl.serve (s : Impl) : ServiceOp → Impl × Answer
  | .op op => s.step op
  | .recover file => let r := s.doRecover file; (r.1, .done r.2)

/-- The scheduler over its operations and recoveries. -/
def recoverable : Machine Impl ServiceOp Answer := ⟨Impl.serve⟩

/-! ## What a recovery leaves -/

/-- Enqueue requests one after the other. -/
def Ready.enqueueAll (q : Ready) (cfg : SchedulerConfig) (now : ClockTime) (l : List RequestRecord) : Ready :=
  l.foldl (fun q rec => q.enqueue cfg now rec) q

namespace Impl

theorem mode_core (s : Impl) (mode : ℤ) : { s with recoveryMode := mode }.core = s.core := rfl

theorem foldl_enqueueLocked_core (l : List RequestRecord) (s : Impl) : (l.foldl enqueueLocked s).core =
    { s.core with
      requests := l.foldl (fun t rec => t.put rec.requeue) s.requests
      ready := s.ready.enqueueAll s.cfg s.now l } := by
  induction l generalizing s with
  | nil => rfl
  | cons rec l ih => exact ih (s.enqueueLocked rec)

/-- The queue is built up from nothing. -/
theorem rebuildReady_core (s : Impl) : s.rebuildReady.core =
    { s.core with
      requests := (s.requests.records.filter waiting).foldl (fun t rec => t.put rec.requeue) s.requests
      ready := { s.ready with globalQueued := 0 }.enqueueAll s.cfg s.now (s.requests.records.filter waiting) } :=
  foldl_enqueueLocked_core _ s.resetQueued

theorem find_rebuildReady (s : Impl) (r : RequestId) : s.rebuildReady.core.requests.find r =
    (s.requests.find r).map fun rec => if waiting rec then rec.requeue else rec :=
  s.requests_rebuildReady r

/-- The image that a recovery of this file reads, as far as it gets. -/
def readBack (file : Option Bytes) : Option SavedState :=
  match readPersistenceFile file with
  | .ok payload => readable payload
  | .error _ => none

theorem mem_readBack {file : Option Bytes} {img : SavedState} : img ∈ readBack file ↔
    ∃ payload, readPersistenceFile file = .ok payload ∧ readable payload = some img := by
  unfold readBack
  cases readPersistenceFile file with
  | ok payload => simp
  | error e => simp

/-- A core that was read from an image: nothing of the old requests and workers
is left. -/
structure Recovered (s : Impl) (img : SavedState) (c : Core) : Prop where
  ids : c.ids = s.idFactory
  pool : c.pool = (s.overwrite img).pool
  request : ∀ r rec, c.requests.find r = some rec → ∃ saved ∈ img.requests,
    rec = saved.restore s.now ∨ waiting (saved.restore s.now) = true ∧ rec = (saved.restore s.now).requeue

variable {s : Impl} {img : SavedState} {c : Core}

theorem find_overwrite {r : RequestId} {rec : RequestRecord} (h : (s.overwrite img).requests.find r = some rec) :
    ∃ saved ∈ img.requests, saved.restore s.now = rec := by
  have hfind : (img.requests.map (·.restore s.now)).find? (fun v => decide (v.requestId = r)) = some rec :=
    (find_rebuilt _ r).symm.trans h
  exact List.mem_map.1 (List.mem_of_find?_eq_some hfind)

theorem Recovered.worker (h : s.Recovered img c) {w : WorkerId} {wr : WorkerRecord}
    (hw : c.pool.workers.find w = some wr) : ∃ saved ∈ img.workers, saved.restore = wr := by
  rw [h.pool] at hw
  have hfind : (img.workers.map (·.restore)).find? (fun v => decide (v.id = w)) = some wr :=
    (find_rebuilt _ w).symm.trans hw
  exact List.mem_map.1 (List.mem_of_find?_eq_some hfind)

theorem Recovered.inBatch (h : s.Recovered img c) {r : RequestId} {rec : RequestRecord}
    (hf : c.requests.find r = some rec) : rec.inBatch = false ∧ rec.batchId = .invalid := by
  obtain ⟨saved, _, rfl | ⟨_, rfl⟩⟩ := h.request r rec hf <;> exact ⟨rfl, rfl⟩

/-- A request that was saved as over is over. -/
theorem Recovered.saved (h : s.Recovered img c) {r : RequestId} {rec : RequestRecord}
    (hf : c.requests.find r = some rec) : ∃ saved ∈ img.requests,
      (isTerminal rec.state = false → saved.live = true) ∧
      (rec = saved.restore s.now ∨ rec = (saved.restore s.now).requeue) := by
  obtain ⟨saved, hsaved, hrec⟩ := h.request r rec hf
  refine ⟨saved, hsaved, fun hrun => ?_, hrec.imp_right And.right⟩
  have hlive : isTerminal (saved.restore s.now).state = false := by
    rcases hrec with rfl | ⟨hw, _⟩
    · exact hrun
    · simp only [waiting, Bool.or_eq_true, beq_iff_eq] at hw
      rcases hw with hw | hw <;> (rw [hw]; rfl)
  simpa [SavedRequest.live, SavedRequest.restore] using hlive

theorem recovered_overwrite (s : Impl) (img : SavedState) : s.Recovered img (s.overwrite img).core := by
  refine ⟨rfl, rfl, fun r rec hf => ?_⟩
  obtain ⟨saved, hmem, rfl⟩ := find_overwrite hf
  exact ⟨saved, hmem, .inl rfl⟩

theorem recovered_rebuildReady (s : Impl) (img : SavedState) :
    s.Recovered img (s.overwrite img).rebuildReady.core := by
  refine ⟨by rw [rebuildReady_core]; rfl, by rw [rebuildReady_core]; rfl, fun r rec hf => ?_⟩
  rw [find_rebuildReady, Option.map_eq_some_iff] at hf
  obtain ⟨old, hold, rfl⟩ := hf
  obtain ⟨saved, hmem, rfl⟩ := find_overwrite hold
  refine ⟨saved, hmem, ?_⟩
  split
  · next hw => exact .inr ⟨hw, rfl⟩
  · exact .inl rfl

/-- A recovery leaves the core as it is, or writes one that it reads. -/
theorem doRecover_recovered (s : Impl) (file : Option Bytes) : (s.doRecover file).1.core = s.core ∨
    ∃ img ∈ readBack file, s.Recovered img (s.doRecover file).1.core := by
  rcases s.doRecover_cases file with ⟨mode, heq⟩ | ⟨payload, img, hfile, hread, hover⟩
  · exact .inl (heq ▸ rfl)
  · refine .inr ⟨img, mem_readBack.2 ⟨payload, hfile, hread⟩, ?_⟩
    rcases hover with ⟨heq, _⟩ | heq <;> rw [heq, mode_core]
    · have h := { s with recoveryMode := 1 }.recovered_overwrite img
      exact ⟨h.ids, h.pool, h.request⟩
    · have h := { s with recoveryMode := 1 }.recovered_rebuildReady img
      exact ⟨h.ids, h.pool, h.request⟩

end Impl

/-- No recovery stops halfway. -/
def RecoversWhole (_ : Impl) : ServiceOp → Prop
  | .op _ => True
  | .recover file => Whole file

/-- Runs of the operations alone are among them. -/
theorem allowed_whole {ops : List Op} (s : Impl) : recoverable.Allowed RecoversWhole s (ops.map .op) := by
  refine Machine.allowed_of_forall fun op hop _ => ?_
  obtain ⟨_, _, rfl⟩ := List.mem_map.1 hop
  trivial

theorem housed_init (cfg : SchedulerConfig) (now : ClockTime) (salt : UInt64) (epoch : Option SchedulerEpoch) :
    (Impl.init cfg now salt epoch).Housed := by
  intro id rec hrec
  cases hrec

theorem housed_run {s : Impl} {ops : List ServiceOp} (hs : s.Housed) (hops : recoverable.Allowed RecoversWhole s ops) :
    (recoverable.run s ops).Housed := by
  refine Machine.run_invariant (I := Impl.Housed) (fun s i hi hs => ?_) hs hops
  cases i with
  | op op => exact hs.step op
  | recover file => exact hs.doRecover hi

/-- **Every reachable state within the limits comes back on every written
field**, if no recovery on the way to it stopped halfway. -/
theorem roundTrip_run (cfg : SchedulerConfig) (now : ClockTime) (salt : UInt64) (epoch : Option SchedulerEpoch)
    (ops : List ServiceOp) (t : Impl) (hops : recoverable.Allowed RecoversWhole (.init cfg now salt epoch) ops)
    (h : (recoverable.run (.init cfg now salt epoch) ops).Typed)
    (hlim : (recoverable.run (.init cfg now salt epoch) ops).InLimits readerLimits) :
    ∃ t', t.deserializeLocked (recoverable.run (.init cfg now salt epoch) ops).serializeLocked = (t', .ok ()) ∧
      RoundTrip (recoverable.run (.init cfg now salt epoch) ops) t t' := by
  have hhoused := housed_run (housed_init cfg now salt epoch) hops
  exact ⟨_, Impl.deserializeLocked_serializeLocked h hlim t, Impl.roundTrip_of_housed h hhoused t⟩

theorem roundTrip_run_submitted :
    let ops : List ServiceOp := [.op (.registerWorker { worker := ⟨3⟩, bootId := ⟨1⟩ }),
      .op (.submit { tenant := ⟨1⟩, model := ⟨1⟩ } (some ⟨7⟩))]
    ∃ t', Impl.durable.deserializeLocked (recoverable.run .durable ops).serializeLocked = (t', .ok ()) ∧
      RoundTrip (recoverable.run .durable ops) .durable t' :=
  roundTrip_run { persistRecovery := true } 0 0x80000001 none _ .durable ⟨trivial, trivial, trivial⟩ (by decide +kernel)
    (by decide +kernel)

/-- An image that breaks off behind its only request. -/
def brokenOff : Bytes :=
  let r := ({ requestId := ⟨7⟩, state := .queued, spec := { tenant := ⟨1⟩, model := ⟨1⟩ } } : RequestRecord).save 0
  putU32 0x49534348 ++ (putU32 1 ++ (Impl.durable.saveHeader.pieces.flatten ++ (putCount [r] ++ r.pieces.flatten)))

/-- A recovery of it fails and leaves the request queued without its tenant;
what is persisted then comes back with one. -/
theorem brokenOff_differs : ¬∀ (cfg : SchedulerConfig) (now : ClockTime) (salt : UInt64) (epoch : Option SchedulerEpoch)
    (ops : List ServiceOp) (t : Impl), (recoverable.run (.init cfg now salt epoch) ops).Typed →
    (recoverable.run (.init cfg now salt epoch) ops).InLimits readerLimits →
    ∃ t', t.deserializeLocked (recoverable.run (.init cfg now salt epoch) ops).serializeLocked = (t', .ok ()) ∧
      RoundTrip (recoverable.run (.init cfg now salt epoch) ops) t t' := by
  intro h
  let ops : List ServiceOp := [.recover (some (writeFrame brokenOff))]
  obtain ⟨t', hrun, hround⟩ :=
    h { persistRecovery := true } 0 0x80000001 none ops .durable (by decide +kernel) (by decide +kernel)
  have htenant := hround.tenants ⟨1⟩
  have hbefore : ((recoverable.run .durable ops).tenants.find ⟨1⟩).isSome = false := by decide +kernel
  have hafter : ((Impl.durable.deserializeLocked (recoverable.run .durable ops).serializeLocked).1.tenants.find
      ⟨1⟩).isSome = true := by decide +kernel
  have hsame := congrArg Option.isSome htenant
  rw [Option.isSome_map] at hsame
  rw [show Impl.durable.deserializeLocked (recoverable.run .durable ops).serializeLocked = (t', .ok ()) from hrun,
    hsame] at hafter
  exact absurd (hbefore.symm.trans hafter) (by decide)

end InferenceScheduler
