/-
Conservation of requests. Every submission is counted as admitted, deferred or
rejected; every admitted request is live or was counted out once; and the two
levels of admission counters, global and per tenant, are the numbers of live
records. Seven places count a request out, each behind a guard that would hide
a second decrement: the counters are exact, so the guards never matter.
-/
import InferenceScheduler.Resubmit

namespace InferenceScheduler

open Machine

/-- A request that is not terminal. -/
def RequestRecord.live (rec : RequestRecord) : Bool := !isTerminal rec.state

/-- A live request of a tenant. -/
def RequestRecord.liveOf (t : TenantId) (rec : RequestRecord) : Bool := rec.spec.tenant == t && rec.live

/-! ## Sums over the records -/

/-- A move that writes one record exchanges its value in a sum. -/
theorem Core.sum_writes {c : Core} {m : Move} {rec rec' : RequestRecord} (f : RequestRecord → ℤ)
    (hw : Writes c m rec rec') (hf : c.Holds rec) (hone : ∀ wr members, m ≠ .reserve wr members) :
    (c.act m).requests.sum f = c.requests.sum f - f rec + f rec' := by
  have hput : ∀ new : RequestRecord, new.requestId = rec.requestId →
      (c.requests.put new).sum f = c.requests.sum f - f rec + f new := by
    intro new hid
    exact Keyed.sum_put (by rw [hid]; exact hf)
  cases hw with
  | expire | start | flag => exact hput _ rfl
  | reserve => exact absurd rfl (hone _ _)
  | finish =>
    apply hput
    rw [Ending.close_requestId, Pool.released_requestId, Ending.note_requestId]
  | cancel => exact hput _ (c.unworked_requestId _ _)
  | retry => exact hput _ (c.pool.released_requestId _ _)

theorem Core.count_writes {c : Core} {m : Move} {rec rec' : RequestRecord} (p : RequestRecord → Bool)
    (hw : Writes c m rec rec') (hf : c.Holds rec) (hone : ∀ wr members, m ≠ .reserve wr members) :
    ((c.act m).requests.count p : ℤ) =
      c.requests.count p - (if p rec then 1 else 0) + if p rec' then 1 else 0 := by
  rw [Keyed.count_eq_sum, Keyed.count_eq_sum, sum_writes _ hw hf hone]

/-- A stored member of a batch exchanges its value in a sum. -/
theorem Core.sum_reserveMember (c : Core) (bid : BatchId) {id : RequestId} {rec : RequestRecord}
    (f : RequestRecord → ℤ) (h : c.requests.find id = some rec) :
    (c.reserveMember bid id).requests.sum f = c.requests.sum f - f rec + f (rec.reserve bid c.now) := by
  have hid : rec.requestId = id := Keyed.key_of_find h
  simp only [reserveMember, h]
  exact Keyed.sum_put (by rw [show (rec.reserve bid c.now).requestId = id from hid]; exact h)

theorem Core.count_reserveMember (c : Core) (bid : BatchId) {id : RequestId} {rec : RequestRecord}
    (p : RequestRecord → Bool) (h : c.requests.find id = some rec) :
    ((c.reserveMember bid id).requests.count p : ℤ) =
      c.requests.count p - (if p rec then 1 else 0) + if p (rec.reserve bid c.now) then 1 else 0 := by
  rw [Keyed.count_eq_sum, Keyed.count_eq_sum, sum_reserveMember c bid _ h]

theorem Core.sum_reserve_le {bid : BatchId} {f : RequestRecord → ℤ} :
    ∀ (ids : List RequestId) (c : Core), ids.Nodup →
      (∀ id ∈ ids, ∃ rec, c.requests.find id = some rec ∧ f (rec.reserve bid c.now) ≤ f rec) →
      (ids.foldl (reserveMember bid) c).requests.sum f ≤ c.requests.sum f
  | [], _, _, _ => le_refl _
  | id :: ids, c, hn, hids => by
    obtain ⟨hid, hn⟩ := List.nodup_cons.1 hn
    obtain ⟨rec, hf, hle⟩ := hids id List.mem_cons_self
    have hone := c.sum_reserveMember bid f hf
    have hrest := sum_reserve_le (f := f) ids (c.reserveMember bid id) hn fun id' hid' => by
      rw [reserveMember_find, if_neg (by rintro rfl; exact hid hid'), (reserveMember_frame bid c id).2.1]
      exact hids id' (List.mem_cons_of_mem _ hid')
    rw [List.foldl_cons]
    omega

/-- A sum grows only by what a move stores or raises. -/
theorem Core.sum_act_le {c : Core} {m : Move} {f : RequestRecord → ℤ} (hen : Enabled c m)
    (hwrite : ∀ rec rec', c.Holds rec → Writes c m rec rec' → f rec' ≤ f rec)
    (hstore : ∀ rec, Stores c m rec → f rec ≤ 0) : (c.act m).requests.sum f ≤ c.requests.sum f := by
  have hone : ∀ {rec rec'}, Writes c m rec rec' → c.Holds rec → (∀ wr members, m ≠ .reserve wr members) →
      (c.act m).requests.sum f ≤ c.requests.sum f := by
    intro rec rec' hw hf hne
    have hle := hwrite rec rec' hf hw
    rw [sum_writes f hw hf hne]
    omega
  cases m with
  | advance | draw | pop | sleep | sweep | setWorker | dropWorker => exact le_refl _
  | refuse rec =>
    have hle := hstore rec .refuse
    rw [show (c.act (.refuse rec)).requests = c.requests.put rec from rfl, Keyed.sum_put_of_none hen.1]
    omega
  | accept spec rid =>
    have hle := hstore _ .accept
    have hsum := Keyed.sum_put_of_none (t := c.requests) (f := f)
      (w := Impl.admittedRecord spec rid c.ids.peek c.ids.tick.peek c.now) hen
    show (c.requests.put (Impl.admittedRecord spec rid c.ids.peek c.ids.tick.peek c.now)).sum f ≤ _
    omega
  | reserve wr members =>
    refine sum_reserve_le members _ hen.1 fun id hid => ?_
    obtain ⟨rec, hf, _⟩ := hen.2.2.2.2 id hid
    have hmem : rec.requestId ∈ members := (Keyed.key_of_find hf).symm ▸ hid
    exact ⟨rec, hf, hwrite rec _ (Keyed.find_key hf) (.reserve hmem)⟩
  | expire rec => exact hone .expire hen.1 (by simp)
  | start rec wr snap => exact hone .start hen.1 (by simp)
  | finish rec w e => exact hone .finish hen.1 (by simp)
  | cancel rec asked w reason => exact hone .cancel hen.1 (by simp)
  | flag rec asked => exact hone .flag hen.1 (by simp)
  | retry rec r => exact hone .retry hen.1 (by simp)

/-- A sum no write changes is changed by what a move stores. -/
theorem Core.sum_act_eq {c : Core} {m : Move} {f : RequestRecord → ℤ} (hen : Enabled c m)
    (hwrite : ∀ rec rec', c.Holds rec → Writes c m rec rec' → f rec' = f rec)
    (hstore : ∀ rec, Stores c m rec → f rec = 0) : (c.act m).requests.sum f = c.requests.sum f := by
  have hle := sum_act_le (f := f) hen (fun rec rec' hf hw => (hwrite rec rec' hf hw).le) fun rec hs => (hstore rec hs).le
  have hge := sum_act_le (f := fun rec => -f rec) hen
    (fun rec rec' hf hw => (neg_inj.2 (hwrite rec rec' hf hw)).le) fun rec hs => (by rw [hstore rec hs]; rfl)
  rw [Keyed.sum_neg, Keyed.sum_neg] at hge
  omega

/-- What reserving each member of a batch keeps, the reservation keeps. -/
theorem Book.reserve_invariant {I : Book → Prop} {b : Book} {wr : WorkerRecord} {members : List RequestId}
    (hstep : ∀ b' id rec, b'.core.requests.find id = some rec → (rec.state = .queued ∨ rec.state = .admitted) →
      I b' → I (b'.reserveMember b.core.ids.peek id))
    (hpool : ∀ p, I { b with core := { b.core with ids := b.core.ids.tick, pool := p } })
    (hen : Enabled b.core (.reserve wr members)) : I (b.act (.move (.reserve wr members))) := by
  have key : ∀ (ids : List RequestId) (b' : Book), ids.Nodup →
      (∀ id ∈ ids, ∃ rec, b'.core.requests.find id = some rec ∧ (rec.state = .queued ∨ rec.state = .admitted)) →
      I b' → I (ids.foldl (reserveMember b.core.ids.peek) b') := by
    intro ids
    induction ids with
    | nil => exact fun _ _ _ h => h
    | cons id ids ih =>
      intro b' hn hrun h
      obtain ⟨hid, hn⟩ := List.nodup_cons.1 hn
      obtain ⟨rec, hf, hs⟩ := hrun id List.mem_cons_self
      refine ih _ hn (fun id' hid' => ?_) (hstep b' id rec hf hs h)
      rw [reserveMember_core, Core.reserveMember_find, if_neg (by rintro rfl; exact hid hid')]
      exact hrun id' (List.mem_cons_of_mem _ hid')
  exact key members _ hen.1 hen.2.2.2.2 (hpool _)

/-! ## The admission counters -/

/-- The counters of a tenant after a write that leaves one of them alone. -/
theorem Book.on_apply {α : Type} (g : Counts → α) {f : Counts → Counts} (hf : ∀ c, g (f c) = g c) (b : Book)
    (t t' : TenantId) : g ((b.on t f).tenants t') = g (b.tenants t') := by
  simp only [on, Function.update_apply]
  split
  · next h => rw [hf, h]
  · rfl

/-- A request of `t` leaves the admitted ones. -/
theorem Book.leave_admitted (b : Book) (t t' : TenantId) : ((b.leave t).tenants t').admitted =
    if t = t' then decPos (b.tenants t').admitted else (b.tenants t').admitted := by
  simp only [leave, on, Function.update_apply, eq_comm (a := t')]
  split
  · next h => rw [h]; rfl
  · rfl

structure Conserved (b : Book) : Prop where
  submitted : b.tally.submitted = b.tally.admitted + b.tally.deferred + b.tally.rejected
  admitted : b.tally.admitted = b.tally.completed + b.tally.cancelled + b.tally.expired + b.tally.failed +
    b.core.requests.count RequestRecord.live
  global : b.admitted = b.core.requests.count RequestRecord.live
  tenant : ∀ t, (b.tenants t).admitted = b.core.requests.count (RequestRecord.liveOf t)

/-- One more request is counted out. -/
structure Tally.Exit (τ τ' : Tally) : Prop where
  submitted : τ'.submitted = τ.submitted
  admitted : τ'.admitted = τ.admitted
  deferred : τ'.deferred = τ.deferred
  rejected : τ'.rejected = τ.rejected
  out : τ'.completed + τ'.cancelled + τ'.expired + τ'.failed = τ.completed + τ.cancelled + τ.expired + τ.failed + 1

namespace Tally.Exit

variable (τ : Tally)

theorem completed : τ.Exit { τ with completed := τ.completed + 1 } := ⟨rfl, rfl, rfl, rfl, by dsimp only; omega⟩

theorem cancelled : τ.Exit { τ with cancelled := τ.cancelled + 1 } := ⟨rfl, rfl, rfl, rfl, by dsimp only; omega⟩

theorem expired : τ.Exit { τ with expired := τ.expired + 1 } := ⟨rfl, rfl, rfl, rfl, by dsimp only; omega⟩

theorem failed : τ.Exit { τ with failed := τ.failed + 1 } := ⟨rfl, rfl, rfl, rfl, by dsimp only; omega⟩

end Tally.Exit

/-- The live requests when a live one is written. -/
theorem Core.live_writes {c : Core} {m : Move} {rec rec' : RequestRecord} (hw : Writes c m rec rec')
    (hf : c.Holds rec) (hone : ∀ wr members, m ≠ .reserve wr members) (hl : rec.live = true) :
    ((c.act m).requests.count RequestRecord.live : ℤ) =
        c.requests.count RequestRecord.live - (if rec'.live then 0 else 1) ∧
      ∀ t, ((c.act m).requests.count (RequestRecord.liveOf t) : ℤ) =
        c.requests.count (RequestRecord.liveOf t) - if rec.spec.tenant = t ∧ rec'.live = false then 1 else 0 := by
  refine ⟨?_, fun t => ?_⟩
  · rw [count_writes _ hw hf hone, hl]
    cases rec'.live <;> simp
  · rw [count_writes _ hw hf hone]
    simp only [RequestRecord.liveOf, hw.spec, hl, Bool.and_true]
    by_cases ht : rec.spec.tenant = t
    · cases rec'.live <;> simp [ht]
    · simp [ht]

section

variable {b b' : Book} {m : Move} {rec rec' : RequestRecord}

/-- A live request is written that stays live. -/
theorem Conserved.keep (h : Conserved b) (hw : Writes b.core m rec rec') (hf : b.core.Holds rec)
    (hone : ∀ wr members, m ≠ .reserve wr members) (hl : rec.live = true) (hl' : rec'.live = true)
    (hreq : b'.core = b.core.act m) (hadm : b'.admitted = b.admitted)
    (htally : b'.tally = { b.tally with attempts := b'.tally.attempts, retries := b'.tally.retries })
    (hten : ∀ t, (b'.tenants t).admitted = (b.tenants t).admitted) : Conserved b' := by
  obtain ⟨hlive, hof⟩ := Core.live_writes hw hf hone hl
  have hadmitted := h.admitted
  have hglobal := h.global
  simp only [hl', ↓reduceIte, Bool.true_eq_false, and_false, sub_zero] at hlive hof
  refine ⟨?_, ?_, ?_, fun t => ?_⟩
  · rw [htally]
    exact h.submitted
  · rw [htally, hreq]
    dsimp only
    omega
  · rw [hadm, hreq]
    omega
  · rw [hten, hreq, hof, h.tenant]

/-- A live request ends and is counted out. -/
theorem Conserved.exit (h : Conserved b) (hw : Writes b.core m rec rec') (hf : b.core.Holds rec)
    (hone : ∀ wr members, m ≠ .reserve wr members) (hl : rec.live = true) (hl' : rec'.live = false)
    (hreq : b'.core = b.core.act m) (hadm : b'.admitted = decPos b.admitted) (htally : b.tally.Exit b'.tally)
    (hten : ∀ t, (b'.tenants t).admitted =
      if rec.spec.tenant = t then decPos (b.tenants t).admitted else (b.tenants t).admitted) : Conserved b' := by
  obtain ⟨hlive, hof⟩ := Core.live_writes hw hf hone hl
  have hsubmitted := h.submitted
  have hadmitted := h.admitted
  have hglobal := h.global
  obtain ⟨hs, ha, hd, hr, hout⟩ := htally
  simp only [hl', Bool.false_eq_true, ↓reduceIte, and_true] at hlive hof
  have hpos : 0 < b.core.requests.count RequestRecord.live := Keyed.count_pos_iff.2 ⟨_, rec, hf, hl⟩
  refine ⟨by omega, ?_, ?_, fun t => ?_⟩
  · rw [hreq]
    omega
  · rw [hadm, hreq, decPos, if_pos (by omega)]
    omega
  · rw [hten, hreq, hof]
    by_cases ht : rec.spec.tenant = t
    · have hpos : 0 < b.core.requests.count (RequestRecord.liveOf t) :=
        Keyed.count_pos_iff.2 ⟨_, rec, hf, by simp [RequestRecord.liveOf, ht, hl]⟩
      have htenant := h.tenant t
      rw [if_pos ht, if_pos ht, decPos, if_pos (by omega), htenant]
    · rw [if_neg ht, if_neg ht, h.tenant, sub_zero]

end

/-- Reserving a member of a batch moves no admission counter. -/
theorem Conserved.reserveMember {b : Book} {bid : BatchId} {id : RequestId} {rec : RequestRecord} (h : Conserved b)
    (hf : b.core.requests.find id = some rec) (hs : rec.state = .queued ∨ rec.state = .admitted) :
    Conserved (b.reserveMember bid id) := by
  have hl : rec.live = true := by rcases hs with hs | hs <;> simp [RequestRecord.live, hs, isTerminal]
  have hlive := b.core.count_reserveMember bid RequestRecord.live hf
  have hof : ∀ t, ((b.core.reserveMember bid id).requests.count (RequestRecord.liveOf t) : ℤ) =
      b.core.requests.count (RequestRecord.liveOf t) := by
    intro t
    rw [b.core.count_reserveMember bid (RequestRecord.liveOf t) hf]
    simp only [RequestRecord.liveOf, hl, show (rec.reserve bid b.core.now).live = true from rfl,
      show (rec.reserve bid b.core.now).spec = rec.spec from rfl]
    omega
  simp only [hl, show (rec.reserve bid b.core.now).live = true from rfl, ↓reduceIte] at hlive
  have hadmitted := h.admitted
  have hglobal := h.global
  simp only [Book.reserveMember, hf]
  refine ⟨h.submitted, ?_, ?_, fun t => ?_⟩
  · dsimp only [Book.on]
    omega
  · dsimp only [Book.on]
    omega
  · exact (b.on_apply Counts.admitted (f := .dequeue) (fun _ => rfl) rec.spec.tenant t).trans
      ((h.tenant t).trans (hof t).symm)

theorem Conserved.init (cfg : SchedulerConfig) (now : ClockTime) (salt : UInt64) (epoch : Option SchedulerEpoch) :
    Conserved (Impl.init cfg now salt epoch).book := by
  refine ⟨rfl, rfl, rfl, fun t => rfl⟩

/-- A new request is stored that is over. -/
theorem Conserved.refuse {b : Book} {rec : RequestRecord} (h : Conserved b)
    (hen : Enabled b.core (.refuse rec)) : Conserved (b.act (.move (.refuse rec))) := by
  have hl : rec.live = false := by simp [RequestRecord.live, hen.2.1]
  have hcount : ∀ p : RequestRecord → Bool, p rec = false →
      ((b.core.requests.put rec).count p : ℤ) = b.core.requests.count p := by
    intro p hp
    rw [Keyed.count_put_of_none hen.1, hp]
    simp
  have hlive := hcount _ hl
  have hsubmitted := h.submitted
  have hadmitted := h.admitted
  have hglobal := h.global
  refine ⟨?_, ?_, ?_, fun t => ?_⟩
  · simp only [Book.act, Book.move, Book.post, Book.refuse]
    split <;> simp only <;> omega
  · simp only [Book.act, Book.move, Book.post, Book.refuse, Core.act, Core.put]
    split <;> simp only <;> omega
  · simp only [Book.act, Book.move, Book.post, Book.refuse, Core.act, Core.put]
    omega
  · exact (h.tenant t).trans (hcount _ (by simp [RequestRecord.liveOf, hl])).symm

/-- A new request is stored and enqueued. -/
theorem Conserved.accept {b : Book} {spec : RequestSpec} {rid : RequestId} (h : Conserved b)
    (hen : Enabled b.core (.accept spec rid)) : Conserved (b.act (.move (.accept spec rid))) := by
  set new := { Impl.admittedRecord spec rid b.core.ids.peek b.core.ids.tick.peek b.core.now with
    state := .queued, queuedAt := b.core.now } with hnew
  have hnone : b.core.requests.find new.requestId = none := hen
  have hlive : ((b.core.requests.put new).count RequestRecord.live : ℤ) = b.core.requests.count RequestRecord.live + 1 :=
    Keyed.count_put_of_none hnone
  have hof : ∀ t, ((b.core.requests.put new).count (RequestRecord.liveOf t) : ℤ) =
      b.core.requests.count (RequestRecord.liveOf t) + if spec.tenant = t then 1 else 0 := by
    intro t
    rw [Keyed.count_put_of_none hnone]
    simp [RequestRecord.liveOf, hnew, Impl.admittedRecord, RequestRecord.live, isTerminal]
  have hsubmitted := h.submitted
  have hadmitted := h.admitted
  have hglobal := h.global
  refine ⟨?_, ?_, ?_, fun t => ?_⟩
  · show b.tally.submitted + 1 = b.tally.admitted + 1 + b.tally.deferred + b.tally.rejected
    omega
  · show b.tally.admitted + 1 = b.tally.completed + b.tally.cancelled + b.tally.expired + b.tally.failed +
      (b.core.requests.put new).count RequestRecord.live
    omega
  · show b.admitted + 1 = (b.core.requests.put new).count RequestRecord.live
    omega
  · refine Eq.trans ?_ (hof t).symm
    rw [← h.tenant t]
    show (((b.on spec.tenant .enqueue).on spec.tenant .enter).tenants t).admitted = _
    by_cases ht : spec.tenant = t
    · subst ht
      rw [if_pos rfl]
      simp only [Book.on, Function.update_self]
      rfl
    · rw [if_neg ht, add_zero]
      simp only [Book.on, Function.update_of_ne (Ne.symm ht)]

theorem Conserved.act {s : Impl} {op : Op} {b : Book} {e : Entry} (h : Conserved b) (hfresh : FreshSubmit s op)
    (he : Posted s op b e) : Conserved (b.act e) := by
  have hsubmitted := h.submitted
  cases e with
  | turnAway =>
    refine ⟨?_, h.admitted, h.global, h.tenant⟩
    show b.tally.submitted + 1 = b.tally.admitted + (b.tally.deferred + 1) + b.tally.rejected
    omega
  | dismiss late => exact absurd hfresh he
  | again rec spec => exact absurd hfresh he.1
  | settle t =>
    exact ⟨h.submitted, h.admitted, h.global, fun t' =>
      (b.on_apply Counts.admitted (f := .stop) (fun _ => rfl) t t').trans (h.tenant t')⟩
  | move m =>
    have hen := he.1.1
    cases m with
    | advance | draw | pop | sleep | sweep | setWorker | dropWorker =>
      exact ⟨h.submitted, h.admitted, h.global, h.tenant⟩
    | refuse rec => exact h.refuse hen
    | accept spec rid => exact h.accept hen
    | reserve wr members =>
      refine Book.reserve_invariant (fun b' id rec hf hs hb' => hb'.reserveMember hf hs) (fun p => ?_) hen
      exact ⟨h.submitted, h.admitted, h.global, h.tenant⟩
    | expire rec =>
      have hl : rec.live = true := by simp [RequestRecord.live, hen.2, isTerminal]
      refine h.exit .expire hen.1 (by simp) hl rfl rfl rfl (.expired b.tally) fun t => ?_
      refine ((b.on rec.spec.tenant .dequeue).leave_admitted rec.spec.tenant t).trans ?_
      rw [b.on_apply Counts.admitted (f := .dequeue) fun _ => rfl]
    | start rec wr snap =>
      refine h.keep .start hen.1 (by simp) (by simp [RequestRecord.live, hen.2.1, isTerminal]) rfl rfl rfl rfl fun t => ?_
      exact b.on_apply Counts.admitted (f := .start) (fun _ => rfl) rec.spec.tenant t
    | flag rec asked =>
      have hl : rec.live = true := by rcases hen.2 with hs | hs <;> simp [RequestRecord.live, hs, isTerminal]
      exact h.keep .flag hen.1 (by simp) hl hl rfl rfl rfl fun _ => rfl
    | retry rec r =>
      refine h.keep .retry hen.1 (by simp) (by simp [RequestRecord.live, hen.2.1]) rfl rfl rfl rfl fun t => ?_
      refine ((b.on rec.spec.tenant .stop).on_apply Counts.admitted (f := .enqueue) (fun _ => rfl)
        rec.spec.tenant t).trans ?_
      exact b.on_apply Counts.admitted (f := .stop) (fun _ => rfl) rec.spec.tenant t
    | cancel rec asked w reason =>
      have hstop : ∀ b₁, b₁ = (if rec.onWorker then b.on rec.spec.tenant .stop else b) →
          b₁.admitted = b.admitted ∧ b₁.tally = b.tally ∧
            ∀ t, (b₁.tenants t).admitted = (b.tenants t).admitted := by
        intro b₁ hb₁
        split at hb₁ <;> subst hb₁
        · exact ⟨rfl, rfl, b.on_apply Counts.admitted (f := .stop) (fun _ => rfl) rec.spec.tenant⟩
        · exact ⟨rfl, rfl, fun _ => rfl⟩
      obtain ⟨hadm, htally, hten⟩ := hstop _ rfl
      refine h.exit .cancel hen.1 (by simp) (by simp [RequestRecord.live, hen.2]) rfl rfl ?_ ?_ fun t => ?_
      · exact congrArg decPos hadm
      · simp only [Book.act, Book.move, Book.post, Book.leave, Book.on] at htally ⊢
        rw [htally]
        exact .cancelled b.tally
      · simp only [Book.act, Book.move, Book.post]
        rw [Book.leave_admitted, Book.on_apply Counts.admitted (f := .dequeue) fun _ => rfl, hten]
    | finish rec w e =>
      have hl : rec.live = true := by simp [RequestRecord.live, hen.2.1]
      -- The three endings that count the request out write the tenant alike.
      have hten : ∀ t, (((b.on rec.spec.tenant .stop).leave rec.spec.tenant).tenants t).admitted =
          if rec.spec.tenant = t then decPos (b.tenants t).admitted else (b.tenants t).admitted := by
        intro t
        rw [Book.leave_admitted, b.on_apply Counts.admitted (f := .stop) fun _ => rfl]
      cases e with
      | success r =>
        refine h.exit .finish hen.1 (by simp) hl ?_ rfl rfl ?_ hten
        · simp [RequestRecord.live, Ending.close, Ending.note, RequestRecord.succeed, isTerminal]
        · exact .completed b.tally
      | failed r => exact h.exit .finish hen.1 (by simp) hl rfl rfl rfl (.failed b.tally) hten
      | expired => exact h.exit .finish hen.1 (by simp) hl rfl rfl rfl (.expired b.tally) hten
      | stale =>
        refine h.keep .finish hen.1 (by simp) hl ?_ rfl rfl rfl fun _ => rfl
        simpa [RequestRecord.live, Ending.close, Ending.note, RequestRecord.noteStale] using hl

/-- Submissions, admissions and live requests add up. -/
structure Conservation (s : Impl) : Prop where
  submitted : s.stats.requestsSubmitted =
    s.stats.requestsAdmitted + s.stats.requestsDeferred + s.stats.requestsRejected
  admitted : s.stats.requestsAdmitted = s.stats.requestsCompleted + s.stats.requestsCancelled +
    s.stats.requestsExpired + s.stats.requestsFailed + s.requests.count RequestRecord.live
  global : s.globalAdmitted = s.requests.count RequestRecord.live
  tenant : ∀ t, (s.tenantOf t).admitted = s.requests.count (RequestRecord.liveOf t)
  /-- The guards before the decrements hold whenever there is a request to
  count out. -/
  guarded : ∀ r rec, s.requests.find r = some rec → rec.live = true →
    0 < s.globalAdmitted ∧ 0 < (s.tenantOf rec.spec.tenant).admitted

theorem Conserved.conservation {s : Impl} (h : Conserved s.book) : Conservation s := by
  refine ⟨h.submitted, h.admitted, h.global, h.tenant, fun r rec hf hl => ⟨?_, ?_⟩⟩
  · rw [show s.globalAdmitted = _ from h.global]
    exact Int.natCast_pos.2 (Keyed.count_pos_iff.2 ⟨r, rec, hf, hl⟩)
  · rw [show (s.tenantOf rec.spec.tenant).admitted = _ from h.tenant rec.spec.tenant]
    exact Int.natCast_pos.2 (Keyed.count_pos_iff.2 ⟨r, rec, hf, by simp [RequestRecord.liveOf, hl]⟩)

section

variable {cfg : SchedulerConfig} {now : ClockTime} {salt : UInt64} {epoch : Option SchedulerEpoch} {ops : List Op}

theorem conserved_run (hfresh : scheduler.Allowed FreshSubmit (Impl.init cfg now salt epoch) ops) :
    Conserved (scheduler.run (Impl.init cfg now salt epoch) ops).book :=
  books_invariant (fun _ _ _ _ hok he h => h.act hok he) (.init cfg now salt epoch) hfresh

end

/-- **Conservation of requests.** In every state of a run with fresh ids, the
submissions and the admitted requests are accounted for. -/
theorem requests_conserved {cfg : SchedulerConfig} {now : ClockTime} {salt : UInt64}
    {epoch : Option SchedulerEpoch} {ops : List Op}
    (hfresh : scheduler.Allowed FreshSubmit (Impl.init cfg now salt epoch) ops) :
    Conservation (scheduler.run (Impl.init cfg now salt epoch) ops) :=
  (conserved_run hfresh).conservation

/-- Two requests of one tenant, one cancelled while queued and the other
retried after a failure. -/
theorem requests_conserved_retried :
    Conservation (scheduler.run (Impl.init {} 0 0x80000001 none) [.registerWorker (plainWorker 3),
      .submit plainSpec (some ⟨7⟩), .submit plainSpec (some ⟨8⟩), .cancel ⟨8⟩ .clientRequested "",
      .planDispatch ⟨7⟩ false, .confirmStart (firstReport 3 .failed), .complete (firstReport 3 .failed)]) :=
  requests_conserved (by decide +kernel)

/-! ## Admission caps -/

/-- A tenant without a record has no request admitted or queued. -/
theorem Admissible.counts_lt {s : Impl} {spec : RequestSpec} (h : Admissible s spec) :
    (1 ≤ s.cfg.admission.defaultTenantConcurrency →
        (s.counts spec.tenant).admitted < s.cfg.admission.defaultTenantConcurrency) ∧
      (1 ≤ s.cfg.admission.defaultTenantQueueDepth →
        (s.counts spec.tenant).queued < s.cfg.admission.defaultTenantQueueDepth) := by
  cases hf : s.tenants.find spec.tenant with
  | none =>
    simp only [Impl.counts, Impl.tenantOf, hf, Option.getD_none, TenantRecord.counts]
    omega
  | some tr =>
    obtain ⟨ha, hq⟩ := h.tenantRoom tr hf
    simp only [Impl.counts, Impl.tenantOf, hf, Option.getD_some, TenantRecord.counts]
    exact ⟨fun _ => ha, fun _ => hq⟩

theorem decPos_le (n : ℤ) : decPos n ≤ n := by
  rw [decPos]
  split <;> omega

/-- The admission counters of `b'` are at most those of `b`. -/
def Book.AdmitsLess (b' b : Book) : Prop :=
  b'.admitted ≤ b.admitted ∧ ∀ t, (b'.tenants t).admitted ≤ (b.tenants t).admitted

namespace Book.AdmitsLess

theorem refl (b : Book) : b.AdmitsLess b := ⟨le_refl _, fun _ => le_refl _⟩

theorem on {b' b : Book} (h : b'.AdmitsLess b) (t : TenantId) {f : Counts → Counts}
    (hf : ∀ c, (f c).admitted = c.admitted) : (b'.on t f).AdmitsLess b :=
  ⟨h.1, fun t' => (b'.on_apply Counts.admitted hf t t').trans_le (h.2 t')⟩

theorem leave {b' b : Book} (h : b'.AdmitsLess b) (t : TenantId) : (b'.leave t).AdmitsLess b := by
  refine ⟨(decPos_le _).trans h.1, fun t' => ?_⟩
  rw [leave_admitted]
  split
  · exact (decPos_le _).trans (h.2 t')
  · exact h.2 t'

end Book.AdmitsLess

/-- Only an accepted submission adds to the admission counters. -/
theorem Book.act_admitsLess {s : Impl} {op : Op} {b : Book} {e : Entry} (hfresh : FreshSubmit s op)
    (he : Posted s op b e) (hne : ∀ spec rid, e ≠ .move (.accept spec rid)) : (b.act e).AdmitsLess b := by
  have hb := AdmitsLess.refl b
  cases e with
  | turnAway => exact hb
  | dismiss late => exact absurd hfresh he
  | again rec spec => exact absurd hfresh he.1
  | settle t => exact hb.on t fun _ => rfl
  | move m =>
    cases m with
    | advance | draw | pop | sleep | sweep | setWorker | dropWorker | refuse | flag => exact hb
    | accept spec rid => exact absurd rfl (hne spec rid)
    | reserve wr members =>
      refine reserve_invariant (I := fun b' => b'.AdmitsLess b) (fun b' id rec hf _ hb' => ?_) (fun _ => hb) he.1.1
      simp only [reserveMember, hf]
      exact hb'.on rec.spec.tenant fun _ => rfl
    | expire rec => exact (hb.on rec.spec.tenant (f := .dequeue) fun _ => rfl).leave rec.spec.tenant
    | start rec wr snap => exact hb.on rec.spec.tenant fun _ => rfl
    | retry rec r => exact (hb.on rec.spec.tenant (f := .stop) fun _ => rfl).on rec.spec.tenant fun _ => rfl
    | cancel rec asked w reason =>
      have hstop : (if rec.onWorker then b.on rec.spec.tenant .stop else b).AdmitsLess b := by
        split
        · exact hb.on rec.spec.tenant fun _ => rfl
        · exact hb
      exact (hstop.on rec.spec.tenant (f := .dequeue) fun _ => rfl).leave rec.spec.tenant
    | finish rec w e =>
      have hleft := (hb.on rec.spec.tenant (f := .stop) fun _ => rfl).leave rec.spec.tenant
      cases e with
      | success r => exact hleft
      | failed r => exact hleft
      | expired => exact hleft
      | stale => exact hb

theorem Impl.named_cfg (s : Impl) (pre : Option RequestId) : (s.named pre).cfg = s.cfg := by cases pre <;> rfl

theorem Impl.named_globalAdmitted (s : Impl) (pre : Option RequestId) :
    (s.named pre).globalAdmitted = s.globalAdmitted := by cases pre <;> rfl

theorem Impl.named_counts (s : Impl) (pre : Option RequestId) : (s.named pre).counts = s.counts := by cases pre <;> rfl

/-- The admission counters are within the limits of the configuration. -/
structure WithinCaps (cfg : SchedulerConfig) (b : Book) : Prop where
  config : b.core.cfg = cfg
  global : b.admitted ≤ cfg.admission.maxGlobalAdmitted
  tenant : ∀ t, (b.tenants t).admitted ≤ cfg.admission.defaultTenantConcurrency

theorem WithinCaps.act {cfg : SchedulerConfig} {s : Impl} {op : Op} {b : Book} {e : Entry} (h : WithinCaps cfg b)
    (hconc : 1 ≤ cfg.admission.defaultTenantConcurrency) (hfresh : FreshSubmit s op) (he : Posted s op b e) :
    WithinCaps cfg (b.act e) := by
  by_cases hacc : ∃ spec rid, e = .move (.accept spec rid)
  · obtain ⟨spec, rid, rfl⟩ := hacc
    obtain ⟨_, hadm, pre, rfl, rfl⟩ := he.2
    have hok := (makeAdmission_admitted_iff s spec).1 hadm
    have hcfg : s.cfg = cfg := (s.named_cfg pre).symm.trans h.config
    refine ⟨((s.named pre).book.act_cfg _).trans h.config, ?_, fun t => ?_⟩
    · have hlt := hok.admittedRoom
      rw [hcfg, ← s.named_globalAdmitted pre] at hlt
      exact hlt
    · have hlt := hok.counts_lt.1 (hcfg ▸ hconc)
      rw [hcfg, ← s.named_counts pre] at hlt
      show ((((s.named pre).book.on spec.tenant .enqueue).on spec.tenant .enter).tenants t).admitted ≤ _
      by_cases ht : spec.tenant = t
      · subst ht
        simp only [Book.on, Function.update_self]
        exact hlt
      · simp only [Book.on, Function.update_of_ne (Ne.symm ht)]
        exact h.tenant t
  · have hless := Book.act_admitsLess hfresh he fun spec rid h => hacc ⟨spec, rid, h⟩
    exact ⟨(b.act_cfg e).trans h.config, hless.1.trans h.global, fun t => (hless.2 t).trans (h.tenant t)⟩

/-- **Admission caps.** No more requests are live than the configuration
admits, over all tenants and for each of them. -/
theorem admission_capped {cfg : SchedulerConfig} {now : ClockTime} {salt : UInt64} {epoch : Option SchedulerEpoch}
    {ops : List Op} (hglobal : 1 ≤ cfg.admission.maxGlobalAdmitted)
    (hconc : 1 ≤ cfg.admission.defaultTenantConcurrency)
    (hfresh : scheduler.Allowed FreshSubmit (Impl.init cfg now salt epoch) ops) :
    ((scheduler.run (Impl.init cfg now salt epoch) ops).requests.count RequestRecord.live : ℤ) ≤
        cfg.admission.maxGlobalAdmitted ∧
      ∀ t, ((scheduler.run (Impl.init cfg now salt epoch) ops).requests.count (RequestRecord.liveOf t) : ℤ) ≤
        cfg.admission.defaultTenantConcurrency := by
  have hcons := conserved_run hfresh
  have hinit : WithinCaps cfg (Impl.init cfg now salt epoch).book :=
    ⟨rfl, by show (0 : ℤ) ≤ _; omega, fun t => by show (0 : ℤ) ≤ _; omega⟩
  have hcaps := books_invariant (I := WithinCaps cfg) (fun _ _ _ _ hok he h => h.act hconc hok he) hinit hfresh
  exact ⟨hcons.global.symm.trans_le hcaps.global, fun t => (hcons.tenant t).symm.trans_le (hcaps.tenant t)⟩

/-- Two submissions where one request is admitted at a time. -/
theorem admission_capped_at_one :
    let cfg : SchedulerConfig := { admission := { maxGlobalAdmitted := 1, defaultTenantConcurrency := 1 } }
    let s := scheduler.run (Impl.init cfg 0 0x80000001 none) [.submit plainSpec (some ⟨7⟩),
      .submit plainSpec (some ⟨8⟩)]
    (s.requests.count RequestRecord.live : ℤ) ≤ cfg.admission.maxGlobalAdmitted ∧
      ∀ t, (s.requests.count (RequestRecord.liveOf t) : ℤ) ≤ cfg.admission.defaultTenantConcurrency := by
  intro cfg s
  exact admission_capped (by decide) (by decide) (by decide +kernel)

end InferenceScheduler
