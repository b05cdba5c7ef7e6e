/-
Attempts end at most once. Requests that are not terminal hold pairwise
different attempts, all drawn from the factory; once an attempt is concluded,
every request that still names it is terminal, and so it stays.

Reports may come in any order, from any worker, any number of times.
-/
import InferenceScheduler.Frozen

namespace InferenceScheduler

open Machine

/-- The live requests hold attempts of the factory, each its own. -/
structure Lineage (c : Core) : Prop where
  issued : ∀ r rec, c.requests.find r = some rec → isTerminal rec.state = false → c.ids.Issued rec.currentAttempt
  distinct : ∀ r r' rec rec', c.requests.find r = some rec → c.requests.find r' = some rec' →
    isTerminal rec.state = false → isTerminal rec'.state = false → rec.currentAttempt = rec'.currentAttempt → r = r'
  committed : ∀ r rec, c.requests.find r = some rec → rec.cancellationCommitted = true → isTerminal rec.state = true

/-- An attempt that is over: only terminal requests name it. -/
structure Spent (a : AttemptId) (c : Core) : Prop where
  issued : c.ids.Issued a
  terminal : ∀ r rec, c.requests.find r = some rec → rec.currentAttempt = a → isTerminal rec.state = true

/-! ## Where the attempt of a live request comes from -/

/-- A live request held its attempt before the move, or the move drew it. -/
theorem attempt_act {c : Core} {m : Move} {r : RequestId} {rec' : RequestRecord} (h : Enabled c m)
    (hf' : (c.act m).requests.find r = some rec') (ht' : isTerminal rec'.state = false) :
    (∃ rec, c.requests.find r = some rec ∧ isTerminal rec.state = false ∧ rec'.currentAttempt = rec.currentAttempt) ∨
      rec'.currentAttempt = c.ids.tick.peek ∧ (c.act m).ids = c.ids.tick.tick ∧
        ∀ r', r' ≠ r → (c.act m).requests.find r' = c.requests.find r' := by
  rcases Core.find_act h hf' with hs | ⟨rec, hf, rfl | hw⟩
  · cases hs with
    | refuse =>
      rw [h.2.1] at ht'
      cases ht'
    | @accept spec rid =>
      have hid : rid = r := Keyed.key_of_find hf'
      exact .inr ⟨rfl, rfl, fun r' hne => Core.find_act_accept (hid ▸ hne)⟩
  · exact .inl ⟨rec', hf, ht', rfl⟩
  · have hnt := hw.not_terminal h (Keyed.find_key hf)
    rcases hw.attempts with hsame | ⟨rep, rfl⟩
    · exact .inl ⟨rec, hf, hnt, hsame.1⟩
    · cases hw with
      | retry =>
        have hid : rec.requestId = r := Keyed.key_of_find hf
        exact .inr ⟨rfl, rfl, fun r' hne => Core.find_act_retry (hid ▸ hne)⟩

/-- The attempt a move draws is a new one. -/
theorem tick_peek_ne {f : IdFactory} {t : IdTag} {i : Id t} (hd : f.tick.tick.Distinct) (hi : f.Issued i) :
    f.tick.peek ≠ i :=
  IdFactory.peek_ne_of_issued hd (hi.of_extends f.extends_tick)

/-- Only a cancellation commits one, and it is terminal then. -/
theorem Writes.committed {c : Core} {m : Move} {rec rec' : RequestRecord} (hw : Writes c m rec rec') :
    rec'.cancellationCommitted = rec.cancellationCommitted ∨ isTerminal rec'.state = true := by
  cases hw with
  | cancel => exact .inr rfl
  | expire | reserve | start | flag => exact .inl rfl
  | @finish _ w e =>
    left
    rcases c.pool.released_cases w (e.note c.now rec) with h | h <;> rw [h] <;> cases e <;> rfl
  | @retry _ r =>
    left
    rcases c.pool.released_cases r.worker (rec.noteFailure r) with h | h <;> rw [h] <;> rfl

/-- Only a request that is over is marked as cancelled. -/
def Uncommitted (c : Core) : Prop :=
  ∀ r rec, c.requests.find r = some rec → rec.cancellationCommitted = true → isTerminal rec.state = true

theorem Uncommitted.act {c : Core} {m : Move} (hu : Uncommitted c) (h : Enabled c m) : Uncommitted (c.act m) := by
  intro r rec hf hc
  rcases Core.find_act h hf with hs | ⟨old, hold, rfl | hw⟩
  · cases hs with
    | refuse => exact h.2.1
    | accept => cases hc
  · exact hu r rec hold hc
  · refine hw.committed.elim (fun hsame => ?_) id
    have hnt := hw.not_terminal h (Keyed.find_key hold)
    rw [hu r old hold (by rw [← hsame, hc])] at hnt
    cases hnt

theorem Lineage.act {c : Core} {m : Move} (hl : Lineage c) (h : Enabled c m) (hd : (c.act m).ids.Distinct) :
    Lineage (c.act m) := by
  have hext := c.act_ids_extends m
  refine ⟨fun r rec hf ht => ?_, fun r r' rec rec' hf hf' ht ht' he => ?_, Uncommitted.act hl.committed h⟩
  · rcases attempt_act h hf ht with ⟨old, hold, hnt, ha⟩ | ⟨ha, hids, _⟩
    · rw [ha]
      exact (hl.issued r old hold hnt).of_extends hext
    · rw [ha, hids]
      exact c.ids.tick.issued_peek
  · rcases attempt_act h hf ht with ⟨old, hold, hnt, ha⟩ | ⟨ha, hids, hrest⟩
    · rcases attempt_act h hf' ht' with ⟨old', hold', hnt', ha'⟩ | ⟨ha', hids, hrest⟩
      · exact hl.distinct r r' old old' hold hold' hnt hnt' (by rw [← ha, ← ha', he])
      · rw [hids] at hd
        exact absurd (by rw [← ha', ← he, ha]) (tick_peek_ne hd (hl.issued r old hold hnt))
    · by_contra hne
      have hold' := (hrest r' (Ne.symm hne)).symm.trans hf'
      rw [hids] at hd
      exact absurd (by rw [← ha, he]) (tick_peek_ne hd (hl.issued r' rec' hold' ht'))

theorem Spent.act {a : AttemptId} {c : Core} {m : Move} (hs : Spent a c) (h : Enabled c m)
    (hd : (c.act m).ids.Distinct) : Spent a (c.act m) := by
  refine ⟨hs.issued.of_extends (c.act_ids_extends m), fun r rec hf ha => ?_⟩
  by_contra ht
  simp only [Bool.not_eq_true] at ht
  rcases attempt_act h hf ht with ⟨old, hold, hnt, hsame⟩ | ⟨hnew, hids, _⟩
  · rw [hs.terminal r old hold (by rw [← hsame, ha])] at hnt
    cases hnt
  · rw [hids] at hd
    exact tick_peek_ne hd hs.issued (by rw [← hnew, ha])

/-! ## Along a run -/

/-- The ids of an operation only grow. -/
theorem step_ids_extends (s : Impl) (op : Op) : (scheduler.next s op).idFactory.Extends s.idFactory :=
  posts_invariant (I := fun b => b.core.ids.Extends s.idFactory) (fun b e _ hb => (b.act_ids_extends e).trans hb)
    (.refl _)

/-- What every enabled move keeps while the ids are distinct, an operation
keeps. -/
theorem step_invariant_of_distinct {I : Core → Prop} {s : Impl} {op : Op}
    (hact : ∀ c m, I c → Enabled c m → (c.act m).ids.Distinct → I (c.act m)) (h : FreshSubmit s op)
    (hd : (scheduler.next s op).idFactory.Distinct) (hs : I s.core) : I (scheduler.next s op).core := by
  refine (step_leads h).invariant (I := fun c => c.ids.Distinct → I c) ?_ (fun _ => hs) hd
  intro c m hm hc hdist
  exact hact c m (hc (hdist.of_extends (c.act_ids_extends m))) hm.1 hdist

/-- A call of `complete_attempt` for the attempt `a` that concludes it. -/
def concludes (a : AttemptId) (e : Event Impl Op Answer) : Bool :=
  match e.input, e.out with
  | .complete rep, .completion o =>
    rep.attemptId == a && (o.acceptance == .accepted || o.acceptance == .cancelledOutcome)
  | _, _ => false

/-- A call of `complete_attempt` for the request `r` that answers success. -/
def succeeds (r : RequestId) (e : Event Impl Op Answer) : Bool :=
  match e.input, e.out with
  | .complete rep, .completion o => rep.requestId == r && o.acceptance == .accepted && o.reasonCode == "success"
  | _, _ => false

/-- The move a report is concluded by ends the attempt: the request is
terminal or has the next attempt. Only `Stale` leaves it. -/
theorem complete_ends {s : Impl} {rep : CompletionReport} {rec : RequestRecord} {m : Move}
    (hstep : Step s (.complete rep) s.core m) (hm : Matches s rep rec) (hf : s.core.Holds rec)
    (hstale : m ≠ .finish rec rep.worker .stale) :
    ∃ rec', (s.core.act m).requests.find rec.requestId = some rec' ∧
      (isTerminal rec'.state = true ∨
        rec'.currentAttempt = s.core.ids.tick.peek ∧ (s.core.act m).ids = s.core.ids.tick.tick) := by
  obtain ⟨hen, hdoes⟩ := hstep
  -- The move is about the stored record the report names.
  have hsame : ∀ rec₁, Matches s rep rec₁ → s.core.Holds rec₁ → rec₁ = rec := by
    intro rec₁ hm₁ hf₁
    have hid : rec₁.requestId = rec.requestId := hm₁.request.trans hm.request.symm
    rw [Core.Holds, hid] at hf₁
    exact Option.some.inj (hf₁.symm.trans hf)
  cases hdoes with
  | @finish _ rec₁ e hm₁ =>
    obtain rfl := hsame rec₁ hm₁ hen.1
    refine ⟨_, Core.find_of_writes .finish hen hf, .inl ?_⟩
    cases e with
    | success r =>
      rw [Ending.close, Pool.released_state]
      rfl
    | failed r | expired => rfl
    | stale => exact absurd rfl hstale
  | @finishCancelled _ rec₁ reason hm₁ =>
    obtain rfl := hsame rec₁ hm₁ hen.1
    exact ⟨_, Core.find_of_writes .cancel hen hf, .inl rfl⟩
  | @retry _ rec₁ hm₁ =>
    obtain rfl := hsame rec₁ hm₁ hen.1
    exact ⟨_, Core.find_of_writes .retry hen hf, .inr ⟨rfl, rfl⟩⟩
  | recoverRetry hl | recoverFail hl | sweep hl => cases hl

/-- A call that concludes an attempt finds it live and leaves it spent. -/
theorem concludes_spent {s : Impl} {op : Op} {a : AttemptId} (hl : Lineage s.core)
    (hd : (scheduler.next s op).idFactory.Distinct) (hc : concludes a (scheduler.event s op) = true) :
    ¬Spent a s.core ∧ Spent a (scheduler.next s op).core := by
  cases op with
  | complete rep =>
    simp only [concludes, event, scheduler, Impl.step, Bool.and_eq_true, beq_iff_eq, Bool.or_eq_true] at hc
    obtain ⟨rfl, hacc⟩ := hc
    rcases s.doComplete_cases rep with ⟨_, hna, hco⟩ | ⟨rec, hrec, hm, ht, hn, _, he⟩
    · obtain ⟨rec, hrec, ht, hcommit⟩ := hco (hacc.resolve_left hna)
      rw [hl.committed _ rec hrec hcommit] at ht
      cases ht
    · have hiss := hl.issued _ rec hrec ht
      rw [hm.attempt] at hiss
      refine ⟨fun hs => ?_, ?_⟩
      · rw [hs.terminal _ rec hrec hm.attempt] at ht
        cases ht
      obtain ⟨m, hstep, hcore, hans, _⟩ := Impl.conclude_move hrec hm ht hn
      have hstale : m ≠ .finish rec rep.worker .stale := by
        rcases hans with ⟨hsa, _⟩ | ⟨_, hne⟩
        · rw [he, hsa] at hacc
          simp at hacc
        · exact hne
      have hnext : (scheduler.next s (.complete rep)).core = s.core.act m := by
        rw [← hcore, ← he]
        rfl
      have hd' : (s.core.act m).ids.Distinct := by
        rw [← hnext]
        exact hd
      rw [hnext]
      refine ⟨hiss.of_extends (s.core.act_ids_extends m), fun r' rec' hf' ha => ?_⟩
      by_contra ht'
      simp only [Bool.not_eq_true] at ht'
      rcases attempt_act hstep.1 hf' ht' with ⟨old, hold, hnt, hatt⟩ | ⟨hnew, hids, _⟩
      · -- The only live request with this attempt was the one concluded.
        have hr : r' = rec.requestId := hl.distinct r' _ old rec hold hrec hnt ht (by rw [← hatt, ha, hm.attempt])
        obtain ⟨rec'', hf'', hend⟩ := complete_ends hstep hm hrec hstale
        rw [← hr] at hf''
        obtain rfl : rec' = rec'' := Option.some.inj (hf'.symm.trans hf'')
        rcases hend with hend | ⟨hnew, hids⟩
        · rw [hend] at ht'
          cases ht'
        · rw [hids] at hd'
          exact tick_peek_ne hd' hiss (by rw [← hnew, ha])
      · rw [hids] at hd'
        exact tick_peek_ne hd' hiss (by rw [← hnew, ha])
  | _ => simp [concludes, event, scheduler, Impl.step] at hc

/-- A call that answers success finds its request live and leaves it
terminal. -/
theorem succeeds_terminal {s : Impl} {op : Op} {r : RequestId} (hc : succeeds r (scheduler.event s op) = true) :
    (∃ rec, s.requests.find r = some rec ∧ isTerminal rec.state = false) ∧
      ∃ rec, (scheduler.next s op).requests.find r = some rec ∧ isTerminal rec.state = true := by
  cases op with
  | complete rep =>
    simp only [succeeds, event, scheduler, Impl.step, Bool.and_eq_true, beq_iff_eq] at hc
    obtain ⟨⟨rfl, hacc⟩, hreason⟩ := hc
    rcases s.doComplete_cases rep with ⟨_, hna, _⟩ | ⟨rec, hrec, hm, ht, hn, _, he⟩
    · exact absurd hacc hna
    · obtain ⟨m, hstep, hcore, _, hsucc⟩ := Impl.conclude_move hrec hm ht hn
      rw [he] at hreason
      obtain rfl := hsucc hreason
      obtain ⟨rec', hf', hend⟩ := complete_ends hstep hm hrec (by simp)
      rw [hm.request] at hf'
      have hrec' : s.requests.find rep.requestId = some rec := by
        rw [← hm.request]
        exact hrec
      refine ⟨⟨rec, hrec', ht⟩, rec', ?_, ?_⟩
      · rw [← hf', ← hcore, ← he]
        rfl
      · refine hend.elim id fun h => ?_
        have := congrArg IdFactory.counter h.2
        simp only [Core.act, Core.put, IdFactory.tick_counter] at this
        omega
  | _ => simp [succeeds, event, scheduler, Impl.step] at hc

/-- What the calls so far have concluded is over. -/
structure Settled (past : List (Event Impl Op Answer)) (s : Impl) : Prop where
  lineage : Lineage s.core
  attempts : ∀ a, past.countP (concludes a) ≤ 1 ∧ (past.countP (concludes a) = 1 → Spent a s.core)
  requests : ∀ r, past.countP (succeeds r) ≤ 1 ∧ (past.countP (succeeds r) = 1 →
    ∃ rec, s.requests.find r = some rec ∧ isTerminal rec.state = true)

theorem Settled.step {past : List (Event Impl Op Answer)} {s : Impl} {op : Op} (h : Settled past s)
    (hfresh : FreshSubmit s op) (hd : (scheduler.next s op).idFactory.Distinct) :
    Settled (past ++ [scheduler.event s op]) (scheduler.next s op) := by
  refine ⟨step_invariant_of_distinct (fun c m hl hen => hl.act hen) hfresh hd h.lineage, fun a => ?_, fun r => ?_⟩
  · obtain ⟨hle, hone⟩ := h.attempts a
    rw [List.countP_append, List.countP_singleton]
    split
    · next hc =>
      obtain ⟨hlive, hspent⟩ := concludes_spent h.lineage hd hc
      have hzero : past.countP (concludes a) ≠ 1 := fun he => hlive (hone he)
      exact ⟨by omega, fun _ => hspent⟩
    · refine ⟨by omega, fun he => ?_⟩
      exact step_invariant_of_distinct (fun c m hs hen => hs.act hen) hfresh hd (hone (by omega))
  · obtain ⟨hle, hone⟩ := h.requests r
    rw [List.countP_append, List.countP_singleton]
    split
    · next hc =>
      obtain ⟨⟨rec, hf, ht⟩, hterm⟩ := succeeds_terminal hc
      have hzero : past.countP (succeeds r) ≠ 1 := by
        intro he
        obtain ⟨rec', hf', ht'⟩ := hone he
        obtain rfl : rec = rec' := Option.some.inj (hf.symm.trans hf')
        rw [ht'] at ht
        cases ht
      exact ⟨by omega, fun _ => hterm⟩
    · refine ⟨by omega, fun he => ?_⟩
      obtain ⟨rec, hf, ht⟩ := hone (by omega)
      have hallowed : scheduler.Allowed FreshSubmit s [op] := ⟨hfresh, trivial⟩
      exact ⟨rec, run_find_terminal hallowed hf ht, ht⟩

/-- **Each attempt is concluded at most once.** In a run with fresh ids and a
factory whose ids are pairwise distinct, at most one call of
`complete_attempt` for an attempt answers `Accepted` or `CancelledOutcome`,
and at most one call for a request answers success. -/
theorem attempt_concluded_once {cfg : SchedulerConfig} {now : ClockTime} {salt : UInt64}
    {epoch : Option SchedulerEpoch} {ops : List Op}
    (hfresh : scheduler.Allowed FreshSubmit (Impl.init cfg now salt epoch) ops)
    (hd : (scheduler.run (Impl.init cfg now salt epoch) ops).idFactory.Distinct) :
    (∀ a, (scheduler.trace (Impl.init cfg now salt epoch) ops).countP (concludes a) ≤ 1) ∧
      ∀ r, (scheduler.trace (Impl.init cfg now salt epoch) ops).countP (succeeds r) ≤ 1 := by
  have h := history_invariant (m := scheduler) (P := FreshSubmit)
    (I := fun past s => s.idFactory.Distinct → Settled past s) ?_ ?_ hfresh hd
  · exact ⟨fun a => (h.attempts a).1, fun r => (h.requests r).1⟩
  · intro past s op hf hs hdist
    exact (hs (hdist.of_extends (step_ids_extends _ _))).step hf hdist
  · exact fun _ => ⟨⟨by simp [Impl.core, Impl.init], by simp [Impl.core, Impl.init], by simp [Impl.core, Impl.init]⟩,
      by simp, by simp⟩

/-- A success reported twice. -/
theorem attempt_concluded_once_replayed :
    let s := Impl.init {} 0 0x80000001 none
    let ops : List Op := [.registerWorker (plainWorker 3), .submit plainSpec (some ⟨7⟩), .planDispatch ⟨7⟩ false,
      .confirmStart (firstReport 3 .succeeded), .complete (firstReport 3 .succeeded),
      .complete (firstReport 3 .succeeded)]
    (∀ a, (scheduler.trace s ops).countP (concludes a) ≤ 1) ∧
      ∀ r, (scheduler.trace s ops).countP (succeeds r) ≤ 1 :=
  attempt_concluded_once (by decide +kernel) (by decide +kernel)

end InferenceScheduler
