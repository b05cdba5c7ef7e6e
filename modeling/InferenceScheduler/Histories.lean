/-
Attempt lineage. The history of an admitted request is its failed attempts and
then the current one; only a retry adds an entry, under ids it draws, so no two
entries of histories share an id. The statistics count the entries.

Two views carry the proof: the records, where a write is over the last entry or
follows it (`Writes.history`), and the book, whose tally counts attempts.
-/
import InferenceScheduler.Attempts
import InferenceScheduler.Conservation

namespace InferenceScheduler

open Machine

/-- The history of an admitted request: failed attempts, then the current
one. -/
structure RequestRecord.Traced (cfg : SchedulerConfig) (rec : RequestRecord) (earlier : List AttemptRecord)
    (last : AttemptRecord) : Prop where
  history : rec.history = earlier ++ [last]
  attempt : last.attemptId = rec.currentAttempt
  generation : last.generation = rec.generation
  failed : ∀ a ∈ earlier, a.state = .failed
  bounded : (rec.history.length : ℤ) ≤ max 1 cfg.retry.maxAttempts
  completed : rec.state = .completed ↔ last.state = .succeeded
  terminal : isTerminal rec.state = true → last.state.isTerminal = true

/-- What is stored is a request turned down, which has no attempt, or has a
history. -/
def RequestRecord.Logged (cfg : SchedulerConfig) (rec : RequestRecord) : Prop :=
  isTerminal rec.state = true ∧ rec.history = [] ∨ ∃ earlier last, rec.Traced cfg earlier last

/-! ## The history after a write -/

namespace RequestRecord

variable {cfg : SchedulerConfig} {rec rec' : RequestRecord}

theorem Logged.traced (h : rec.Logged cfg) (hne : rec.history ≠ []) : ∃ earlier last, rec.Traced cfg earlier last :=
  h.resolve_left fun hend => hne hend.2

theorem Logged.traced_of_live (h : rec.Logged cfg) (ht : isTerminal rec.state = false) :
    ∃ earlier last, rec.Traced cfg earlier last := by
  refine h.resolve_left fun hend => ?_
  rw [ht] at hend
  cases hend.1

theorem Traced.ne_nil {earlier : List AttemptRecord} {last : AttemptRecord} (h : rec.Traced cfg earlier last) :
    rec.history ≠ [] := by simp [h.history]

theorem Traced.rewrites {f : AttemptRecord → AttemptRecord} {earlier : List AttemptRecord} {last : AttemptRecord}
    (h : rec.Traced cfg earlier last) (hw : Rewrites rec rec' f) (ht : isTerminal rec.state = false) :
    rec'.Traced cfg earlier (f last) := by
  have hhistory : rec'.history = earlier ++ [f last] := by rw [hw.history, h.history, onLast_concat]
  obtain ⟨hcompleted, hterminal⟩ := hw.ending last ht ⟨h.completed, h.terminal⟩
  refine ⟨hhistory, ?_, ?_, h.failed, ?_, hcompleted, hterminal⟩
  · rw [(hw.keeps last).1, h.attempt, hw.attempt]
  · rw [(hw.keeps last).2, h.generation, hw.generation]
  · have hbounded := h.bounded
    rw [h.history] at hbounded
    simpa [hhistory] using hbounded

theorem Traced.follows {f : AttemptRecord → AttemptRecord} {new : AttemptRecord} {earlier : List AttemptRecord}
    {last : AttemptRecord} (h : rec.Traced cfg earlier last) (hw : Follows rec rec' f new)
    (hroom : (rec.history.length : ℤ) < cfg.retry.maxAttempts) : rec'.Traced cfg (earlier ++ [f last]) new := by
  have hhistory : rec'.history = earlier ++ [f last] ++ [new] := by rw [hw.history, h.history, onLast_concat]
  refine ⟨hhistory, hw.attempt, hw.generation, fun a ha => ?_, ?_, hw.ending.1, hw.ending.2⟩
  · rcases List.mem_append.1 ha with ha | ha
    · exact h.failed a ha
    · rw [List.mem_singleton.1 ha]
      exact hw.failed last
  · rw [h.history] at hroom
    simp only [hhistory, List.length_append, List.length_singleton] at hroom ⊢
    omega

end RequestRecord

/-- A retry is made while there are attempts left. -/
theorem room_of_canRetry {cfg : SchedulerConfig} {rec : RequestRecord} {now : ClockTime}
    (h : Impl.canRetry cfg rec now = true) : (rec.history.length : ℤ) < cfg.retry.maxAttempts := by
  unfold Impl.canRetry at h
  split at h
  · cases h
  · split at h
    · cases h
    · next hroom => omega

theorem Writes.logged {c : Core} {m : Move} {rec rec' : RequestRecord} (hw : Writes c m rec rec')
    (hen : Enabled c m) (hf : c.Holds rec) (h : rec.Logged c.cfg) : rec'.Logged c.cfg := by
  have ht := hw.not_terminal hen hf
  obtain ⟨earlier, last, htraced⟩ := h.traced_of_live ht
  rcases hw.history with ⟨f, hrw⟩ | ⟨r, rfl, _, _, f, new, hfol⟩
  · exact .inr ⟨earlier, f last, htraced.rewrites hrw ht⟩
  · exact .inr ⟨_, new, htraced.follows hfol (room_of_canRetry hen.2.2.2)⟩

theorem Stores.logged {c : Core} {m : Move} {rec : RequestRecord} (hs : Stores c m rec) (hen : Enabled c m) :
    rec.Logged c.cfg := by
  cases hs with
  | refuse => exact .inl ⟨hen.2.1, hen.2.2.2.2⟩
  | accept =>
    have hends : EndsWith .queued .created := by decide
    exact .inr ⟨[], _, rfl, rfl, rfl, by simp, by simp [Impl.admittedRecord], hends.1, hends.2⟩

/-- Every stored request has its history. -/
structure Core.Logged (cfg : SchedulerConfig) (c : Core) : Prop where
  config : c.cfg = cfg
  records : ∀ r rec, c.requests.find r = some rec → rec.Logged cfg

theorem Core.Logged.act {cfg : SchedulerConfig} {c : Core} {m : Move} (h : c.Logged cfg) (hen : Enabled c m) :
    (c.act m).Logged cfg := by
  obtain ⟨rfl, hrec⟩ := h
  refine ⟨c.act_cfg m, fun r rec' hf' => ?_⟩
  rcases Core.find_act hen hf' with hs | ⟨rec, hf, rfl | hw⟩
  · exact hs.logged hen
  · exact hrec r rec' hf
  · exact hw.logged hen (Keyed.find_key hf) (hrec r rec hf)

/-! ## Entries of histories -/

/-- The entry at a place of a request's history. -/
def Core.Entry (c : Core) (r : RequestId) (i : ℕ) (a : AttemptRecord) : Prop :=
  ∃ rec, c.requests.find r = some rec ∧ rec.history[i]? = some a

/-- No two entries of histories share an attempt id or a generation. -/
def Core.Apart (c : Core) : Prop :=
  ∀ r r' i i' a a', c.Entry r i a → c.Entry r' i' a' → a.attemptId = a'.attemptId ∨ a.generation = a'.generation →
    r = r' ∧ i = i'

/-- The ids of an attempt. -/
def AttemptRecord.stamp (a : AttemptRecord) : AttemptId × Generation := (a.attemptId, a.generation)

theorem getElem?_of_stamps {l l' : List AttemptRecord} (h : l'.map AttemptRecord.stamp = l.map AttemptRecord.stamp)
    {i : ℕ} {a' : AttemptRecord} (hi : l'[i]? = some a') : ∃ a, l[i]? = some a ∧ a'.stamp = a.stamp := by
  have hget : (l.map AttemptRecord.stamp)[i]? = some a'.stamp := by rw [← h, List.getElem?_map, hi, Option.map_some]
  rw [List.getElem?_map, Option.map_eq_some_iff] at hget
  obtain ⟨a, ha, hs⟩ := hget
  exact ⟨a, ha, hs.symm⟩

/-- What a move does to the request that gets a new attempt. -/
structure Draws (c : Core) (m : Move) (r : RequestId) (i : ℕ) (a : AttemptRecord) : Prop where
  stamp : a.stamp = (c.ids.tick.peek, c.ids.peek)
  ids : (c.act m).ids = c.ids.tick.tick
  last : ∀ rec, (c.act m).requests.find r = some rec → i + 1 = rec.history.length
  rest : ∀ r', r' ≠ r → (c.act m).requests.find r' = c.requests.find r'

/-- An entry was there before the move, under the same ids, or the move drew
its ids, for this one request. -/
theorem entry_act {c : Core} {m : Move} {r : RequestId} {i : ℕ} {a' : AttemptRecord} (hen : Enabled c m)
    (h : (c.act m).Entry r i a') : (∃ a, c.Entry r i a ∧ a'.stamp = a.stamp) ∨ Draws c m r i a' := by
  obtain ⟨rec', hf', hi⟩ := h
  rcases Core.find_act hen hf' with hs | ⟨rec, hf, rfl | hw⟩
  · cases hs with
    | refuse =>
      rw [hen.2.2.2.2] at hi
      cases hi
    | @accept spec rid =>
      have hid : rid = r := Keyed.key_of_find hf'
      simp only [Impl.admittedRecord, List.getElem?_singleton] at hi
      split at hi
      · next h0 =>
        cases hi
        refine .inr ⟨rfl, rfl, fun rec hrec => ?_, fun r' hne => Core.find_act_accept (hid ▸ hne)⟩
        obtain rfl := Option.some.inj (hrec.symm.trans hf')
        rw [h0]
        rfl
      · cases hi
  · exact .inl ⟨a', ⟨rec', hf, hi⟩, rfl⟩
  · have hkeeps : ∀ {f : AttemptRecord → AttemptRecord},
        (∀ a, (f a).attemptId = a.attemptId ∧ (f a).generation = a.generation) → (onLast f rec.history)[i]? = some a' →
        ∃ a, c.Entry r i a ∧ a'.stamp = a.stamp := by
      intro f hf₀ hi
      obtain ⟨a, ha, hs⟩ := getElem?_of_stamps (map_onLast (fun a => Prod.ext (hf₀ a).1 (hf₀ a).2) _) hi
      exact ⟨a, ⟨rec, hf, ha⟩, hs⟩
    rcases hw.history with ⟨f, hrw⟩ | ⟨rep, rfl, hatt, hgen, f, new, hfol⟩
    · rw [hrw.history] at hi
      exact .inl (hkeeps hrw.keeps hi)
    · rw [hfol.history] at hi
      rcases lt_or_ge i (onLast f rec.history).length with hlt | hge
      · rw [List.getElem?_append_left hlt] at hi
        exact .inl (hkeeps hfol.keeps hi)
      · -- Past the old entries there is only the new one.
        rw [List.getElem?_append_right hge, List.getElem?_singleton] at hi
        have hi0 : i - (onLast f rec.history).length = 0 ∧ new = a' := by simpa using hi
        obtain ⟨hlen, rfl⟩ := hi0
        have hid : rec.requestId = r := Keyed.key_of_find hf
        refine .inr ⟨?_, rfl, fun rec₁ hrec₁ => ?_, fun r' hne => Core.find_act_retry (hid ▸ hne)⟩
        · rw [AttemptRecord.stamp, hfol.attempt, hfol.generation, hatt, hgen]
        · obtain rfl := Option.some.inj (hrec₁.symm.trans hf')
          rw [hfol.history, List.length_append, List.length_singleton]
          omega

/-- The entries of histories have ids of the factory, each its own. -/
structure Registered (c : Core) : Prop where
  issued : ∀ r i a, c.Entry r i a → c.ids.Issued a.attemptId ∧ c.ids.Issued a.generation
  apart : c.Apart

/-- A drawn entry shares no id with an entry from before. -/
theorem Draws.fresh {c : Core} {m : Move} {r r' : RequestId} {i i' : ℕ} {a a' : AttemptRecord} (hd : Draws c m r i a)
    (h : Registered c) (hdist : (c.act m).ids.Distinct) (hold : c.Entry r' i' a') :
    a.attemptId ≠ a'.attemptId ∧ a.generation ≠ a'.generation := by
  obtain ⟨hatt, hgen⟩ := h.issued r' i' a' hold
  rw [hd.ids] at hdist
  obtain ⟨ha, hg⟩ := Prod.mk.inj hd.stamp
  rw [ha, hg]
  exact ⟨tick_peek_ne hdist hatt, IdFactory.peek_ne_of_issued (hdist.of_extends c.ids.tick.extends_tick) hgen⟩

theorem Registered.act {c : Core} {m : Move} (h : Registered c) (hen : Enabled c m)
    (hdist : (c.act m).ids.Distinct) : Registered (c.act m) := by
  have hext := c.act_ids_extends m
  refine ⟨fun r i a he => ?_, fun r r' i i' a a' he he' hids => ?_⟩
  · rcases entry_act hen he with ⟨b, hb, hs⟩ | hd
    · obtain ⟨hatt, hgen⟩ := Prod.mk.inj hs
      rw [hatt, hgen]
      exact ⟨(h.issued r i b hb).1.of_extends hext, (h.issued r i b hb).2.of_extends hext⟩
    · obtain ⟨hatt, hgen⟩ := Prod.mk.inj hd.stamp
      rw [hatt, hgen, hd.ids]
      exact ⟨c.ids.tick.issued_peek, c.ids.issued_peek.of_extends c.ids.tick.extends_tick⟩
  · rcases entry_act hen he with ⟨b, hb, hs⟩ | hd
    · obtain ⟨hatt, hgen⟩ := Prod.mk.inj hs
      rcases entry_act hen he' with ⟨b', hb', hs'⟩ | hd'
      · obtain ⟨hatt', hgen'⟩ := Prod.mk.inj hs'
        rw [hatt, hgen, hatt', hgen'] at hids
        exact h.apart r r' i i' b b' hb hb' hids
      · obtain ⟨hna, hng⟩ := hd'.fresh h hdist hb
        rw [hatt, hgen] at hids
        exact absurd hids (not_or.2 ⟨hna.symm, hng.symm⟩)
    · have hfresh : ∀ {b : AttemptRecord}, c.Entry r' i' b → a'.stamp = b.stamp → r = r' ∧ i = i' := by
        intro b hb hs
        obtain ⟨hatt, hgen⟩ := Prod.mk.inj hs
        obtain ⟨hna, hng⟩ := hd.fresh h hdist hb
        rw [hatt, hgen] at hids
        exact absurd hids (not_or.2 ⟨hna, hng⟩)
      rcases entry_act hen he' with ⟨b', hb', hs'⟩ | hd'
      · exact hfresh hb' hs'
      · obtain ⟨rec', hrec', hi'⟩ := he'
        by_cases hr : r' = r
        · have hlast := hd.last rec' (hr ▸ hrec')
          have hlast' := hd'.last rec' hrec'
          exact ⟨hr.symm, by omega⟩
        · -- The move writes one request.
          exact hfresh ⟨rec', hd.rest r' hr ▸ hrec', hi'⟩ rfl

/-! ## The statistics of attempts -/

/-- The entries of a history beyond the first. -/
def RequestRecord.retriesOf (rec : RequestRecord) : ℕ := rec.history.length - 1

/-- The statistics count the entries of the histories. -/
structure Tallied (b : Book) : Prop where
  attempts : (b.tally.attempts : ℤ) = b.core.requests.sum fun rec => rec.history.length
  retries : (b.tally.retries : ℤ) = b.core.requests.sum fun rec => rec.retriesOf

/-- The moves that create an attempt. -/
def Move.creates : Move → Bool
  | .accept _ _ | .retry _ _ => true
  | _ => false

theorem Book.reserveMember_tally (bid : BatchId) (b : Book) (id : RequestId) :
    (b.reserveMember bid id).tally = b.tally := by
  unfold reserveMember
  split <;> rfl

theorem Book.foldl_reserveMember_tally (bid : BatchId) : ∀ (ids : List RequestId) (b : Book),
    (ids.foldl (reserveMember bid) b).tally = b.tally
  | [], _ => rfl
  | id :: ids, b => by rw [List.foldl_cons, foldl_reserveMember_tally bid ids, reserveMember_tally]

/-- The other moves post no attempt. -/
theorem Book.move_attempts {b : Book} {m : Move} (h : m.creates = false) :
    (b.move m).tally.attempts = b.tally.attempts ∧ (b.move m).tally.retries = b.tally.retries := by
  cases m with
  | accept | retry => cases h
  | reserve wr members =>
    have htally := foldl_reserveMember_tally b.core.ids.peek members
      { b with core := { b.core with
        ids := b.core.ids.tick
        pool := b.core.pool.reserve wr.id b.core.ids.peek (b.core.batchUnits members) members } }
    exact ⟨congrArg Tally.attempts htally, congrArg Tally.retries htally⟩
  | refuse rec =>
    simp only [move, post, Book.refuse]
    split <;> exact ⟨rfl, rfl⟩
  | cancel rec asked w reason =>
    simp only [move, post, leave, on]
    split <;> exact ⟨rfl, rfl⟩
  | finish rec w e => cases e <;> exact ⟨rfl, rfl⟩
  | _ => exact ⟨rfl, rfl⟩

/-- A move that creates no attempt keeps the length of every history. -/
theorem Writes.length {c : Core} {m : Move} {rec rec' : RequestRecord} (hw : Writes c m rec rec')
    (h : m.creates = false) : rec'.history.length = rec.history.length := by
  rcases hw.history with ⟨f, hrw⟩ | ⟨r, rfl, _⟩
  · rw [hrw.history, length_onLast]
  · cases h

/-- A sum over the lengths of the histories is kept by the moves that create
no attempt. -/
theorem Core.sum_history {c : Core} {m : Move} (hen : Enabled c m) (h : m.creates = false) {g : ℕ → ℕ}
    (hg : g 0 = 0) : (c.act m).requests.sum (fun rec => (g rec.history.length : ℤ)) =
      c.requests.sum fun rec => (g rec.history.length : ℤ) := by
  refine Core.sum_act_eq hen (fun rec rec' _ hw => ?_) fun rec hs => ?_
  · rw [hw.length h]
  · cases hs with
    | refuse => simp [hen.2.2.2.2, hg]
    | accept => cases h

theorem Tallied.move {cfg : SchedulerConfig} {b : Book} {m : Move} (h : Tallied b) (hlog : b.core.Logged cfg)
    (hen : Enabled b.core m) :
    Tallied (b.move m) := by
  have hattempts := h.attempts
  have hretries := h.retries
  cases hm : m.creates with
  | false =>
    obtain ⟨ha, hr⟩ := b.move_attempts hm
    refine ⟨?_, ?_⟩
    · rw [ha, Book.move_core]
      exact hattempts.trans (Core.sum_history hen hm (g := id) rfl).symm
    · rw [hr, Book.move_core]
      exact hretries.trans (Core.sum_history hen hm (g := fun n => n - 1) rfl).symm
  | true =>
    cases m with
    | accept spec rid =>
      -- The first entry of a history that was not there.
      have hsum : ∀ f : RequestRecord → ℤ, (b.core.act (.accept spec rid)).requests.sum f =
          b.core.requests.sum f + f (Impl.admittedRecord spec rid b.core.ids.peek b.core.ids.tick.peek b.core.now) :=
        fun f => Keyed.sum_put_of_none (t := b.core.requests)
          (w := Impl.admittedRecord spec rid b.core.ids.peek b.core.ids.tick.peek b.core.now) hen
      refine ⟨?_, ?_⟩
      · rw [Book.move_core, hsum, ← hattempts]
        rfl
      · rw [Book.move_core, hsum, ← hretries]
        exact (add_zero _).symm
    | retry rec rep =>
      obtain ⟨earlier, last, htraced⟩ := (hlog.records _ rec hen.1).traced_of_live hen.2.1
      have hpos := List.length_pos_iff.2 htraced.ne_nil
      have hw : Writes b.core (.retry rec rep) rec _ := .retry
      have hlength : ((b.core.pool.released rep.worker (rec.noteFailure rep)).retry b.core.ids.peek
          b.core.ids.tick.peek b.core.now).history.length = rec.history.length + 1 := by
        simp [RequestRecord.retry, RequestRecord.noteFailure, length_onLast]
      refine ⟨?_, ?_⟩
      · rw [Book.move_core, Core.sum_writes _ hw hen.1 (by simp), ← hattempts, hlength]
        show ((b.tally.attempts + 1 : ℕ) : ℤ) = _
        omega
      · rw [Book.move_core, Core.sum_writes _ hw hen.1 (by simp), ← hretries, RequestRecord.retriesOf,
          RequestRecord.retriesOf, hlength]
        show ((b.tally.retries + 1 : ℕ) : ℤ) = _
        omega
    | _ => cases hm


theorem Tallied.act {cfg : SchedulerConfig} {s : Impl} {op : Op} {b : Book} {e : Entry} (h : Tallied b)
    (hlog : b.core.Logged cfg) (hfresh : FreshSubmit s op) (he : Posted s op b e) : Tallied (b.act e) := by
  cases e with
  | move m => exact h.move hlog he.1.1
  | turnAway | settle => exact ⟨h.attempts, h.retries⟩
  | dismiss => exact absurd hfresh he
  | again => exact absurd hfresh he.1

/-! ## Along a run -/

/-- A submission answered as admitted, under the id `r`. -/
def admits (r : RequestId) (e : Event Impl Op Answer) : Prop :=
  ∃ out, e.out = .admission (.ok out) ∧ out.decision = .admitted ∧ out.requestId = r

theorem Impl.submitAs_admitted {s : Impl} {spec : RequestSpec} {rid : RequestId} (hnone : s.requests.find rid = none)
    (hdec : (s.submitAs spec rid).2.decision = .admitted) :
    (s.submitAs spec rid).2.requestId = rid ∧ (s.submitAs spec rid).1.requests.find rid =
      some (admittedRecord spec rid s.idFactory.peek s.idFactory.tick.peek s.now) := by
  unfold submitAs at hdec ⊢
  split at hdec
  · next reason _ =>
    cases hl : spec.deadline.valid && spec.deadline.expired s.now with
    | true =>
      simp only [admitAs, hl, ↓reduceIte] at hdec
      cases hdec
    | false =>
      have hcore := (admitAs_enters reason hl hnone).core
      refine ⟨?_, ?_⟩
      · simp only [admitAs, hl, Bool.false_eq_true, ↓reduceIte]
        rfl
      · exact (congrArg (fun c => c.requests.find rid) hcore).trans (Keyed.find_put_self _ _)
  · cases hdec
  · cases hdec

/-- A request answered as admitted has been stored with its first attempt. -/
theorem admits_stored {s : Impl} {op : Op} {r : RequestId} (hfresh : FreshSubmit s op)
    (h : admits r (scheduler.event s op)) :
    ∃ rec, (scheduler.next s op).requests.find r = some rec ∧ rec.history ≠ [] := by
  obtain ⟨out, hout, hdec, rfl⟩ := h
  cases op with
  | submit spec pre =>
    simp only [event, scheduler, Impl.step, Answer.admission.injEq] at hout
    cases hv : validateSpec spec with
    | error e =>
      simp only [Impl.doSubmit, hv] at hout
      cases hout
    | ok u =>
      have hsubmit := s.doSubmit_of_valid pre hv
      rw [hsubmit] at hout
      cases hout
      rw [FreshSubmit, ← (s.named_frame pre).1] at hfresh
      obtain ⟨hid, hstored⟩ := Impl.submitAs_admitted hfresh hdec
      have hnext : (s.doSubmit spec pre).1 = _ := congrArg Prod.fst hsubmit
      rw [hid, show scheduler.next s (.submit spec pre) = (s.doSubmit spec pre).1 from rfl, hnext]
      exact ⟨_, hstored, List.cons_ne_nil _ _⟩
  | _ => simp [event, scheduler, Impl.step] at hout

/-- A request with a history keeps one. -/
theorem act_find_history {c : Core} {m : Move} {r : RequestId} {rec : RequestRecord} (hen : Enabled c m)
    (hf : c.requests.find r = some rec) (hne : rec.history ≠ []) :
    ∃ rec', (c.act m).requests.find r = some rec' ∧ rec'.history ≠ [] := by
  obtain ⟨rec', hf', rfl | hw⟩ := Core.act_find hen hf
  · exact ⟨rec', hf', hne⟩
  · refine ⟨rec', hf', ?_⟩
    rw [← List.length_pos_iff] at hne ⊢
    rcases hw.history with ⟨f, hrw⟩ | ⟨_, _, _, _, f, new, hfol⟩
    · rwa [hrw.history, length_onLast]
    · rw [hfol.history, List.length_append, List.length_singleton]
      omega

/-- What the events so far and the state say of the attempts. -/
structure Chronicle (cfg : SchedulerConfig) (past : List (Event Impl Op Answer)) (s : Impl) : Prop where
  logged : s.core.Logged cfg
  tallied : Tallied s.book
  registered : Registered s.core
  admitted : ∀ r, (∃ e ∈ past, admits r e) → ∃ rec, s.requests.find r = some rec ∧ rec.history ≠ []

theorem Chronicle.step {cfg : SchedulerConfig} {past : List (Event Impl Op Answer)} {s : Impl} {op : Op}
    (h : Chronicle cfg past s) (hfresh : FreshSubmit s op) (hd : (scheduler.next s op).idFactory.Distinct) :
    Chronicle cfg (past ++ [scheduler.event s op]) (scheduler.next s op) := by
  have hentries : ∀ b e, Posted s op b e → b.core.Logged cfg ∧ Tallied b →
      (b.act e).core.Logged cfg ∧ Tallied (b.act e) := by
    rintro b e he ⟨hlog, htal⟩
    refine ⟨?_, htal.act hlog hfresh he⟩
    cases e with
    | move m =>
      rw [Book.act, Book.move_core]
      exact hlog.act he.1.1
    | turnAway | settle => exact hlog
    | dismiss => exact absurd hfresh he
    | again => exact absurd hfresh he.1
  have hbooks := posts_invariant (I := fun b => b.core.Logged cfg ∧ Tallied b) hentries ⟨h.logged, h.tallied⟩
  refine ⟨hbooks.1, hbooks.2, ?_, ?_⟩
  · exact step_invariant_of_distinct (fun c m hc hen => hc.act hen) hfresh hd h.registered
  · rintro r ⟨e, he, hadm⟩
    rcases List.mem_append.1 he with he | he
    · refine (step_leads hfresh).invariant (I := fun c => ∃ rec, c.requests.find r = some rec ∧ rec.history ≠ [])
        ?_ (h.admitted r ⟨e, he, hadm⟩)
      rintro c m hm ⟨rec, hf, hne⟩
      exact act_find_history hm.1 hf hne
    · rw [List.mem_singleton.1 he] at hadm
      exact admits_stored hfresh hadm

/-- The attempts of the requests, as the events of a run left them. -/
structure Lineages (cfg : SchedulerConfig) (past : List (Event Impl Op Answer)) (s : Impl) : Prop where
  admitted : ∀ r, (∃ e ∈ past, admits r e) →
    ∃ rec, s.requests.find r = some rec ∧ ∃ earlier last, rec.Traced cfg earlier last
  /-- Where the source reads `history.back()`, there is one. -/
  live : ∀ r rec, s.requests.find r = some rec → isTerminal rec.state = false →
    ∃ earlier last, rec.Traced cfg earlier last
  apart : s.core.Apart
  created : (s.stats.attemptsCreated : ℤ) = s.requests.sum fun rec => rec.history.length
  retries : (s.stats.retries : ℤ) = s.requests.sum fun rec => rec.retriesOf

/-- **Attempt lineage.** In every state of a run with fresh ids and a factory
whose ids are pairwise distinct, an admitted request has a history of failed
attempts and then the current one, no two entries of histories share an id, and
the statistics count them. -/
theorem attempt_lineage {cfg : SchedulerConfig} {now : ClockTime} {salt : UInt64} {epoch : Option SchedulerEpoch}
    {ops : List Op} (hfresh : scheduler.Allowed FreshSubmit (Impl.init cfg now salt epoch) ops)
    (hd : (scheduler.run (Impl.init cfg now salt epoch) ops).idFactory.Distinct) :
    Lineages cfg (scheduler.trace (Impl.init cfg now salt epoch) ops)
      (scheduler.run (Impl.init cfg now salt epoch) ops) := by
  have h := history_invariant (m := scheduler) (P := FreshSubmit)
    (I := fun past s => s.idFactory.Distinct → Chronicle cfg past s) ?_ ?_ hfresh hd
  · refine ⟨fun r hr => ?_, fun r rec hf ht => ?_, h.registered.apart, h.tallied.attempts, h.tallied.retries⟩
    · obtain ⟨rec, hf, hne⟩ := h.admitted r hr
      exact ⟨rec, hf, (h.logged.records r rec hf).traced hne⟩
    · exact (h.logged.records r rec hf).traced_of_live ht
  · intro past s op hf hs hdist
    exact (hs (hdist.of_extends (step_ids_extends _ _))).step hf hdist
  · intro _
    refine ⟨⟨rfl, by simp [Impl.core, Impl.init]⟩, ⟨rfl, rfl⟩, ⟨?_, ?_⟩, by simp⟩
    · simp [Core.Entry, Impl.core, Impl.init]
    · simp [Core.Apart, Core.Entry, Impl.core, Impl.init]

/-- A request admitted beside one turned down, that fails and is retried. -/
theorem attempt_lineage_retried :
    let s := Impl.init {} 0 0x80000001 none
    let ops : List Op := [.registerWorker (plainWorker 3), .submit plainSpec (some ⟨7⟩),
      .submit { plainSpec with deadline := ⟨some 0⟩ } (some ⟨8⟩), .planDispatch ⟨7⟩ false,
      .confirmStart (firstReport 3 .failed), .complete (firstReport 3 .failed)]
    Lineages {} (scheduler.trace s ops) (scheduler.run s ops) :=
  attempt_lineage (by decide +kernel) (by decide +kernel)

end InferenceScheduler
