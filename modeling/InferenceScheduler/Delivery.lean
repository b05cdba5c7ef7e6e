/-
Delivery of events (`src/scheduler.cpp`, `flush_events` and the public methods
of `Scheduler`), with a handler installed and any number of threads.

A method runs its critical section, then flushes: it swaps the whole log out
and passes what it took to the handler. `plan_next_dispatch` has two critical
sections before its flush, `update_worker_capability` and `recover` have no
flush. Critical sections and swaps are atomic; between them, and between two
events passed to the handler, any other thread may act.
-/
import InferenceScheduler.Emission
import InferenceScheduler.Resubmit
import Mathlib.Logic.Function.Basic

namespace InferenceScheduler

/-! ## Threads -/

/-- Where a thread stands in a call. -/
inductive Thread
  | idle
  | planning (seed : RequestId) (explain : Bool)
  | flushing
  | delivering
  deriving DecidableEq

/-- `plan_next_dispatch` between its critical sections. -/
def Thread.isPlanning : Thread → Bool
  | .planning .. => true
  | _ => false

/-- The scheduler with its callers. `held` is what the threads have swapped
out and not passed on yet, `passed` what the handler was called with. -/
structure System where
  impl : Impl
  threads : ℕ → Thread := fun _ => .idle
  held : List (ℕ × SchedulerEvent) := []
  passed : List SchedulerEvent := []

inductive Action
  | advance (nanoseconds : ℕ)
  | call (thread : ℕ) (op : ServiceOp)
  | planNext (thread : ℕ) (explain : Bool)
  | plan (thread : ℕ)
  | swap (thread : ℕ)
  | pass (thread : ℕ)
  | finish (thread : ℕ)

/-- Where a call stands after its critical section. -/
def ServiceOp.after : ServiceOp → Thread
  | .op (.updateCapability ..) | .recover _ => .idle
  | .op _ => .flushing

/-- The operations that are a method with one critical section. -/
def ServiceOp.isMethod : ServiceOp → Bool
  | .op .planNextSeed | .op (.advance _) => false
  | _ => true

namespace System

/-- One action. -/
def act (s : System) : Action → System
  | .advance n => { s with impl := scheduler.next s.impl (.advance n) }
  | .call t op =>
    { s with impl := recoverable.next s.impl op, threads := Function.update s.threads t op.after }
  | .planNext t explain =>
    { s with
      impl := s.impl.planNextSeed.1
      threads := Function.update s.threads t (match s.impl.planNextSeed.2 with
        | none => .flushing
        | some seed => .planning seed explain) }
  | .plan t =>
    match s.threads t with
    | .planning seed explain =>
      { s with
        impl := (s.impl.doPlanDispatch seed explain).1
        threads := Function.update s.threads t .flushing }
    | _ => s
  | .swap t =>
    { s with
      impl := { s.impl with eventLog := [] }
      held := s.held ++ s.impl.eventLog.map (t, ·)
      threads := Function.update s.threads t .delivering }
  | .pass t =>
    { s with
      held := s.held.eraseP (·.1 = t)
      passed := s.passed ++ ((s.held.find? (·.1 = t)).map Prod.snd).toList }
  | .finish t => { s with threads := Function.update s.threads t .idle }

/-- The actions the callers can take: a thread does one call at a time, and
each part of it in its place. -/
def Legal (s : System) : Action → Prop
  | .advance _ => True
  | .call t op => s.threads t = .idle ∧ op.isMethod = true
  | .planNext t _ => s.threads t = .idle
  | .plan t => (s.threads t).isPlanning = true
  | .swap t => s.threads t = .flushing
  | .pass t => s.threads t = .delivering ∧ t ∈ s.held.map Prod.fst
  | .finish t => s.threads t = .delivering ∧ t ∉ s.held.map Prod.fst

instance (s : System) : ∀ a, Decidable (s.Legal a)
  | .advance _ => .isTrue trivial
  | .call t op => inferInstanceAs (Decidable (s.threads t = .idle ∧ op.isMethod = true))
  | .planNext t _ => inferInstanceAs (Decidable (s.threads t = .idle))
  | .plan t => inferInstanceAs (Decidable ((s.threads t).isPlanning = true))
  | .swap t => inferInstanceAs (Decidable (s.threads t = .flushing))
  | .pass t => inferInstanceAs (Decidable (s.threads t = .delivering ∧ t ∈ s.held.map Prod.fst))
  | .finish t => inferInstanceAs (Decidable (s.threads t = .delivering ∧ t ∉ s.held.map Prod.fst))

end System

/-- The callers as a machine over their actions. -/
def callers : Machine System Action Unit := ⟨fun s a => (s.act a, ())⟩

namespace System

/-- A constructed scheduler, with no call in progress. -/
def init (cfg : SchedulerConfig) (now : ClockTime) (salt : UInt64) (epoch : Option SchedulerEpoch) : System :=
  { impl := .init cfg now salt epoch }

/-- Every event so far was passed to the handler once. -/
def ExactlyOnce (s : System) : Prop :=
  ∀ n, 1 ≤ n → n ≤ s.impl.eventSeq → (s.passed.map (·.sequence)).count n = 1

/-- The events that wait, with those the action emits, fit into the log. -/
def Roomy (s : System) (a : Action) : Prop :=
  s.impl.eventLog.length + ((s.act a).impl.eventSeq - s.impl.eventSeq) ≤ 65536

instance (s : System) (a : Action) : Decidable (s.Roomy a) := inferInstanceAs (Decidable (_ ≤ _))

/-! ## Every event is in one place -/

/-- The system as a mailbox that has dropped `d`. -/
def mailbox (s : System) (d : List SchedulerEvent) : Mailbox ℕ SchedulerEvent := ⟨s.impl.eventLog, s.held, s.passed, d⟩

/-- The events are where they wait, are held or were passed, and those in `d`
are lost. -/
structure Tracked (s : System) (d : List SchedulerEvent) : Prop where
  room : s.impl.eventLog.length ≤ 65536
  all : (s.mailbox d).contents.map (·.sequence) = ↑(List.range' 1 s.impl.eventSeq)
  delivering : ∀ t e, (t, e) ∈ s.held → s.threads t = .delivering

variable {s s' : System} {d : List SchedulerEvent}

/-- A critical section posts its events. -/
theorem Tracked.emits (h : Tracked s d) (hem : s.impl.Emits s'.impl) (hheld : s'.held = s.held)
    (hpassed : s'.passed = s.passed) (hthreads : ∀ t, s.threads t = .delivering → s'.threads t = .delivering) :
    ∃ d', Tracked s' d' ∧
      (d' = [] ↔ d = [] ∧ s.impl.eventLog.length + (s'.impl.eventSeq - s.impl.eventSeq) ≤ 65536) := by
  obtain ⟨es, hem⟩ := hem
  have hbox : s'.mailbox ((s.mailbox d).posts 65536 es).dropped = (s.mailbox d).posts 65536 es := by
    obtain ⟨hkept, hkept'⟩ := (s.mailbox d).posts_kept 65536 es
    simp only [mailbox, hheld, hpassed, hem.log]
    refine Mailbox.ext ?_ hkept.symm hkept'.symm rfl
    exact ((s.mailbox d).posts_log 65536 es).symm
  refine ⟨((s.mailbox d).posts 65536 es).dropped, ⟨?_, ?_, ?_⟩, ?_⟩
  · have hlog : s'.impl.eventLog = ((s.mailbox d).posts 65536 es).log := congrArg Mailbox.log hbox
    rw [hlog]
    exact ((s.mailbox d).posts_log_length 65536 es h.room).trans_le (min_le_left _ _)
  · rw [hbox, Mailbox.contents_posts, Multiset.map_add, h.all, Multiset.map_coe, hem.numbers, hem.count,
      Multiset.coe_add, add_comm s.impl.eventSeq 1, List.range'_append_1]
  · rw [hheld]
    exact fun t e he => hthreads t (h.delivering t e he)
  · rw [Mailbox.posts_dropped_eq_nil_iff _ _ h.room, hem.count, Nat.add_sub_cancel_left]
    rfl

theorem threads_update_of_ne {t t' : ℕ} {x : Thread} (h : s.threads t ≠ .delivering) (ht' : s.threads t' = .delivering) :
    Function.update s.threads t x t' = .delivering := by
  have hne : t' ≠ t := by
    rintro rfl
    exact h ht'
  rw [Function.update_of_ne hne, ht']

theorem exists_of_isPlanning {x : Thread} (h : x.isPlanning = true) : ∃ seed explain, x = .planning seed explain := by
  cases x with
  | planning seed explain => exact ⟨seed, explain, rfl⟩
  | _ => cases h

/-- One action: the events stay in one place each, and none is lost exactly if
none was and the log has room. -/
theorem Tracked.act (h : Tracked s d) {a : Action} (ha : s.Legal a) :
    ∃ d', Tracked (s.act a) d' ∧ (d' = [] ↔ d = [] ∧ s.Roomy a) := by
  have hroom : s.impl.eventLog.length + (s.impl.eventSeq - s.impl.eventSeq) ≤ 65536 := by
    rw [Nat.sub_self, add_zero]
    exact h.room
  cases a with
  | advance n => exact h.emits (s.impl.step_emits _) rfl rfl fun _ ht => ht
  | call t op =>
    obtain ⟨hidle, _⟩ := ha
    exact h.emits (s.impl.serve_emits op) rfl rfl fun _ => threads_update_of_ne (by rw [hidle]; simp)
  | planNext t explain =>
    exact h.emits (s.impl.step_emits .planNextSeed) rfl rfl fun _ =>
      threads_update_of_ne (by rw [show s.threads t = .idle from ha]; simp)
  | plan t =>
    obtain ⟨seed, explain, hplan⟩ := exists_of_isPlanning ha
    have hact : s.act (.plan t) =
        { s with
          impl := (s.impl.doPlanDispatch seed explain).1
          threads := Function.update s.threads t .flushing } := by
      simp only [System.act, hplan]
    unfold Roomy
    rw [hact]
    exact h.emits (s.impl.step_emits (.planDispatch seed explain)) rfl rfl fun _ =>
      threads_update_of_ne (by rw [hplan]; simp)
  | swap t =>
    refine ⟨d, ⟨Nat.zero_le _, ?_, fun t' e he => ?_⟩, (and_iff_left hroom).symm⟩
    · have hbox : (s.act (.swap t)).mailbox d = (s.mailbox d).take t := rfl
      rw [hbox, Mailbox.contents_take]
      exact h.all
    · rcases List.mem_append.1 he with he | he
      · exact threads_update_of_ne (by rw [show s.threads t = .flushing from ha]; simp) (h.delivering t' e he)
      · obtain ⟨e', _, heq⟩ := List.mem_map.1 he
        obtain ⟨rfl, rfl⟩ := Prod.mk.inj heq
        exact Function.update_self ..
  | pass t =>
    refine ⟨d, ⟨h.room, ?_, fun t' e he => h.delivering t' e (List.mem_of_mem_eraseP he)⟩, (and_iff_left hroom).symm⟩
    have hbox : (s.act (.pass t)).mailbox d = (s.mailbox d).pass t := rfl
    rw [hbox, Mailbox.contents_pass]
    exact h.all
  | finish t =>
    refine ⟨d, ⟨h.room, h.all, fun t' e he => ?_⟩, (and_iff_left hroom).symm⟩
    have hne : t' ≠ t := by
      rintro rfl
      exact ha.2 (List.mem_map_of_mem he)
    exact (Function.update_of_ne hne ..).trans (h.delivering t' e he)

theorem Tracked.run {acts : List Action} (h : Tracked s d) (hacts : callers.Allowed Legal s acts) :
    ∃ d', Tracked (callers.run s acts) d' ∧ (d' = [] ↔ d = [] ∧ callers.Allowed Roomy s acts) := by
  induction acts generalizing s d with
  | nil => exact ⟨d, h, (and_iff_left trivial).symm⟩
  | cons a acts ih =>
    obtain ⟨d₁, h₁, hd₁⟩ := h.act hacts.1
    obtain ⟨d₂, h₂, hd₂⟩ := ih h₁ hacts.2
    exact ⟨d₂, h₂, by rw [hd₂, hd₁, and_assoc]; rfl⟩

theorem tracked_init (cfg : SchedulerConfig) (now : ClockTime) (salt : UInt64) (epoch : Option SchedulerEpoch) :
    Tracked (init cfg now salt epoch) [] :=
  ⟨Nat.zero_le _, rfl, fun _ _ he => absurd he List.not_mem_nil⟩

/-! ## What waits is flushed -/

/-- Some call has its flush still to come. -/
def Owing (s : System) : Prop := ∃ t, s.threads t = .flushing ∨ (s.threads t).isPlanning = true

/-- Some call of `update_worker_capability` is followed by no swap. -/
def Unflushed (acts : List Action) : Prop :=
  ∃ as t w cap bs, acts = as ++ .call t (.op (.updateCapability w cap)) :: bs ∧ ∀ t', .swap t' ∉ bs

theorem Unflushed.mem {acts : List Action} (h : Unflushed acts) :
    ∃ t w cap, .call t (.op (.updateCapability w cap)) ∈ acts := by
  obtain ⟨as, t, w, cap, bs, rfl, _⟩ := h
  exact ⟨t, w, cap, List.mem_append_right as List.mem_cons_self⟩

theorem Unflushed.append {acts : List Action} {a : Action} (h : Unflushed acts) (ha : ∀ t, a ≠ .swap t) :
    Unflushed (acts ++ [a]) := by
  obtain ⟨as, t, w, cap, bs, rfl, hbs⟩ := h
  refine ⟨as, t, w, cap, bs ++ [a], by simp, fun t' hm => ?_⟩
  rcases List.mem_append.1 hm with hm | hm
  · exact hbs t' hm
  · exact ha t' (List.mem_singleton.1 hm).symm

/-- An action on a thread that owes no flush leaves those that do. -/
theorem Owing.update (h : s.Owing) {t : ℕ} {x : Thread} (ht : s.threads t = .idle ∨ s.threads t = .delivering)
    (hx : s'.threads = Function.update s.threads t x) : s'.Owing := by
  obtain ⟨t', ht'⟩ := h
  have hne : t' ≠ t := by
    rintro rfl
    rcases ht with ht | ht <;> simp [ht, Thread.isPlanning] at ht'
  exact ⟨t', by rwa [hx, Function.update_of_ne hne]⟩

theorem owing_update {t : ℕ} {x : Thread} (hx : s'.threads = Function.update s.threads t x)
    (hflush : x = .flushing ∨ x.isPlanning = true) : s'.Owing :=
  ⟨t, by rwa [hx, Function.update_self]⟩

/-- The log is empty, or some flush is still to come, or a capability update
had none. -/
theorem log_cases {acts : List Action} (hs : s.impl.eventLog = []) (hacts : callers.Allowed Legal s acts) :
    (callers.run s acts).impl.eventLog = [] ∨ (callers.run s acts).Owing ∨ Unflushed acts := by
  induction acts using List.reverseRecOn with
  | nil => exact .inl hs
  | append_singleton acts a ih =>
    obtain ⟨hacts, ha, _⟩ := Machine.allowed_append.1 hacts
    specialize ih hacts
    rw [Machine.run_append]
    generalize hr : callers.run s acts = r at ih ha ⊢
    show (r.act a).impl.eventLog = [] ∨ (r.act a).Owing ∨ _
    cases a with
    | advance n => exact ih.imp_right (Or.imp_right fun h => h.append (by simp))
    | call t op =>
      obtain ⟨hidle, _⟩ := ha
      cases op with
      | recover file =>
        have hlog : (r.act (.call t (.recover file))).impl.eventLog = r.impl.eventLog :=
          (r.impl.doRecover_voice file).1
        rw [hlog]
        exact ih.imp_right (Or.imp (fun h => h.update (.inl hidle) rfl) fun h => h.append (by simp))
      | op op =>
        cases op with
        | updateCapability w cap => exact .inr (.inr ⟨acts, t, w, cap, [], rfl, fun _ => List.not_mem_nil⟩)
        | _ => exact .inr (.inl (owing_update rfl (.inl rfl)))
    | planNext t explain =>
      refine .inr (.inl (owing_update rfl ?_))
      split
      · exact .inl rfl
      · exact .inr rfl
    | plan t =>
      obtain ⟨seed, explain, hplan⟩ := exists_of_isPlanning ha
      refine .inr (.inl (owing_update (s := r) (t := t) (x := .flushing) ?_ (.inl rfl)))
      simp only [System.act, hplan]
    | swap t => exact .inl rfl
    | pass t => exact ih.imp_right (Or.imp_right fun h => h.append (by simp))
    | finish t =>
      exact ih.imp_right (Or.imp (fun h => h.update (.inr ha.1) rfl) fun h => h.append (by simp))

/-! ## Exactly once -/

/-- All calls have returned. -/
def Returned (s : System) : Prop := ∀ t, s.threads t = .idle

theorem Tracked.held_eq_nil (h : Tracked s d) (hidle : s.Returned) : s.held = [] := by
  refine List.eq_nil_iff_forall_not_mem.2 fun p hp => ?_
  have := h.delivering p.1 p.2 hp
  rw [hidle] at this
  cases this

/-- With all calls returned, what was not passed waits in the log or is lost. -/
theorem Tracked.passed_add (h : Tracked s d) (hidle : s.Returned) :
    (↑(s.passed.map (·.sequence)) : Multiset ℕ) + ↑((s.impl.eventLog ++ d).map (·.sequence)) =
      ↑(List.range' 1 s.impl.eventSeq) := by
  rw [← h.all]
  simp only [mailbox, Mailbox.contents, h.held_eq_nil hidle, List.map_nil, Multiset.coe_nil, add_zero, Multiset.map_add,
    Multiset.map_coe, List.map_append, ← Multiset.coe_add, add_assoc]

/-- Events are passed exactly once if and only if none waits and none is lost. -/
theorem Tracked.exactlyOnce_iff (h : Tracked s d) (hidle : s.Returned) :
    s.ExactlyOnce ↔ s.impl.eventLog = [] ∧ d = [] := by
  have hsum := h.passed_add hidle
  have hcount : ∀ n, (↑(List.range' 1 s.impl.eventSeq) : Multiset ℕ).count n =
      if 1 ≤ n ∧ n ≤ s.impl.eventSeq then 1 else 0 := by
    intro n
    have hmem : n ∈ List.range' 1 s.impl.eventSeq ↔ 1 ≤ n ∧ n ≤ s.impl.eventSeq := by
      rw [List.mem_range'_1]
      omega
    have hnodup : (List.range' 1 s.impl.eventSeq).Nodup := List.nodup_range'
    rw [Multiset.coe_count, hnodup.count]
    simp only [hmem]
  constructor
  · intro honce
    have hle : (↑(List.range' 1 s.impl.eventSeq) : Multiset ℕ) ≤ ↑(s.passed.map (·.sequence)) := by
      refine Multiset.le_iff_count.2 fun n => ?_
      rw [hcount]
      split
      · next hn =>
        rw [Multiset.coe_count, honce n hn.1 hn.2]
      · exact Nat.zero_le _
    have hcard := Multiset.card_le_card hle
    rw [← hsum, Multiset.card_add, Multiset.coe_card (List.map _ (s.impl.eventLog ++ d)), List.length_map] at hcard
    exact List.append_eq_nil_iff.1 (List.length_eq_zero_iff.1 (by omega))
  · rintro ⟨hlog, rfl⟩ n hn hn'
    rw [hlog, List.append_nil, List.map_nil, Multiset.coe_nil, add_zero] at hsum
    rw [← Multiset.coe_count, hsum, hcount, if_pos ⟨hn, hn'⟩]

end System

/-- **Events are delivered exactly once if and only if the log never
overflows.** For every interleaving of calls by any number of threads, every
capability update being followed by some flush: once all calls have returned,
every event emitted was passed to the handler exactly once exactly if at each
critical section the events that waited and those it emitted were at most
65536. -/
theorem delivered_exactly_once_iff (cfg : SchedulerConfig) (now : ClockTime) (salt : UInt64)
    (epoch : Option SchedulerEpoch) (acts : List Action)
    (hlegal : callers.Allowed System.Legal (.init cfg now salt epoch) acts) (hflushed : ¬System.Unflushed acts)
    (hreturned : (callers.run (.init cfg now salt epoch) acts).Returned) :
    (callers.run (.init cfg now salt epoch) acts).ExactlyOnce ↔
      callers.Allowed System.Roomy (.init cfg now salt epoch) acts := by
  obtain ⟨d, htracked, hd⟩ := (System.tracked_init cfg now salt epoch).run hlegal
  have hlog : (callers.run (.init cfg now salt epoch) acts).impl.eventLog = [] := by
    rcases System.log_cases rfl hlegal with h | ⟨t, ht⟩ | h
    · exact h
    · rw [hreturned t] at ht
      simp [Thread.isPlanning] at ht
    · exact absurd h hflushed
  rw [htracked.exactlyOnce_iff hreturned, hd]
  simp only [hlog, true_and]

/-- Two threads: the second swaps out the events of both calls. -/
theorem delivered_exactly_once_two :
    let s := System.init {} 0 0x80000001 none
    let acts : List Action := [.call 0 (.op (.submit plainSpec (some ⟨7⟩))), .call 1 (.op (.beginDrain "")), .swap 1,
      .pass 1, .swap 0, .pass 1, .finish 0, .pass 1, .finish 1]
    (callers.run s acts).impl.eventSeq = 3 ∧ (callers.run s acts).ExactlyOnce := by
  intro s acts
  have hreturned : (callers.run s acts).Returned := by
    intro t
    simp only [acts, Machine.run_cons, Machine.run_nil, callers, Machine.next, System.act, ServiceOp.after,
      Function.update_apply]
    split_ifs <;> rfl
  have hflushed : ¬System.Unflushed acts := by
    intro h
    obtain ⟨t, w, cap, hmem⟩ := h.mem
    simp [acts] at hmem
  exact ⟨by decide +kernel, (delivered_exactly_once_iff {} 0 0x80000001 none acts (by decide +kernel) hflushed
    hreturned).2 (by decide +kernel)⟩

/-! ## One thread alone -/

/-- A call of a thread that is not disturbed, with `k` events to pass. -/
def loneCall (op : ServiceOp) (k : ℕ) : List Action :=
  .call 0 op :: .swap 0 :: (List.replicate k (.pass 0) ++ [.finish 0])

namespace System

/-- No call is in progress and no event waits. -/
structure Quiet (s : System) : Prop where
  returned : s.Returned
  log : s.impl.eventLog = []
  held : s.held = []

theorem run_passes : ∀ (es : List SchedulerEvent) {s : System}, s.threads 0 = .delivering → s.held = es.map (0, ·) →
    callers.Allowed Legal s (List.replicate es.length (.pass 0)) ∧
      callers.run s (List.replicate es.length (.pass 0)) = { s with held := [], passed := s.passed ++ es }
  | [], s, _, hheld => by
    refine ⟨trivial, ?_⟩
    rw [List.map_nil] at hheld
    simp only [List.length_nil, List.replicate_zero, Machine.run_nil, List.append_nil, ← hheld]
  | e :: es, s, hthread, hheld => by
    have hnext : s.act (.pass 0) = { s with held := es.map (0, ·), passed := s.passed ++ [e] } := by
      simp only [System.act, hheld, List.map_cons]
      rfl
    obtain ⟨hok, hrun⟩ := run_passes es (s := s.act (.pass 0)) (by rw [hnext]; exact hthread) (by rw [hnext])
    refine ⟨⟨⟨hthread, by rw [hheld]; exact List.mem_cons_self⟩, hok⟩, hrun.trans ?_⟩
    rw [hnext, List.append_assoc]
    rfl

/-- A lone call leaves the system quiet, in the state of its operation. -/
theorem Quiet.loneCall {s : System} (h : s.Quiet) {op : ServiceOp} (hmethod : op.isMethod = true)
    (hafter : op.after = .flushing)
    {k : ℕ} (hk : (recoverable.next s.impl op).eventLog.length = k) :
    callers.Allowed Legal s (loneCall op k) ∧ (callers.run s (loneCall op k)).Quiet ∧
      (callers.run s (loneCall op k)).impl = { recoverable.next s.impl op with eventLog := [] } := by
  subst hk
  generalize hswapped : callers.run s [.call 0 op, .swap 0] = r
  have hthread : r.threads 0 = .delivering := by
    rw [← hswapped]
    show Function.update (Function.update s.threads 0 op.after) 0 .delivering 0 = .delivering
    rw [Function.update_self]
  have hheld : r.held = (recoverable.next s.impl op).eventLog.map (0, ·) := by
    rw [← hswapped]
    exact (congrArg (· ++ _) h.held).trans (List.nil_append _)
  have himpl : r.impl = { recoverable.next s.impl op with eventLog := [] } := by rw [← hswapped]; rfl
  obtain ⟨hok, hrun⟩ := run_passes _ hthread hheld
  have hsplit : InferenceScheduler.loneCall op (recoverable.next s.impl op).eventLog.length = [.call 0 op, .swap 0] ++
      (List.replicate (recoverable.next s.impl op).eventLog.length (.pass 0) ++ [.finish 0]) := rfl
  have hend : callers.run s (InferenceScheduler.loneCall op (recoverable.next s.impl op).eventLog.length) =
      { r with held := [], passed := r.passed ++ (recoverable.next s.impl op).eventLog,
               threads := Function.update r.threads 0 .idle } := by
    rw [hsplit, Machine.run_append, hswapped, Machine.run_append, hrun]
    rfl
  refine ⟨?_, ⟨fun t => ?_, ?_, ?_⟩, ?_⟩
  · rw [hsplit, Machine.allowed_append, hswapped, Machine.allowed_append, hrun]
    refine ⟨⟨⟨h.returned 0, hmethod⟩, ?_, trivial⟩, hok, ⟨hthread, List.not_mem_nil⟩, trivial⟩
    show Function.update s.threads 0 op.after 0 = .flushing
    rw [Function.update_self, hafter]
  · rw [hend]
    by_cases ht : t = 0
    · subst ht
      show Function.update r.threads 0 .idle 0 = .idle
      rw [Function.update_self]
    · have hother : r.threads t = .idle := by
        rw [← hswapped]
        show Function.update (Function.update s.threads 0 op.after) 0 .delivering t = .idle
        rw [Function.update_of_ne ht, Function.update_of_ne ht, h.returned t]
      exact (Function.update_of_ne ht ..).trans hother
  · rw [hend]
    exact congrArg Impl.eventLog himpl
  · rw [hend]
  · rw [hend]
    exact himpl

end System

/-! ## A flood -/

/-- Limits that admit a hundred thousand requests. -/
def floodConfig : SchedulerConfig :=
  { admission := { maxGlobalAdmitted := 100000, maxGlobalQueued := 100000, defaultTenantConcurrency := 100000,
                   defaultTenantQueueDepth := 100000 } }

def floodId (k : ℕ) : RequestId := ⟨UInt64.ofNat k⟩

/-- `n` requests wait, under the first `n` ids. -/
structure Flooded (n : ℕ) (s : Impl) : Prop where
  config : s.cfg = floodConfig
  serving : s.draining = false ∧ s.recoveryMode = 0
  workers : s.pool.workers.records = []
  admitted : s.globalAdmitted = n
  queued : s.ready.globalQueued = n
  tenant : (s.counts ⟨1⟩).admitted = n ∧ (s.counts ⟨1⟩).queued = n
  size : s.ready.queued.elems.length = n
  waits : ∀ id ∈ s.ready.queued, ∃ rec, s.requests.find id = some rec ∧ isTerminal rec.state = false
  free : ∀ k, n ≤ k → k < 2 ^ 64 → s.requests.find (floodId k) = none

namespace Flooded

theorem init (now : ClockTime) (salt : UInt64) (epoch : Option SchedulerEpoch) :
    Flooded 0 (.init floodConfig now salt epoch) :=
  ⟨rfl, ⟨rfl, rfl⟩, rfl, rfl, rfl, ⟨rfl, rfl⟩, rfl, fun _ hid => absurd hid (USet.notMem_empty _), fun _ _ _ => rfl⟩

variable {n : ℕ} {s : Impl}

theorem admissible (h : Flooded n s) (hn : n < 100000) : Admissible s plainSpec where
  serving := ⟨h.serving.1, by rw [h.serving.2]; decide⟩
  inTime := by simp [plainSpec, Deadline.valid]
  feasible := by simp [plainSpec, Deadline.valid]
  admittedRoom := by
    rw [h.admitted, h.config]
    simpa [floodConfig] using hn
  queuedRoom := by
    rw [h.queued, h.config]
    simpa [floodConfig] using hn
  tokenRoom := by simp [h.config, floodConfig]
  tenantRoom := by
    intro t ht
    have hcounts : s.counts ⟨1⟩ = t.counts := by
      rw [Impl.counts, Impl.tenantOf, show s.tenants.find ⟨1⟩ = some t from ht, Option.getD_some]
    obtain ⟨had, hq⟩ := h.tenant
    rw [hcounts] at had hq
    rw [h.config, show t.admitted = n from had, show t.queued = n from hq]
    simpa [floodConfig] using hn
  worker := .inl h.workers

/-- An admission leaves the switches alone and emits two events. -/
theorem admitAs_frame (rid : RequestId) (reason : String) (hlog : s.eventLog = []) :
    (s.admitAs plainSpec rid reason).1.draining = s.draining ∧
      (s.admitAs plainSpec rid reason).1.recoveryMode = s.recoveryMode ∧
      (s.admitAs plainSpec rid reason).1.eventLog.length = 2 := by
  have hinsert : ∀ (t : Impl) (rec : RequestRecord), (t.insertRequest rec).draining = t.draining ∧
      (t.insertRequest rec).recoveryMode = t.recoveryMode ∧ (t.insertRequest rec).eventLog = t.eventLog := by
    intro t rec
    unfold Impl.insertRequest
    split <;> exact ⟨rfl, rfl, rfl⟩
  have hnew : ∀ (t : Impl) (rec : RequestRecord), t.eventLog = [] →
      (t.enqueueNew rec reason).1.draining = t.draining ∧ (t.enqueueNew rec reason).1.recoveryMode = t.recoveryMode ∧
        (t.enqueueNew rec reason).1.eventLog.length = 2 := by
    intro t rec ht
    obtain ⟨hdrain, hmode, hkept⟩ := hinsert t rec
    unfold Impl.enqueueNew
    extract_lets rid s₁ stored s₂ s₃ s₄ s₅ s₆
    have h₄ : s₄.eventLog = [] := hkept.trans ht
    have h₅ : s₅.eventLog.length = 1 := by simp [s₅, Impl.emitEvent, h₄]
    have hdrain₄ : s₄.draining = t.draining := hdrain
    have hmode₄ : s₄.recoveryMode = t.recoveryMode := hmode
    clear_value s₄
    refine ⟨hdrain₄, hmode₄, ?_⟩
    simp [s₆, Impl.emitEvent, h₅]
  unfold Impl.admitAs
  extract_lets now gen s₁ stats s₂ s₃ stats' s₄ s₅ att s₆ stats'' s₇
  rw [if_neg (by simp [plainSpec, Deadline.valid])]
  exact hnew s₇ _ hlog

theorem submit (h : Flooded n s) (hn : n < 100000) (hlog : s.eventLog = []) :
    Flooded (n + 1) { recoverable.next s (.op (.submit plainSpec (some (floodId n)))) with eventLog := [] } ∧
      (recoverable.next s (.op (.submit plainSpec (some (floodId n))))).eventLog.length = 2 := by
  obtain ⟨reason, hmake⟩ : ∃ reason, s.makeAdmission plainSpec s.now = (.admitted, reason) :=
    ⟨_, Prod.ext ((makeAdmission_admitted_iff s plainSpec).2 (h.admissible hn)) rfl⟩
  have hnext : recoverable.next s (.op (.submit plainSpec (some (floodId n)))) =
      (s.admitAs plainSpec (floodId n) reason).1 := by
    show (s.doSubmit plainSpec (some (floodId n))).1 = _
    rw [s.doSubmit_of_valid _ (by decide)]
    show (s.submitAs plainSpec (floodId n)).1 = _
    rw [Impl.submitAs, hmake]
  obtain ⟨hdrain, hmode, hevents⟩ := admitAs_frame (floodId n) reason hlog
  have hfree := h.free n le_rfl (by omega)
  have hbook : (s.admitAs plainSpec (floodId n) reason).1.book = s.book.act (.move (.accept plainSpec (floodId n))) := by
    exact (Impl.admitAs_enters reason (by simp [plainSpec, Deadline.valid]) hfree).book
  rw [hnext]
  generalize (s.admitAs plainSpec (floodId n) reason).1 = s' at hdrain hmode hevents hbook
  have hcore : s'.core = s.core.act (.accept plainSpec (floodId n)) := (congrArg Book.core hbook).trans (s.book.move_core _)
  have hcounts : s'.counts ⟨1⟩ = .enter (.enqueue (s.counts ⟨1⟩)) := by
    have := congrFun (congrArg Book.tenants hbook) ⟨1⟩
    simpa [Book.act, Book.move, Book.post, Book.accept, Book.on, plainSpec, Impl.book] using this
  have hnot : floodId n ∉ s.ready.queued := by
    intro hin
    obtain ⟨rec, hrec, _⟩ := h.waits _ hin
    rw [hfree] at hrec
    cases hrec
  have hqueued : s'.ready.queued = s.ready.queued.insert (floodId n) := congrArg (·.ready.queued) hcore
  have hself : ∃ rec, s'.requests.find (floodId n) = some rec ∧ isTerminal rec.state = false :=
    ⟨_, (congrArg (fun c => c.requests.find (floodId n)) hcore).trans (Keyed.find_put_self _ _), rfl⟩
  have hother : ∀ id, floodId n ≠ id → s'.requests.find id = s.requests.find id := by
    intro id hne
    rw [show s'.requests = _ from congrArg Core.requests hcore]
    exact Core.find_act_accept hne.symm
  refine ⟨⟨(congrArg Core.cfg hcore).trans h.config, ⟨hdrain.trans h.serving.1, hmode.trans h.serving.2⟩,
    (congrArg (·.pool.workers.records) hcore).trans h.workers, ?_, ?_, ?_, ?_, fun id hid => ?_, fun k hk hk' => ?_⟩, hevents⟩
  · rw [show s'.globalAdmitted = s.globalAdmitted + 1 from congrArg Book.admitted hbook, h.admitted]
    rfl
  · rw [show s'.ready.globalQueued = s.ready.globalQueued + 1 from congrArg (·.ready.globalQueued) hcore, h.queued]
    rfl
  · show (s'.counts ⟨1⟩).admitted = _ ∧ (s'.counts ⟨1⟩).queued = _
    rw [hcounts, Nat.cast_succ]
    exact ⟨congrArg (· + 1) h.tenant.1, congrArg (· + 1) h.tenant.2⟩
  · show s'.ready.queued.elems.length = _
    rw [hqueued, USet.insert, List.length_insert_of_not_mem hnot, h.size]
  · replace hid : id ∈ s'.ready.queued := hid
    rw [hqueued, USet.mem_insert] at hid
    rcases hid with rfl | hid
    · exact hself
    · obtain ⟨rec, hrec, hlive⟩ := h.waits id hid
      exact ⟨rec, (hother id fun heq => hnot (heq ▸ hid)).trans hrec, hlive⟩
  · have hne : floodId n ≠ floodId k := by
      intro heq
      have := congrArg UInt64.toNat (congrArg Id.value heq)
      simp only [floodId, UInt64.toNat_ofNat'] at this
      omega
    exact (hother _ hne).trans (h.free k (by omega) hk')

/-- A queued request that is cancelled gives one event, and the others are left
alone. -/
theorem cancelQueued_frame {id : RequestId} (h : ∃ rec, s.requests.find id = some rec ∧ isTerminal rec.state = false) :
    (Impl.cancelQueued "" s id).eventSeq = s.eventSeq + 1 ∧
      ∀ id', id' ≠ id → (Impl.cancelQueued "" s id).requests.find id' = s.requests.find id' := by
  obtain ⟨rec, hf, ht⟩ := h
  have hid : rec.requestId = id := Keyed.key_of_find hf
  simp only [Impl.cancelQueued, hf, ht, Bool.false_eq_true, ↓reduceIte]
  have henters := Impl.finishCancelled_enters (s := s) .schedulerDrain .invalid "scheduler_drain" ht
  refine ⟨?_, fun id' hne => ?_⟩
  · obtain ⟨notes, hvoiced, hacc⟩ := henters
    obtain ⟨n, rfl, _⟩ := List.map_eq_singleton_iff.1 hvoiced
    exact congrArg Account.seq hacc
  · rw [show (s.finishCancelled _ _ _).requests = _ from congrArg Core.requests henters.core]
    refine Keyed.find_put_ne _ fun heq => hne ?_
    rw [← heq, ← hid]
    exact Core.unworked_requestId ..

/-- `cancel_all_queued` emits as many events as requests wait. -/
theorem cancelAll_eventSeq (h : Flooded n s) : (s.doCancelAllQueued "").eventSeq = s.eventSeq + n := by
  have hfold : ∀ (ids : List RequestId) (s : Impl), ids.Nodup →
      (∀ id ∈ ids, ∃ rec, s.requests.find id = some rec ∧ isTerminal rec.state = false) →
      (ids.foldl (Impl.cancelQueued "") s).eventSeq = s.eventSeq + ids.length := by
    intro ids
    induction ids with
    | nil => exact fun _ _ _ => rfl
    | cons id ids ih =>
      intro s hnodup hall
      obtain ⟨hid, hnodup⟩ := List.nodup_cons.1 hnodup
      obtain ⟨hseq, hother⟩ := cancelQueued_frame (hall id List.mem_cons_self)
      rw [List.foldl_cons, ih _ hnodup, hseq, List.length_cons, Nat.add_right_comm, Nat.add_assoc]
      intro id' hid'
      rw [hother id' fun heq => hid (heq ▸ hid')]
      exact hall id' (List.mem_cons_of_mem _ hid')
  rw [Impl.doCancelAllQueued, hfold _ s s.ready.queued.nodup h.waits, h.size]

end Flooded

/-- The first `n` requests, each submitted by a call of its own. -/
def floodRun (n : ℕ) : List Action :=
  (List.range n).flatMap fun k => loneCall (.op (.submit plainSpec (some (floodId k)))) 2

theorem run_floodRun {s : System} (hs : s.Quiet) (hempty : Flooded 0 s.impl) : ∀ n ≤ 100000,
    callers.Allowed System.Legal s (floodRun n) ∧ (callers.run s (floodRun n)).Quiet ∧
      Flooded n (callers.run s (floodRun n)).impl
  | 0, _ => ⟨trivial, hs, hempty⟩
  | n + 1, hn => by
    obtain ⟨hok, hquiet, hflooded⟩ := run_floodRun hs hempty n (by omega)
    have hsplit : floodRun (n + 1) = floodRun n ++ loneCall (.op (.submit plainSpec (some (floodId n)))) 2 := by
      rw [floodRun, List.range_succ, List.flatMap_append, List.flatMap_singleton]
      rfl
    obtain ⟨hnext, hevents⟩ := hflooded.submit (by omega) hquiet.log
    have hmethod : ServiceOp.isMethod (.op (.submit plainSpec (some (floodId n)))) = true := rfl
    obtain ⟨hok', hquiet', himpl⟩ := hquiet.loneCall hmethod rfl hevents
    rw [hsplit, Machine.allowed_append, Machine.run_append]
    exact ⟨⟨hok, hok'⟩, hquiet', himpl ▸ hnext⟩

/-- More requests than the log holds, submitted one after the other and then
cancelled at once. -/
theorem not_exactlyOnce_of_flood {n k : ℕ} (hn : 65536 < n) (hn' : n ≤ 100000) (hk : k = 65536) :
    let s := System.init floodConfig 0 0x80000001 none
    let acts := floodRun n ++ loneCall (.op (.cancelAllQueued "")) k
    callers.Allowed System.Legal s acts ∧ ¬System.Unflushed acts ∧ (callers.run s acts).Returned ∧
      ¬(callers.run s acts).ExactlyOnce := by
  intro s acts
  obtain ⟨hok, hquiet, hflooded⟩ :=
    run_floodRun (s := s) ⟨fun _ => rfl, rfl, rfl⟩ (.init 0 0x80000001 none) n hn'
  generalize hr : callers.run s (floodRun n) = r at hquiet hflooded
  have hcount : (recoverable.next r.impl (.op (.cancelAllQueued ""))).eventSeq = r.impl.eventSeq + n :=
    hflooded.cancelAll_eventSeq
  have hlength : (recoverable.next r.impl (.op (.cancelAllQueued ""))).eventLog.length = k := by
    obtain ⟨es, hem⟩ := r.impl.serve_emits (.op (.cancelAllQueued ""))
    have hlog := (r.mailbox []).posts_log_length 65536 es
      (by rw [System.mailbox, hquiet.log]; exact Nat.zero_le _)
    rw [Mailbox.posts_log] at hlog
    have hes : 65536 ≤ es.length := by
      have := hem.count
      omega
    rw [hem.log, hk]
    exact hlog.trans (min_eq_left (hes.trans (Nat.le_add_left _ _)))
  have hmethod : ServiceOp.isMethod (.op (.cancelAllQueued "")) = true := rfl
  obtain ⟨hok', hquiet', _⟩ := hquiet.loneCall hmethod rfl hlength
  have hlegal : callers.Allowed System.Legal s acts := Machine.allowed_append.2 ⟨hok, hr ▸ hok'⟩
  have hrun : callers.run s acts = callers.run r (loneCall (.op (.cancelAllQueued "")) k) := by
    rw [Machine.run_append, hr]
  refine ⟨hlegal, ?_, hrun ▸ hquiet'.returned, fun honce => ?_⟩
  · intro h
    obtain ⟨t, w, cap, hmem⟩ := h.mem
    simp [acts, floodRun, loneCall] at hmem
  · obtain ⟨d, htracked, hd⟩ := (System.tracked_init floodConfig 0 0x80000001 none).run hlegal
    have hnil := ((htracked.exactlyOnce_iff (hrun ▸ hquiet'.returned)).1 honce).2
    obtain ⟨_, hroomy, _⟩ := Machine.allowed_append.1 (hd.1 hnil).2
    rw [show callers.run (System.init floodConfig 0 0x80000001 none) (floodRun n) = r from hr] at hroomy
    have hfits : r.impl.eventLog.length +
        ((recoverable.next r.impl (.op (.cancelAllQueued ""))).eventSeq - r.impl.eventSeq) ≤ 65536 := hroomy
    omega

/-- One thread submits 65537 requests, one after the other, and cancels all:
each call flushes, and the last one loses its first event. -/
theorem flood_loses_event :
    let s := System.init floodConfig 0 0x80000001 none
    let acts := floodRun 65537 ++ loneCall (.op (.cancelAllQueued "")) 65536
    callers.Allowed System.Legal s acts ∧ ¬System.Unflushed acts ∧ (callers.run s acts).Returned ∧
      ¬(callers.run s acts).ExactlyOnce :=
  not_exactlyOnce_of_flood (by norm_num) (by norm_num) rfl

end InferenceScheduler
