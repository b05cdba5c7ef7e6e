/-
What `pick_seed` answers. An entry of a flow's heap is alive if a request is
queued behind it under its generation and is not overdue; the head of a flow is
the request of its first live entry. `pick_seed` drops every flow without a
head from the active ones and answers the head of a flow with the least
effective finish of the others.
-/
import InferenceScheduler.Simulation
import Mathlib.Data.List.DropRight
import Mathlib.Data.List.TakeWhile

namespace InferenceScheduler

namespace Core

/-- An entry `pick_seed` does not pop at `now`. -/
def alive (c : Core) (now : ClockTime) (e : ReadyEntry) : Bool :=
  (c.requests.find e.id).any fun r =>
    decide (e.id ∈ c.ready.queued) && r.generation == e.generation &&
      !(r.spec.deadline.valid && r.spec.deadline.expired now)

/-- The first live entry of a flow. -/
def headEntry (c : Core) (now : ClockTime) (k : FlowKey) : Option ReadyEntry :=
  (c.ready.flow k).pending.entries.find? (c.alive now)

/-- The request of the first live entry of a flow. -/
def head (c : Core) (now : ClockTime) (k : FlowKey) : Option RequestRecord :=
  (c.headEntry now k).bind fun e => c.requests.find e.id

/-- What `pick_seed` compares flows by. -/
def effective (c : Core) (now : ClockTime) (k : FlowKey) : ℚ :=
  Impl.effectiveFinish c.cfg (c.ready.flow k) ((c.head now k).getD {}) now

theorem alive_of_headEntry {c : Core} {now : ClockTime} {k : FlowKey} {e : ReadyEntry}
    (h : c.headEntry now k = some e) : c.alive now e = true := List.find?_some h

theorem head_eq {c : Core} {now : ClockTime} {k : FlowKey} {e : ReadyEntry} (h : c.headEntry now k = some e) :
    c.head now k = c.requests.find e.id := by rw [head, h, Option.bind_some]

/-- A live entry has a request. -/
theorem exists_of_alive {c : Core} {now : ClockTime} {e : ReadyEntry} (h : c.alive now e = true) :
    ∃ rec, c.requests.find e.id = some rec ∧ e.id ∈ c.ready.queued ∧ rec.generation = e.generation := by
  obtain ⟨rec, hf, hlive⟩ := Option.any_eq_true _ _ |>.1 h
  simp only [Bool.and_eq_true, decide_eq_true_eq, beq_iff_eq] at hlive
  exact ⟨rec, hf, hlive.1⟩

end Core

/-- Two states between which the choice of `pick_seed` does not change. -/
structure SameHeads (now : ClockTime) (c c' : Core) : Prop where
  config : c'.cfg = c.cfg
  alive : c'.alive now = c.alive now
  record : ∀ e, c.alive now e = true → c'.requests.find e.id = c.requests.find e.id
  entry : ∀ k, c'.headEntry now k = c.headEntry now k
  finish : ∀ k, (c'.ready.flow k).virtualFinish = (c.ready.flow k).virtualFinish
  time : c'.ready.virtualTime = c.ready.virtualTime

namespace SameHeads

variable {now : ClockTime} {c c' c'' : Core}

theorem refl (now : ClockTime) (c : Core) : SameHeads now c c :=
  ⟨rfl, rfl, fun _ _ => rfl, fun _ => rfl, fun _ => rfl, rfl⟩

theorem trans (h : SameHeads now c c') (h' : SameHeads now c' c'') : SameHeads now c c'' where
  config := h'.config.trans h.config
  alive := h'.alive.trans h.alive
  record e he := (h'.record e (h.alive ▸ he)).trans (h.record e he)
  entry k := (h'.entry k).trans (h.entry k)
  finish k := (h'.finish k).trans (h.finish k)
  time := h'.time.trans h.time

theorem head (h : SameHeads now c c') (k : FlowKey) : c'.head now k = c.head now k := by
  cases he : c.headEntry now k with
  | none => rw [Core.head, Core.head, h.entry, he, Option.bind_none, Option.bind_none]
  | some e =>
    rw [Core.head_eq he, Core.head_eq ((h.entry k).trans he)]
    exact h.record e (Core.alive_of_headEntry he)

theorem effective (h : SameHeads now c c') (k : FlowKey) : c'.effective now k = c.effective now k := by
  simp only [Core.effective, Impl.effectiveFinish, h.config, h.head, h.finish]

/-- An overdue request expires. -/
theorem expire {rec : RequestRecord} (hf : c.Holds rec)
    (hover : (rec.spec.deadline.valid && rec.spec.deadline.expired now) = true) :
    SameHeads now c (c.act (.expire rec)) := by
  have hother : ∀ {id}, rec.requestId ≠ id → (c.act (.expire rec)).requests.find id = c.requests.find id :=
    fun hid => Keyed.find_put_ne c.requests (v := rec.expire) hid
  have hrec : ∀ e : ReadyEntry, rec.requestId = e.id → c.alive now e = false := by
    intro e hid
    simp only [Core.alive, ← hid, show c.requests.find rec.requestId = some rec from hf, Option.any_some, hover,
      Bool.not_true, Bool.and_false]
  have halive : (c.act (.expire rec)).alive now = c.alive now := by
    funext e
    by_cases hid : rec.requestId = e.id
    · rw [hrec e hid]
      have hself : (c.act (.expire rec)).requests.find e.id = some rec.expire :=
        hid ▸ Keyed.find_put_self c.requests rec.expire
      have hover' : (rec.expire.spec.deadline.valid && rec.expire.spec.deadline.expired now) = true := hover
      simp only [Core.alive, hself, Option.any_some, hover', Bool.not_true, Bool.and_false]
    · simp only [Core.alive, hother hid]
      simp only [Core.act, Core.put, Ready.dequeue, USet.mem_erase, Ne.symm hid, ne_eq, not_false_eq_true, true_and]
  refine ⟨rfl, halive, fun e he => ?_, fun k => ?_, fun k => rfl, rfl⟩
  · refine hother fun hid => ?_
    rw [hrec e hid] at he
    cases he
  · rw [Core.headEntry, halive]
    rfl

end SameHeads

namespace Impl

variable {now : ClockTime}

theorem sameHeads_expireRequest {s : Impl} {rec : RequestRecord} (hf : s.core.Holds rec)
    (hover : (rec.spec.deadline.valid && rec.spec.deadline.expired now) = true) :
    SameHeads now s.core (s.expireRequest rec).core := by
  by_cases hq : rec.state = .queued
  · rw [(expireRequest_enters hq).core]
    exact .expire hf hover
  · rw [expireRequest, if_pos hq]
    exact .refl now s.core

theorem expireRequest_activeFlows (s : Impl) (rec : RequestRecord) :
    (s.expireRequest rec).ready.activeFlows = s.ready.activeFlows := by
  unfold expireRequest
  split
  · rfl
  · simp only
    split <;> rfl

/-- The inner loop of `pick_seed` stops at the first live entry. -/
theorem popDead_spec (now : ClockTime) : ∀ (es : List ReadyEntry) (s : Impl),
    es.drop (popDead now es s).1 = es.dropWhile (fun e => !s.core.alive now e) ∧
      SameHeads now s.core (popDead now es s).2.core ∧
      (popDead now es s).2.ready.activeFlows = s.ready.activeFlows
  | [], s => ⟨rfl, .refl now s.core, rfl⟩
  | e :: es, s => by
    have hskip : s.core.alive now e = false → (popDead now es s).1 + 1 = (popDead now (e :: es) s).1 →
        (popDead now es s).2 = (popDead now (e :: es) s).2 →
        (e :: es).drop (popDead now (e :: es) s).1 = (e :: es).dropWhile (fun e => !s.core.alive now e) ∧
          SameHeads now s.core (popDead now (e :: es) s).2.core ∧
          (popDead now (e :: es) s).2.ready.activeFlows = s.ready.activeFlows := by
      intro hdead hn hs
      rw [← hn, ← hs, List.dropWhile_cons_of_pos (by simp [hdead])]
      exact popDead_spec now es s
    cases hf : s.requests.find e.id with
    | none =>
      refine hskip ?_ ?_ ?_
      · simp only [Core.alive, show s.core.requests.find e.id = none from hf, Option.any_none]
      · simp only [popDead, hf]
      · simp only [popDead, hf]
    | some r =>
      have hr : s.core.requests.find e.id = some r := hf
      by_cases hd : e.id ∉ s.ready.queued ∨ r.generation ≠ e.generation
      · refine hskip ?_ ?_ ?_
        · rcases hd with hq | hg
          · simp [Core.alive, hr, show e.id ∉ s.core.ready.queued from hq]
          · simp [Core.alive, hr, hg]
        · simp only [popDead, hf, if_pos hd]
        · simp only [popDead, hf, if_pos hd]
      · cases hover : r.spec.deadline.valid && r.spec.deadline.expired now with
        | true =>
          have hdead : s.core.alive now e = false := by
            simp only [Core.alive, hr, Option.any_some, hover, Bool.not_true, Bool.and_false]
          have hsame := sameHeads_expireRequest (Keyed.find_key hr) hover
          obtain ⟨hn, hs, ha⟩ := popDead_spec now es (s.expireRequest r)
          simp only [popDead, hf, if_neg hd, hover, if_true]
          refine ⟨?_, hsame.trans hs, ha.trans (s.expireRequest_activeFlows r)⟩
          rw [List.drop_succ_cons, hn, hsame.alive, List.dropWhile_cons_of_pos (by simp [hdead])]
        | false =>
          have hlive : s.core.alive now e = true := by
            simp only [not_or, not_not] at hd
            simp only [Core.alive, hr, Option.any_some, hover, hd.2, show e.id ∈ s.core.ready.queued from hd.1,
              decide_true, beq_self_eq_true, Bool.not_false, Bool.and_self]
          simp only [popDead, hf, if_neg hd, hover, Bool.false_eq_true, if_false]
          exact ⟨by rw [List.drop_zero, List.dropWhile_cons_of_neg (by simp [hlive])], .refl now s.core, trivial⟩

/-- The state of `pick_seed` once the heap of a flow starts with a live entry. -/
def pruned (s : Impl) (now : ClockTime) (k : FlowKey) : Impl :=
  let popped := popDead now (s.ready.flow k).pending.entries s
  popped.2.setFlow k { s.ready.flow k with pending := (s.ready.flow k).pending.popN popped.1 }

section pruned

variable (now : ClockTime) (s : Impl) (k : FlowKey)

theorem pruned_activeFlows : (s.pruned now k).ready.activeFlows = s.ready.activeFlows :=
  (popDead_spec now _ s).2.2

theorem pruned_flow_of_ne {j : FlowKey} (h : k ≠ j) : (s.pruned now k).ready.flow j = s.ready.flow j := by
  simp only [Ready.flow, pruned, setFlow, Table.lookup_insert_eq, if_neg h, popDead_flows]

theorem pruned_flow_self : (s.pruned now k).ready.flow k =
    { s.ready.flow k with
      pending := (s.ready.flow k).pending.popN (popDead now (s.ready.flow k).pending.entries s).1 } := by
  simp only [Ready.flow, pruned, setFlow, Table.lookup_insert_eq, if_true, Option.getD_some]

theorem pruned_entries : ((s.pruned now k).ready.flow k).pending.entries =
    (s.ready.flow k).pending.entries.dropWhile fun e => !s.core.alive now e := by
  rw [pruned_flow_self]
  exact (popDead_spec now _ s).1

theorem pruned_top : ((s.pruned now k).ready.flow k).pending.top? = s.core.headEntry now k := by
  rw [Heap.top?, pruned_entries, ← List.find?_eq_head?_dropWhile_not]
  rfl

theorem sameHeads_pruned : SameHeads now s.core (s.pruned now k).core := by
  have hsame := (popDead_spec now (s.ready.flow k).pending.entries s).2.1
  have halive : (s.pruned now k).core.alive now = s.core.alive now := hsame.alive
  refine ⟨hsame.config, halive, hsame.record, fun j => ?_, fun j => ?_, hsame.time⟩
  · show ((s.pruned now k).ready.flow j).pending.entries.find? _ = _
    rw [halive]
    by_cases hj : k = j
    · subst hj
      rw [pruned_entries, List.find?_eq_head?_dropWhile_not, List.dropWhile_idempotent,
        ← List.find?_eq_head?_dropWhile_not]
      rfl
    · rw [pruned_flow_of_ne now s k hj]
      rfl
  · show ((s.pruned now k).ready.flow j).virtualFinish = _
    by_cases hj : k = j
    · subst hj
      rw [pruned_flow_self]
      rfl
    · rw [pruned_flow_of_ne now s k hj]
      rfl

end pruned

/-- One round of `pick_seed`: a flow without a live entry falls asleep, and
another is compared with the best so far. -/
theorem pickStep_eq (s : Impl) (best : Option (FlowKey × ℚ)) (k : FlowKey) :
    pickStep now (s, best) k =
      match s.core.headEntry now k with
      | none => ((s.pruned now k).deactivate k, best)
      | some _ => (s.pruned now k, match best with
        | none => some (k, s.core.effective now k)
        | some b => if s.core.effective now k < b.2 ∨ s.core.effective now k = b.2 ∧ k.lt b.1
            then some (k, s.core.effective now k) else best) := by
  have htop := s.pruned_top now k
  have heff : ∀ e, s.core.headEntry now k = some e → effectiveFinish (s.pruned now k).cfg
      { s.ready.flow k with
        pending := (s.ready.flow k).pending.popN (popDead now (s.ready.flow k).pending.entries s).1 }
      (((s.pruned now k).requests.find e.id).getD {}) now = s.core.effective now k := by
    intro e he
    have hsame := s.sameHeads_pruned now k
    rw [← hsame.effective k, Core.effective, Core.head_eq ((hsame.entry k).trans he), ← pruned_flow_self]
    rfl
  rw [pruned_flow_self] at htop
  unfold pickStep
  simp only [htop]
  cases he : s.core.headEntry now k with
  | none => rfl
  | some e =>
    have heff := heff e he
    simp only [pruned] at heff ⊢
    simp only [heff]
    cases best with
    | none => rfl
    | some b =>
      simp only
      split <;> rfl

end Impl

/-- A flow with a live entry and the least effective finish of such flows. -/
structure Best (now : ClockTime) (c : Core) (ks : List FlowKey) (b : FlowKey × ℚ) : Prop where
  mem : b.1 ∈ ks
  live : c.headEntry now b.1 ≠ none
  finish : b.2 = c.effective now b.1
  least : ∀ k ∈ ks, c.headEntry now k ≠ none → b.2 ≤ c.effective now k

namespace Best

variable {now : ClockTime} {c : Core} {ks : List FlowKey} {b : FlowKey × ℚ} {k : FlowKey}

/-- The best flow so far stays the best. -/
theorem keep (h : Best now c ks b) (hk : c.headEntry now k ≠ none → b.2 ≤ c.effective now k) :
    Best now c (ks ++ [k]) b := by
  refine ⟨List.mem_append_left _ h.mem, h.live, h.finish, fun j hj hlive => ?_⟩
  rcases List.mem_append.1 hj with hj | hj
  · exact h.least j hj hlive
  · obtain rfl := List.mem_singleton.1 hj
    exact hk hlive

/-- The next flow is the best. -/
theorem new (hk : c.headEntry now k ≠ none)
    (hks : ∀ j ∈ ks, c.headEntry now j ≠ none → c.effective now k ≤ c.effective now j) :
    Best now c (ks ++ [k]) (k, c.effective now k) := by
  refine ⟨by simp, hk, rfl, fun j hj hlive => ?_⟩
  rcases List.mem_append.1 hj with hj | hj
  · exact hks j hj hlive
  · exact (List.mem_singleton.1 hj) ▸ le_refl _

end Best

/-- Where the loop of `pick_seed` stands after the flows `ks`. -/
structure Picked (now : ClockTime) (s : Impl) (ks : List FlowKey) (acc : Impl × Option (FlowKey × ℚ)) : Prop where
  heads : SameHeads now s.core acc.1.core
  active : ∀ j, j ∈ acc.1.ready.activeFlows ↔ j ∈ s.ready.activeFlows ∧ (j ∈ ks → s.core.headEntry now j ≠ none)
  idle : acc.2 = none → ∀ k ∈ ks, s.core.headEntry now k = none
  best : ∀ b ∈ acc.2, Best now s.core ks b ∧ (acc.1.ready.flow b.1).pending.top? = s.core.headEntry now b.1

namespace Impl

variable {now : ClockTime}

theorem picked_step {s : Impl} {ks : List FlowKey} {acc : Impl × Option (FlowKey × ℚ)} {k : FlowKey}
    (h : Picked now s ks acc) (hk : k ∉ ks) : Picked now s (ks ++ [k]) (pickStep now acc k) := by
  obtain ⟨t, best⟩ := acc
  have hentry := h.heads.entry k
  have hheads := h.heads.trans (t.sameHeads_pruned now k)
  have heff := h.heads.effective k
  -- The best flow so far is another one, so its heap stays.
  have hold : ∀ b ∈ best, ((t.pruned now k).ready.flow b.1).pending.top? = s.core.headEntry now b.1 := by
    intro b hb
    obtain ⟨hbest, htop⟩ := h.best b hb
    rw [pruned_flow_of_ne now t k fun he => hk (he ▸ hbest.mem)]
    exact htop
  have hself := (t.pruned_top now k).trans hentry
  rw [pickStep_eq, hentry]
  cases he : s.core.headEntry now k with
  | none =>
    refine ⟨⟨hheads.config, hheads.alive, hheads.record, hheads.entry, hheads.finish, hheads.time⟩, fun j => ?_,
      fun hb j hj => ?_, fun b hb => ?_⟩
    · have hactive : ((t.pruned now k).deactivate k).ready.activeFlows = t.ready.activeFlows.erase k := by
        rw [← t.pruned_activeFlows now k]
        rfl
      rw [hactive, USet.mem_erase, h.active j, List.mem_append, List.mem_singleton]
      by_cases hjk : j = k
      · subst hjk
        simp [he]
      · simp [hjk]
    · rcases List.mem_append.1 hj with hj | hj
      · exact h.idle hb j hj
      · exact List.mem_singleton.1 hj ▸ he
    · exact ⟨(h.best b hb).1.keep fun hlive => absurd he hlive, hold b hb⟩
  | some e =>
    have hlive : s.core.headEntry now k ≠ none := by simp [he]
    have hactive : ∀ j, j ∈ (t.pruned now k).ready.activeFlows ↔
        j ∈ s.ready.activeFlows ∧ (j ∈ ks ++ [k] → s.core.headEntry now j ≠ none) := by
      intro j
      rw [t.pruned_activeFlows, h.active j, List.mem_append, List.mem_singleton]
      by_cases hjk : j = k
      · subst hjk
        simp [he, hk]
      · simp [hjk]
    simp only [heff]
    cases best with
    | none =>
      refine ⟨hheads, hactive, by simp, fun b hb => ?_⟩
      obtain rfl := Option.some.inj hb
      exact ⟨.new hlive fun j hj hj' => absurd (h.idle rfl j hj) hj', hself⟩
    | some b₀ =>
      obtain ⟨hbest, _⟩ := h.best b₀ rfl
      by_cases hless : s.core.effective now k < b₀.2 ∨ s.core.effective now k = b₀.2 ∧ k.lt b₀.1
      · have hle : s.core.effective now k ≤ b₀.2 := hless.elim le_of_lt fun h => h.1.le
        simp only [if_pos hless]
        refine ⟨hheads, hactive, by simp, fun b hb => ?_⟩
        obtain rfl := Option.some.inj hb
        exact ⟨.new hlive fun j hj hj' => hle.trans (hbest.least j hj hj'), hself⟩
      · have hle : b₀.2 ≤ s.core.effective now k := not_lt.1 fun hlt => hless (.inl hlt)
        simp only [if_neg hless]
        refine ⟨hheads, hactive, by simp, fun b hb => ?_⟩
        obtain rfl := Option.some.inj hb
        exact ⟨hbest.keep fun _ => hle, hold b₀ rfl⟩

theorem picked_foldl (now : ClockTime) (s : Impl) {ks : List FlowKey} (hks : ks.Nodup) :
    Picked now s ks (ks.foldl (pickStep now) (s, none)) := by
  induction ks using List.reverseRecOn with
  | nil => exact ⟨.refl now s.core, by simp, by simp, by simp⟩
  | append_singleton ks k ih =>
    obtain ⟨hks, _, hk⟩ := List.nodup_append.1 hks
    rw [List.foldl_append]
    exact picked_step (ih hks) fun hmem => hk k hmem k (by simp) rfl

/-- **The choice of the seed.** `pick_seed` changes no head and no virtual
finish; the flows left active are those with a head; the answer is the head of
one with the least effective finish, and there is none only if no active flow
has a head. -/
theorem pickSeed_spec (s : Impl) (now : ClockTime) :
    SameHeads now s.core (s.pickSeed now).1.core ∧
      (∀ j, j ∈ (s.pickSeed now).1.ready.activeFlows ↔
        j ∈ s.ready.activeFlows ∧ s.core.headEntry now j ≠ none) ∧
      ((s.pickSeed now).2 = none → ∀ k ∈ s.ready.activeFlows, s.core.headEntry now k = none) ∧
      ∀ id ∈ (s.pickSeed now).2, ∃ k e, k ∈ (s.pickSeed now).1.ready.activeFlows ∧
        s.core.headEntry now k = some e ∧ e.id = id ∧
        ((s.pickSeed now).1.ready.flow k).pending.top? = some e ∧
        ∀ j ∈ (s.pickSeed now).1.ready.activeFlows, s.core.effective now k ≤ s.core.effective now j := by
  set ks := s.ready.activeFlows.elems.insertionSort FlowKey.le with hks
  have hmem : ∀ j, j ∈ ks ↔ j ∈ s.ready.activeFlows := fun j => List.mem_insertionSort _
  have h := picked_foldl now s
    ((List.perm_insertionSort FlowKey.le _).nodup_iff.2 s.ready.activeFlows.nodup)
  rw [← hks] at h
  have hactive : ∀ j, j ∈ (ks.foldl (pickStep now) (s, none)).1.ready.activeFlows ↔
      j ∈ s.ready.activeFlows ∧ s.core.headEntry now j ≠ none := by
    intro j
    rw [h.active j, hmem]
    tauto
  unfold pickSeed
  simp only [← hks]
  split
  · next hb =>
    exact ⟨h.heads, hactive, fun _ k hk => h.idle hb k ((hmem k).2 hk), by simp⟩
  · next best bf hb =>
    obtain ⟨hbest, htop⟩ := h.best (best, bf) hb
    obtain ⟨e, he⟩ := Option.ne_none_iff_exists'.1 hbest.live
    simp only [htop, he, Option.map_some]
    refine ⟨h.heads, hactive, by simp, fun id hid => ?_⟩
    obtain rfl := Option.some.inj hid
    refine ⟨best, e, (hactive best).2 ⟨(hmem best).1 hbest.mem, hbest.live⟩, he, rfl, htop.trans he, fun j hj => ?_⟩
    obtain ⟨hj, hlive⟩ := (hactive j).1 hj
    exact hbest.finish ▸ hbest.least j ((hmem j).2 hj) hlive

/-- The expiry scan changes no head: it expires requests that are overdue. -/
theorem expireScan_heads (s : Impl) (now : ClockTime) :
    SameHeads now s.core (s.expireScan now).core ∧ (s.expireScan now).ready.activeFlows = s.ready.activeFlows :=
  Expiring.invariant (I := fun c => SameHeads now s.core c ∧ c.ready.activeFlows = s.ready.activeFlows)
    (fun _ _ hen hlate h => ⟨h.1.trans (.expire hen.1 hlate), h.2⟩) (expireScan_effects s now) ⟨.refl now s.core, rfl⟩

/-- The same for the first critical section of `do_plan_next`. -/
theorem planNextSeed_spec (s : Impl) :
    SameHeads s.now s.core s.planNextSeed.1.core ∧
      (∀ j, j ∈ s.planNextSeed.1.ready.activeFlows ↔ j ∈ s.ready.activeFlows ∧ s.core.headEntry s.now j ≠ none) ∧
      (s.planNextSeed.2 = none → ∀ k ∈ s.ready.activeFlows, s.core.headEntry s.now k = none) ∧
      ∀ id ∈ s.planNextSeed.2, ∃ k e, k ∈ s.planNextSeed.1.ready.activeFlows ∧
        s.core.headEntry s.now k = some e ∧ e.id = id ∧
        (s.planNextSeed.1.ready.flow k).pending.top? = some e ∧
        ∀ j ∈ s.planNextSeed.1.ready.activeFlows, s.core.effective s.now k ≤ s.core.effective s.now j := by
  obtain ⟨hscan, hactive⟩ := s.expireScan_heads s.now
  have hpick := (s.expireScan s.now).pickSeed_spec s.now
  simp only [hscan.entry, hscan.effective, hactive] at hpick
  exact ⟨hscan.trans hpick.1, hpick.2⟩

/-! ## When no request is overdue -/

section idle

variable {s : Impl} (h : ∀ r rec, s.requests.find r = some rec →
  (rec.spec.deadline.valid && rec.spec.deadline.expired now) = false)

include h

theorem expireScan_idle : s.expireScan now = s := by
  have hnone : s.ready.queued.elems.filter (s.overdue now) = [] := by
    refine List.filter_eq_nil_iff.2 fun id _ => ?_
    cases hf : s.requests.find id with
    | none => simp [overdue, hf]
    | some rec =>
      have hrec := h id rec hf
      simp only [overdue, hf, Bool.and_assoc, hrec, Bool.and_false, Bool.false_eq_true, not_false_eq_true]
  rw [expireScan, hnone, List.foldl_nil]

theorem popDead_idle : ∀ es : List ReadyEntry, (popDead now es s).2 = s
  | [] => rfl
  | e :: es => by
    unfold popDead
    split
    · exact popDead_idle es
    · next r hf =>
      split
      · exact popDead_idle es
      · rw [h e.id r hf, if_neg (by simp)]

end idle

/-- Two states that differ in the flows only. -/
def SameButFlows (s s' : Impl) : Prop :=
  ∃ flows active, s' = { s with ready := { s.ready with flows := flows, activeFlows := active } }

theorem pickSeed_idle {s : Impl} (h : ∀ r rec, s.requests.find r = some rec →
    (rec.spec.deadline.valid && rec.spec.deadline.expired now) = false) : SameButFlows s (s.pickSeed now).1 := by
  have hfold : ∀ (ks : List FlowKey) (acc : Impl × Option (FlowKey × ℚ)), SameButFlows s acc.1 →
      SameButFlows s (ks.foldl (pickStep now) acc).1 := by
    intro ks
    induction ks with
    | nil => exact fun acc hacc => hacc
    | cons k ks ih =>
      intro acc hacc
      refine ih _ ?_
      obtain ⟨t, best⟩ := acc
      obtain ⟨flows, active, ht⟩ := hacc
      have hreq : t.requests = s.requests := (congrArg Impl.requests ht).trans rfl
      have hpruned : SameButFlows s (t.pruned now k) := by
        simp only [pruned, popDead_idle (s := t) (hreq ▸ h)]
        exact ⟨_, active, by rw [show t = _ from ht]; rfl⟩
      rw [pickStep_eq]
      split
      · obtain ⟨flows', active', he⟩ := hpruned
        rw [he]
        exact ⟨flows', _, rfl⟩
      · exact hpruned
  have hloop := hfold (s.ready.activeFlows.elems.insertionSort FlowKey.le) (s, none)
    ⟨s.ready.flows, s.ready.activeFlows, rfl⟩
  unfold pickSeed
  simp only
  split <;> exact hloop

/-- Then the choice of a seed changes nothing but the flows. -/
theorem planNextSeed_idle {s : Impl} (h : ∀ r rec, s.requests.find r = some rec →
    (rec.spec.deadline.valid && rec.spec.deadline.expired s.now) = false) :
    SameButFlows s s.planNextSeed.1 := by
  rw [planNextSeed, expireScan_idle h]
  exact pickSeed_idle h

end Impl

end InferenceScheduler
