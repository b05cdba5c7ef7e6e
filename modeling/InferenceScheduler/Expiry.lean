/-
What choosing a seed changes. `pick_seed` expires overdue requests it meets,
pops dead entries off the heaps and drops flows whose heap is then empty. Taken
together, that is `expire_request` on some overdue queued requests, thinner
heaps, and nothing else of the whole state (`Tidied`).
-/
import InferenceScheduler.Lapse

namespace InferenceScheduler

/-! ## Requests expired in a row -/

namespace Impl

/-- `expire_request` on one request after the other. -/
def expireAll (s : Impl) (ids : List RequestId) : Impl := ids.foldl expireId s

/-- Write the heaps and the set of active flows. -/
def withFlows (s : Impl) (flows : Table FlowKey Flow) (active : USet FlowKey) : Impl :=
  { s with ready := { s.ready with flows := flows, activeFlows := active } }

variable {now : ClockTime} {s : Impl}

theorem expireAll_append (s : Impl) (ids ids' : List RequestId) :
    s.expireAll (ids ++ ids') = (s.expireAll ids).expireAll ids' := List.foldl_append

/-- `expire_request` on a queued request, but for the event. -/
def expireQueued (s : Impl) (rec : RequestRecord) : Impl :=
  { s with
    requests := s.requests.put rec.expire
    ready := s.ready.dequeue s.cfg rec
    tenants := ((s.dequeueRequest rec).onTenant rec.spec.tenant fun t => { t with admitted := decPos t.admitted }).tenants
    globalAdmitted := decPos s.globalAdmitted
    stats := { s.stats with requestsExpired := s.stats.requestsExpired + 1 } }

theorem expireRequest_eq (s : Impl) {rec : RequestRecord} (hq : rec.state = .queued) :
    s.expireRequest rec =
      if s.cfg.batch.maxWait ≥ 0 ∧ rec.spec.deadline.valid then
        (s.expireQueued rec).emitEvent "expired" rec.requestId rec.currentAttempt .invalid .invalid "deadline_expired"
      else s.expireQueued rec :=
  if_neg (not_not.2 hq)

theorem expireRequest_withFlows (s : Impl) (flows : Table FlowKey Flow) (active : USet FlowKey) (rec : RequestRecord) :
    (s.withFlows flows active).expireRequest rec = (s.expireRequest rec).withFlows flows active := by
  by_cases hq : rec.state = .queued
  · rw [expireRequest_eq _ hq, expireRequest_eq _ hq, show (s.withFlows flows active).cfg = s.cfg from rfl]
    split <;> rfl
  · rw [expireRequest, if_pos hq, expireRequest, if_pos hq]

theorem expireAll_withFlows (ids : List RequestId) (s : Impl) (flows : Table FlowKey Flow) (active : USet FlowKey) :
    (s.withFlows flows active).expireAll ids = (s.expireAll ids).withFlows flows active := by
  induction ids generalizing s with
  | nil => rfl
  | cons id ids ih =>
    have hstep : (s.withFlows flows active).expireId id = (s.expireId id).withFlows flows active := by
      unfold expireId
      rw [show (s.withFlows flows active).requests = s.requests from rfl]
      split
      · rfl
      · exact s.expireRequest_withFlows flows active _
    show ((s.withFlows flows active).expireId id).expireAll ids = _
    rw [hstep, ih]
    rfl

theorem find_expireId (s : Impl) (id r : RequestId) : (s.expireId id).requests.find r =
    if id = r then (s.requests.find r).map fun rec => if rec.state = .queued then rec.expire else rec
    else s.requests.find r := by
  unfold expireId
  split
  · next hf =>
    split
    · next he => rw [← he, hf]; rfl
    · rfl
  · next rec hf =>
    have hid : rec.requestId = id := Keyed.key_of_find hf
    by_cases hq : rec.state = .queued
    · have hcore : (s.expireRequest rec).core = s.core.act (.expire rec) := (expireRequest_enters hq).core
      have hput : (s.expireRequest rec).requests.find r = if id = r then some rec.expire else s.requests.find r := by
        rw [← hid, show (s.expireRequest rec).requests = (s.core.act (.expire rec)).requests by rw [← hcore]; rfl]
        exact Keyed.find_put s.requests rec.expire r
      rw [hput]
      split
      · next he => rw [← he, hf, Option.map_some, if_pos hq]
      · rfl
    · rw [expireRequest, if_pos hq]
      split
      · next he => rw [← he, hf, Option.map_some, if_neg hq]
      · rfl

theorem find_expireAll (ids : List RequestId) (s : Impl) (r : RequestId) : (s.expireAll ids).requests.find r =
    if r ∈ ids then (s.requests.find r).map fun rec => if rec.state = .queued then rec.expire else rec
    else s.requests.find r := by
  induction ids generalizing s with
  | nil => rw [if_neg List.not_mem_nil]; rfl
  | cons id ids ih =>
    rw [show s.expireAll (id :: ids) = (s.expireId id).expireAll ids from rfl, ih, find_expireId]
    by_cases hid : id = r
    · subst hid
      simp only [List.mem_cons_self, ↓reduceIte, Option.map_map]
      -- An expired request stays as it is.
      split
      · cases s.requests.find id with
        | none => rfl
        | some rec =>
          simp only [Option.map_some, Function.comp_apply, Option.some.injEq]
          by_cases hq : rec.state = .queued
          · simp only [hq, ↓reduceIte, RequestRecord.expire, reduceCtorEq]
          · simp only [hq, ↓reduceIte]
      · rfl
    · simp only [List.mem_cons, hid, Ne.symm hid, ↓reduceIte, false_or]

end Impl

/-! ## Thinner heaps -/

/-- The heaps of `q'` are those of `q` without their first entries, which are
dead, and a flow that is no longer active has an empty heap. -/
structure Thinned (dead : ReadyEntry → Prop) (q q' : Ready) : Prop where
  flow : ∀ k, ∃ n, q'.flow k = { q.flow k with pending := (q.flow k).pending.popN n } ∧
    ∀ e ∈ (q.flow k).pending.entries.take n, dead e
  active : ∀ k ∈ q'.activeFlows, k ∈ q.activeFlows
  drained : ∀ k ∈ q.activeFlows, k ∉ q'.activeFlows → (q'.flow k).pending.entries = []

namespace Thinned

variable {dead : ReadyEntry → Prop} {q q' q'' : Ready}

theorem refl (dead : ReadyEntry → Prop) (q : Ready) : Thinned dead q q :=
  ⟨fun k => ⟨0, rfl, by simp⟩, fun _ hk => hk, fun k hk hnot => absurd hk hnot⟩

theorem of_eq (hflows : q'.flows = q.flows) (hactive : q'.activeFlows = q.activeFlows) : Thinned dead q q' := by
  refine ⟨fun k => ⟨0, by rw [Ready.flow, hflows]; rfl, by simp⟩, fun k hk => hactive ▸ hk, fun k hk hnot => ?_⟩
  rw [hactive] at hnot
  exact absurd hk hnot

theorem trans (h : Thinned dead q q') (h' : Thinned dead q' q'') : Thinned dead q q'' := by
  refine ⟨fun k => ?_, fun k hk => h.active k (h'.active k hk), fun k hk hnot => ?_⟩
  · obtain ⟨m, hm, hdead⟩ := h.flow k
    obtain ⟨n, hn, hdead'⟩ := h'.flow k
    rw [hm] at hn hdead'
    refine ⟨m + n, ?_, fun e he => ?_⟩
    · rw [hn]
      simp only [Heap.popN, List.drop_drop]
    · rw [List.take_add, List.mem_append] at he
      exact he.elim (hdead e) (hdead' e)
  · by_cases hk' : k ∈ q'.activeFlows
    · exact h'.drained k hk' hnot
    · obtain ⟨n, hn, _⟩ := h'.flow k
      rw [hn]
      show List.drop n (q'.flow k).pending.entries = []
      rw [h.drained k hk hk', List.drop_nil]

end Thinned

/-- `s'` is `s` once the requests `ids`, queued and overdue at `now`, have
expired and some dead entries and drained flows are gone. -/
structure Tidied (now : ClockTime) (s : Impl) (ids : List RequestId) (s' : Impl) : Prop where
  nodup : ids.Nodup
  overdue : ∀ id ∈ ids, ∃ rec, s.core.Waits id rec ∧ rec.spec.deadline.expired now = true
  state : s' = (s.expireAll ids).withFlows s'.ready.flows s'.ready.activeFlows
  ready : Thinned (fun e => s.core.alive now e = false) s.ready s'.ready

namespace Tidied

variable {now : ClockTime} {s s' s'' : Impl} {ids ids' : List RequestId}

theorem refl (now : ClockTime) (s : Impl) : Tidied now s [] s :=
  ⟨List.nodup_nil, by simp, rfl, .refl _ _⟩

theorem find (h : Tidied now s ids s') (r : RequestId) : s'.requests.find r =
    if r ∈ ids then (s.requests.find r).map fun rec => if rec.state = .queued then rec.expire else rec
    else s.requests.find r := by
  rw [h.state]
  exact Impl.find_expireAll ids s r

theorem alive (h : Tidied now s ids s') : s'.core.alive now = s.core.alive now := by
  have hsame : SameHeads now s.core (s.expireAll ids).core := by
    refine Impl.Expiring.invariant (I := SameHeads now s.core) (fun _ _ hen hlate h => h.trans (.expire hen.1 hlate))
      (Impl.foldl_expireId_effects s h.nodup fun id hid rec hf => ?_) (.refl now s.core)
    obtain ⟨rec', hwaits, hexp⟩ := h.overdue id hid
    obtain rfl := Option.some.inj (hf.symm.trans hwaits.1)
    rw [Deadline.valid_of_expired hexp, hexp, Bool.and_self]
  rw [h.state]
  exact hsame.alive

theorem trans (h : Tidied now s ids s') (h' : Tidied now s' ids' s'') : Tidied now s (ids ++ ids') s'' := by
  -- What waits in `s'` waited and is not among those that have expired.
  have hwaits : ∀ id rec, s'.core.Waits id rec → s.core.Waits id rec ∧ id ∉ ids := by
    intro id rec hr
    have hf : s'.requests.find id = some rec := hr.1
    rw [h.find] at hf
    split at hf
    · obtain ⟨old, _, rfl⟩ := Option.map_eq_some_iff.1 hf
      have hstate := hr.2
      split at hstate
      · cases hstate
      · next hq => exact absurd hstate hq
    · next hnot => exact ⟨⟨hf, hr.2⟩, hnot⟩
  refine ⟨h.nodup.append h'.nodup fun id hid hid' => ?_, fun id hid => ?_, ?_, ?_⟩
  · obtain ⟨rec, hr, _⟩ := h'.overdue id hid'
    exact (hwaits id rec hr).2 hid
  · rcases List.mem_append.1 hid with hid | hid
    · exact h.overdue id hid
    · obtain ⟨rec, hr, hexp⟩ := h'.overdue id hid
      exact ⟨rec, (hwaits id rec hr).1, hexp⟩
  · rw [Impl.expireAll_append]
    calc s'' = (s'.expireAll ids').withFlows s''.ready.flows s''.ready.activeFlows := h'.state
      _ = _ := by rw [h.state, Impl.expireAll_withFlows]; rfl
  · have hready := h'.ready
    rw [h.alive] at hready
    exact h.ready.trans hready

theorem withFlows (h : Tidied now s ids s') (flows : Table FlowKey Flow) (active : USet FlowKey)
    (hready : Thinned (fun e => s.core.alive now e = false) s.ready (s'.withFlows flows active).ready) :
    Tidied now s ids (s'.withFlows flows active) := by
  refine ⟨h.nodup, h.overdue, ?_, hready⟩
  conv_lhs => rw [h.state]
  rfl

end Tidied

/-! ## Choosing a seed -/

namespace Impl

variable {now : ClockTime}

theorem tidied_expireRequest {s : Impl} {rec : RequestRecord} (hf : s.core.Holds rec)
    (hexp : rec.spec.deadline.expired now = true) : ∃ ids, Tidied now s ids (s.expireRequest rec) := by
  by_cases hq : rec.state = .queued
  · refine ⟨[rec.requestId], List.nodup_singleton _, fun id hid => ?_, ?_,
      .of_eq (expireRequest_flows s rec) (s.expireRequest_activeFlows rec)⟩
    · obtain rfl := List.mem_singleton.1 hid
      exact ⟨rec, ⟨hf, hq⟩, hexp⟩
    · have hstep : s.expireAll [rec.requestId] = s.expireRequest rec := by
        show s.expireId rec.requestId = _
        rw [expireId, show s.requests.find rec.requestId = some rec from hf]
      rw [hstep]
      rfl
  · rw [expireRequest, if_pos hq]
    exact ⟨[], .refl now s⟩

theorem tidied_popDead (now : ClockTime) (es : List ReadyEntry) (s : Impl) :
    ∃ ids, Tidied now s ids (popDead now es s).2 := by
  fun_induction popDead now es s with
  | case1 s => exact ⟨[], .refl now s⟩
  | case2 _ _ _ _ _ ih => exact ih
  | case3 _ _ _ _ _ _ _ ih => exact ih
  | case4 e es s r hf _ hover _ ih =>
    obtain ⟨ids, hexpire⟩ := tidied_expireRequest (Keyed.find_key hf) (Bool.and_eq_true_iff.1 hover).2
    obtain ⟨ids', hrest⟩ := ih
    exact ⟨ids ++ ids', hexpire.trans hrest⟩
  | case5 _ _ s => exact ⟨[], .refl now s⟩

/-- What the inner loop pops is dead. -/
theorem dead_of_popDead {s : Impl} {es : List ReadyEntry} {e : ReadyEntry}
    (he : e ∈ es.take (popDead now es s).1) : s.core.alive now e = false := by
  have hdrop := (popDead_spec now es s).1
  have htake : es.take (popDead now es s).1 = es.takeWhile fun e => !s.core.alive now e := by
    have hsplit : es.take (popDead now es s).1 ++ es.drop (popDead now es s).1 =
        (es.takeWhile fun e => !s.core.alive now e) ++ es.drop (popDead now es s).1 := by
      rw [List.take_append_drop, hdrop, List.takeWhile_append_dropWhile]
    exact List.append_cancel_right hsplit
  rw [htake] at he
  simpa using List.mem_takeWhile_imp he

theorem tidied_pruned (s : Impl) (now : ClockTime) (k : FlowKey) : ∃ ids, Tidied now s ids (s.pruned now k) := by
  obtain ⟨ids, h⟩ := tidied_popDead now (s.ready.flow k).pending.entries s
  refine ⟨ids, h.withFlows _ (popDead now _ s).2.ready.activeFlows ⟨fun j => ?_, ?_, ?_⟩⟩
  · show ∃ n, (s.pruned now k).ready.flow j = _ ∧ _
    by_cases hj : k = j
    · subst hj
      exact ⟨_, s.pruned_flow_self now k, fun e he => dead_of_popDead he⟩
    · exact ⟨0, s.pruned_flow_of_ne now k hj, by simp⟩
  · intro j hj
    exact s.pruned_activeFlows now k ▸ hj
  · intro j hj hnot
    rw [← s.pruned_activeFlows now k] at hj
    exact absurd hj hnot

theorem tidied_pickStep (s : Impl) (now : ClockTime) (best : Option (FlowKey × ℚ)) (k : FlowKey) :
    ∃ ids, Tidied now s ids (pickStep now (s, best) k).1 := by
  obtain ⟨ids, h⟩ := s.tidied_pruned now k
  rw [pickStep_eq]
  split
  · next hnone =>
    refine ⟨ids, h.withFlows (s.pruned now k).ready.flows
      ((s.pruned now k).ready.activeFlows.erase k) (h.ready.trans ⟨fun j => ⟨0, rfl, by simp⟩, ?_, ?_⟩)⟩
    · intro j hj
      exact (USet.mem_erase.1 hj).2
    · intro j hj hnot
      -- The flow that falls asleep has no live entry, so none is left in its heap.
      obtain rfl : j = k := by
        by_contra hne
        exact hnot (USet.mem_erase.2 ⟨hne, hj⟩)
      show ((s.pruned now j).ready.flow j).pending.entries = []
      rw [pruned_entries, List.dropWhile_eq_nil_iff]
      intro e he
      simpa using List.find?_eq_none.1 hnone e he
  · exact ⟨ids, h⟩

theorem tidied_foldl_pickStep (now : ClockTime) (ks : List FlowKey) (s : Impl) (best : Option (FlowKey × ℚ)) :
    ∃ ids, Tidied now s ids (ks.foldl (pickStep now) (s, best)).1 := by
  induction ks generalizing s best with
  | nil => exact ⟨[], .refl now s⟩
  | cons k ks ih =>
    obtain ⟨ids, hstep⟩ := s.tidied_pickStep now best k
    obtain ⟨ids', hrest⟩ := ih (pickStep now (s, best) k).1 (pickStep now (s, best) k).2
    exact ⟨ids ++ ids', hstep.trans hrest⟩

/-- `pick_seed` expires overdue requests, pops dead entries, drops drained
flows, and changes nothing else. -/
theorem tidied_pickSeed (s : Impl) (now : ClockTime) : ∃ ids, Tidied now s ids (s.pickSeed now).1 := by
  have hloop := tidied_foldl_pickStep now (s.ready.activeFlows.elems.insertionSort FlowKey.le) s none
  unfold pickSeed
  simp only
  split <;> exact hloop

end Impl

end InferenceScheduler
