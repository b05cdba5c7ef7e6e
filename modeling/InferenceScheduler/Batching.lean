/-
Batch formation as a specification: around a seed the batch takes, from the
other queued requests of the same compatibility key in the order of their
urgency, as many as the size and the token limit allow.

`lineup` lists those requests from the request table, without the indexes the
scheduler keeps; `formBatch_longest` says that the batch is the seed and the
longest part of the lineup that stays within the limits.
-/
import InferenceScheduler.Flows
import Mathlib.Data.Int.ConditionallyCompleteOrder
import Mathlib.Data.Prod.Lex
import Mathlib.Order.WithBot

namespace InferenceScheduler

/-! ## The order of the candidates -/

namespace Impl

variable (s : Impl) (now : ClockTime)

/-- `a` is tried no later than `b`: the source's comparison does not put `b` first. -/
def Tried (a b : RequestId) : Prop := s.batchLess now b a = false

theorem tried_iff {a b : RequestId} : s.Tried now a b ↔
    (s.specOf a).deadline.slack now < (s.specOf b).deadline.slack now ∨
      (s.specOf a).deadline.slack now = (s.specOf b).deadline.slack now ∧
        (priorityInt (s.specOf b).priority < priorityInt (s.specOf a).priority ∨
          priorityInt (s.specOf a).priority = priorityInt (s.specOf b).priority ∧ a.value.toNat ≤ b.value.toNat) := by
  simp only [Tried, batchLess, ne_eq, ite_not, gt_iff_lt, Id.lt, UInt64.lt_iff_toNat_lt]
  split
  · split
    · simp only [decide_eq_false_iff_not]; omega
    · simp only [decide_eq_false_iff_not]; omega
  · simp only [decide_eq_false_iff_not]; omega

instance : DecidableRel (s.Tried now) := fun a b => inferInstanceAs (Decidable (s.batchLess now b a = false))

instance : Std.Total (s.Tried now) where
  total a b := by
    simp only [tried_iff]
    omega

instance : IsTrans RequestId (s.Tried now) where
  trans a b c hab hbc := by
    simp only [tried_iff] at *
    omega

/-- The ids separate any two requests. -/
instance : Std.Antisymm (s.Tried now) where
  antisymm a b hab hba := by
    simp only [tried_iff] at hab hba
    have hvalue : a.value.toNat = b.value.toNat := by omega
    exact Id.ext_value (UInt64.toNat.inj hvalue)

theorem candidates_eq (seed : RequestId) (spec : RequestSpec) : s.candidates seed spec now =
    ((s.ready.bucket (compatKey s.cfg spec)).elems.filter (s.candidate seed now)).insertionSort (s.Tried now) := rfl

variable {s now}

theorem mem_candidates {seed id : RequestId} {spec : RequestSpec} : id ∈ s.candidates seed spec now ↔
    id ∈ s.ready.bucket (compatKey s.cfg spec) ∧ id ≠ seed ∧ id ∈ s.ready.queued ∧
      ∃ rec, s.core.Waits id rec ∧ rec.spec.deadline.expired now = false := by
  rw [candidates_eq, List.mem_insertionSort, List.mem_filter, USet.mem_def]
  refine and_congr_right fun _ => ?_
  simp only [candidate, Bool.and_eq_true, bne_iff_ne, decide_eq_true_eq, and_assoc]
  refine and_congr_right fun _ => and_congr_right fun _ => ?_
  cases hf : s.requests.find id with
  | none => simp [Core.Waits, core, hf]
  | some rec =>
    have hvalid : rec.spec.deadline.expired now = true → rec.spec.deadline.valid = true := by
      unfold Deadline.expired Deadline.valid
      cases rec.spec.deadline.point <;> simp
    simp only [Core.Waits, core, hf, Option.some.injEq, Bool.and_eq_true, beq_iff_eq, Bool.not_eq_true',
      Bool.and_eq_false_iff]
    constructor
    · intro h
      refine ⟨rec, ⟨rfl, h.1⟩, h.2.elim (fun hv => ?_) fun hexp => hexp⟩
      by_contra hexp
      exact absurd (hvalid (Bool.eq_true_of_not_eq_false hexp)) (by simp [hv])
    · intro h
      obtain ⟨_, ⟨rfl, hs⟩, hexp⟩ := h
      exact ⟨hs, .inr hexp⟩

/-- There is one order to try the candidates in. -/
theorem candidates_unique {seed : RequestId} {spec : RequestSpec} {l : List RequestId} (hnodup : l.Nodup)
    (hsorted : l.Pairwise (s.Tried now)) (hmem : ∀ id, id ∈ s.candidates seed spec now ↔ id ∈ l) :
    s.candidates seed spec now = l := by
  refine List.Perm.eq_of_pairwise' ?_ hsorted
    ((List.perm_ext_iff_of_nodup (s.nodup_candidates seed spec now) hnodup).2 hmem)
  rw [candidates_eq]
  exact List.pairwise_insertionSort _ _

theorem planMembers_cons {r : RequestId} {rec : RequestRecord} (hf : s.requests.find r = some rec) :
    ∃ n, s.planMembers r now = r :: (s.candidates r rec.spec now).take n := by
  obtain ⟨n, _, heq, _⟩ := s.fillBatch_take (batchLimit s.cfg rec.spec) (s.candidates r rec.spec now) [r]
    rec.spec.tokens.total
  refine ⟨n, ?_⟩
  simp only [planMembers, formBatch, hf, heq, List.singleton_append, List.isEmpty_cons, Bool.false_eq_true, if_false]

theorem fillBatch_length (s : Impl) (maxb : ℤ) (ids result : List RequestId) (tok : ℤ)
    (h : (result.length : ℤ) ≤ maxb) : ((s.fillBatch maxb ids result tok).length : ℤ) ≤ maxb := by
  obtain ⟨n, _, heq, hroom, _⟩ := s.fillBatch_take maxb ids result tok
  rw [heq, List.length_append]
  by_cases hn : n = 0
  · subst hn
    simpa using h
  · have hsize := (hroom n le_rfl hn).1
    push_cast
    exact hsize

/-- A batch has no more members than its seed allows. -/
theorem planMembers_length (s : Impl) (request : RequestId) (now : ClockTime) :
    ((s.planMembers request now).length : ℤ) ≤ batchLimit s.cfg (s.specOf request) := by
  have hone := one_le_batchLimit s.cfg (s.specOf request)
  unfold planMembers
  simp only
  split
  · exact hone
  · cases hf : s.requests.find request with
    | none => simp only [formBatch, hf, List.length_nil, Nat.cast_zero]; omega
    | some rec =>
      have hspec : s.specOf request = rec.spec := specOf_of_find hf
      rw [hspec] at hone ⊢
      simp only [formBatch, hf]
      exact fillBatch_length s _ _ _ _ hone

/-! ## What a batch depends on -/

section specs

variable {t : Impl}

theorem specOf_congr (h : ∀ id, (t.requests.find id).map (·.spec) = (s.requests.find id).map (·.spec)) :
    t.specOf = s.specOf := by
  funext id
  rw [specOf, specOf, ← Option.getD_map RequestRecord.spec, ← Option.getD_map RequestRecord.spec, h]

theorem batchCost_congr (h : t.specOf = s.specOf) : t.batchCost = s.batchCost := by
  have hmember : t.memberCost = s.memberCost := funext fun id => by rw [memberCost, memberCost, h]
  funext ids
  rw [batchCost, batchCost, hmember]

theorem batchUnits_congr (h : t.specOf = s.specOf) : t.batchUnits = s.batchUnits := by
  funext ids
  rw [batchUnits, batchUnits, h]

end specs

/-- The batch of a request depends on what the requests ask for and on which
of them are candidates. -/
theorem planMembers_congr {t : Impl} (hcfg : t.cfg = s.cfg)
    (hspec : ∀ id, (t.requests.find id).map (·.spec) = (s.requests.find id).map (·.spec)) {r : RequestId}
    (hmem : ∀ spec id, id ∈ t.candidates r spec now ↔ id ∈ s.candidates r spec now) :
    t.planMembers r now = s.planMembers r now := by
  have hspecOf := specOf_congr hspec
  have htried : t.Tried now = s.Tried now := by
    funext a b
    simp only [Tried, batchLess, hspecOf]
  have hcands : ∀ spec, t.candidates r spec now = s.candidates r spec now := by
    intro spec
    refine candidates_unique (s.nodup_candidates r spec now) ?_ (hmem spec)
    rw [htried, candidates_eq]
    exact List.pairwise_insertionSort _ _
  have hfill : ∀ maxb ids result tok, t.fillBatch maxb ids result tok = s.fillBatch maxb ids result tok := by
    intro maxb ids
    induction ids with
    | nil => exact fun _ _ => rfl
    | cons id ids ih =>
      intro result tok
      simp only [fillBatch, hcfg, hspecOf, ih]
  have hform : t.formBatch r now = s.formBatch r now := by
    have hr := hspec r
    unfold formBatch
    cases hs : s.requests.find r with
    | none =>
      rw [hs, Option.map_none, Option.map_eq_none_iff] at hr
      rw [hr]
    | some rec =>
      rw [hs, Option.map_some, Option.map_eq_some_iff] at hr
      obtain ⟨rec', hf, hsame⟩ := hr
      rw [hf]
      dsimp only
      rw [hsame, hcands, hfill, hcfg]
  rw [planMembers, planMembers, hform]

end Impl

/-! ## The batch that should be formed -/

/-- The milliseconds left until a deadline; without one there is no end to them. -/
def Deadline.left (d : Deadline) (now : ClockTime) : WithTop ℤ := if d.valid then (d.remaining now : WithTop ℤ) else ⊤

/-- An instant the source's clock can show, a signed 64-bit count of nanoseconds. -/
def ClockTime.Shown (t : ClockTime) : Prop := -2 ^ 63 ≤ t ∧ t < 2 ^ 63

instance (t : ClockTime) : Decidable (ClockTime.Shown t) := inferInstanceAs (Decidable (_ ∧ _))

namespace Impl

variable (s : Impl) (now : ClockTime)

/-- The place of a request in the lineup: by the time left, then the higher
priority first, then the smaller id. -/
def urgency (id : RequestId) : WithTop ℤ ×ₗ ℤᵒᵈ ×ₗ ℕ :=
  toLex ((s.specOf id).deadline.left now, toLex (OrderDual.toDual (priorityInt (s.specOf id).priority), id.value.toNat))

def Sooner (a b : RequestId) : Prop := s.urgency now a ≤ s.urgency now b

instance : DecidableRel (s.Sooner now) := fun a b => inferInstanceAs (Decidable (s.urgency now a ≤ s.urgency now b))

instance : Std.Total (s.Sooner now) := ⟨fun _ _ => le_total _ _⟩

instance : IsTrans RequestId (s.Sooner now) := ⟨fun _ _ _ => le_trans⟩

/-- A request that may join the batch of `seed`. -/
def Joins (seed rec : RequestRecord) : Prop :=
  rec.requestId ≠ seed.requestId ∧ rec.state = .queued ∧ rec.spec.deadline.expired now = false ∧
    compatKey s.cfg rec.spec = compatKey s.cfg seed.spec

instance (seed : RequestRecord) : DecidablePred (s.Joins now seed) := fun _ => inferInstanceAs (Decidable (_ ∧ _))

/-- The requests that may join the batch of `seed`, the most urgent first. -/
def lineup (seed : RequestRecord) : List RequestId :=
  ((s.requests.records.filter (s.Joins now seed ·)).map (·.requestId)).insertionSort (s.Sooner now)

/-- The batch of `seed` and `joined` keeps to the size and the token limit; a
batch of the seed alone is not held to its tokens. -/
def WithinLimits (seed : RequestRecord) (joined : List RequestId) : Prop :=
  (joined.length : ℤ) + 1 ≤ batchLimit s.cfg seed.spec ∧
    (0 < s.cfg.batch.maxTokens → joined ≠ [] → seed.spec.tokens.total + s.tokens joined ≤ s.cfg.batch.maxTokens)

instance (seed : RequestRecord) : DecidablePred (s.WithinLimits seed) := fun _ => inferInstanceAs (Decidable (_ ∧ _))

/-- `compat_` and `queued_` index the queued requests. -/
def IndexesQueued : Prop :=
  ∀ r rec, s.core.Waits r rec → r ∈ s.ready.queued ∧ ∀ k, r ∈ s.ready.bucket k ↔ compatKey s.cfg rec.spec = k

end Impl

/-! ## The candidates are the lineup -/

namespace Deadline

variable {d d' : Deadline} {now : ClockTime}

/-- The largest value stands for no deadline only. -/
theorem slack_lt {p : ClockTime} (hp : d.point = some p) (hshown : ClockTime.Shown p) (hnow : ClockTime.Shown now) :
    d.slack now < i64Max := by
  have hspan : ∀ a b : ℤ, a < 2 ^ 63 → -2 ^ 63 ≤ b → ¬a - b < 0 → (a - b).tdiv 1000000 < 2 ^ 63 - 1 := by
    intro a b ha hb hpos
    rw [Int.tdiv_eq_ediv_of_nonneg (by omega)]
    omega
  simp only [slack, valid, remaining, hp, Option.isSome_some, if_true, toMs, i64Max]
  split
  · omega
  · next hpos => exact hspan p now hshown.2 hnow.1 hpos

theorem left_cmp (hd : ∀ p ∈ d.point, ClockTime.Shown p) (hd' : ∀ p ∈ d'.point, ClockTime.Shown p)
    (hnow : ClockTime.Shown now) :
    (d.left now < d'.left now ↔ d.slack now < d'.slack now) ∧ (d.left now = d'.left now ↔ d.slack now = d'.slack now) := by
  rcases hp : d.point with - | p <;> rcases hp' : d'.point with - | p'
  · simp [left, slack, valid, hp, hp']
  · have hlt := slack_lt hp' (hd' p' hp') hnow
    simp only [slack, valid, hp', Option.isSome_some, if_true] at hlt
    simp [left, slack, valid, hp, hp', hlt.le, hlt.ne']
  · have hlt := slack_lt hp (hd p hp) hnow
    simp only [slack, valid, hp, Option.isSome_some, if_true] at hlt
    simp [left, slack, valid, hp, hp', hlt, hlt.ne]
  · simp [left, slack, valid, hp, hp']

end Deadline

namespace Impl

variable {s : Impl} {now : ClockTime}

theorem sooner_iff_tried {a b : RequestId} (ha : ∀ p ∈ (s.specOf a).deadline.point, ClockTime.Shown p)
    (hb : ∀ p ∈ (s.specOf b).deadline.point, ClockTime.Shown p) (hnow : ClockTime.Shown now) :
    s.Sooner now a b ↔ s.Tried now a b := by
  obtain ⟨hlt, heq⟩ := Deadline.left_cmp ha hb hnow
  rw [tried_iff, Sooner, urgency, urgency, Prod.Lex.toLex_le_toLex, Prod.Lex.toLex_le_toLex]
  simp only [hlt, heq, OrderDual.toDual_lt_toDual, OrderDual.toDual_inj]

theorem mem_lineup {seed : RequestRecord} {id : RequestId} :
    id ∈ s.lineup now seed ↔ ∃ rec, s.requests.find id = some rec ∧ s.Joins now seed rec := by
  rw [lineup, List.mem_insertionSort, List.mem_map]
  constructor
  · intro h
    obtain ⟨rec, hrec, rfl⟩ := h
    obtain ⟨hmem, hjoins⟩ := List.mem_filter.1 hrec
    exact ⟨rec, Keyed.mem_records.1 hmem, of_decide_eq_true hjoins⟩
  · intro h
    obtain ⟨rec, hf, hjoins⟩ := h
    exact ⟨rec, List.mem_filter.2 ⟨Keyed.mem_records.2 (Keyed.find_key hf), decide_eq_true hjoins⟩,
      Keyed.key_of_find hf⟩

theorem nodup_lineup (seed : RequestRecord) : (s.lineup now seed).Nodup := by
  rw [lineup, (List.perm_insertionSort _ _).nodup_iff]
  exact s.requests.nodup_records.sublist (List.filter_sublist.map _)

theorem candidates_eq_lineup {seed : RequestRecord} (hindex : s.IndexesQueued)
    (hshown : ∀ r rec, s.core.Waits r rec → ∀ p ∈ rec.spec.deadline.point, ClockTime.Shown p)
    (hnow : ClockTime.Shown now) : s.candidates seed.requestId seed.spec now = s.lineup now seed := by
  have hmem : ∀ id, id ∈ s.candidates seed.requestId seed.spec now ↔ id ∈ s.lineup now seed := by
    intro id
    rw [mem_candidates, mem_lineup]
    constructor
    · intro h
      obtain ⟨hbucket, hne, _, rec, hwaits, hexp⟩ := h
      exact ⟨rec, hwaits.1, by rwa [Keyed.key_of_find hwaits.1], hwaits.2, hexp,
        ((hindex id rec hwaits).2 _).1 hbucket⟩
    · intro h
      obtain ⟨rec, hf, hne, hs, hexp, hkey⟩ := h
      rw [Keyed.key_of_find hf] at hne
      obtain ⟨hqueued, hbucket⟩ := hindex id rec ⟨hf, hs⟩
      exact ⟨(hbucket _).2 hkey, hne, hqueued, rec, ⟨hf, hs⟩, hexp⟩
  have hpoint : ∀ id ∈ s.lineup now seed, ∀ p ∈ (s.specOf id).deadline.point, ClockTime.Shown p := by
    intro id hid
    obtain ⟨rec, hf, _, hs, _⟩ := mem_lineup.1 hid
    rw [specOf, hf]
    exact hshown id rec ⟨hf, hs⟩
  have hsorted : (s.lineup now seed).Pairwise (s.Tried now) := by
    have hsooner : (s.lineup now seed).Pairwise (s.Sooner now) := List.pairwise_insertionSort _ _
    exact hsooner.imp_of_mem fun ha hb h => (sooner_iff_tried (hpoint _ ha) (hpoint _ hb) hnow).1 h
  exact candidates_unique (nodup_lineup seed) hsorted hmem

/-! ## The batch is the one that should be formed -/

theorem tokens_take_le {ids : List RequestId} (h : ∀ id ∈ ids, 0 ≤ (s.specOf id).tokens.total) {m n : ℕ}
    (hmn : m ≤ n) : s.tokens (ids.take m) ≤ s.tokens (ids.take n) := by
  induction ids generalizing m n with
  | nil => simp
  | cons id ids ih =>
    have hids : ∀ id ∈ ids, 0 ≤ (s.specOf id).tokens.total := fun id hid => h id (List.mem_cons_of_mem _ hid)
    have hid := h id List.mem_cons_self
    cases n with
    | zero => rw [Nat.le_zero.1 hmn]
    | succ n =>
      cases m with
      | zero =>
        have hrest := ih hids (Nat.zero_le n)
        simp only [List.take_zero, tokens_nil, List.take_succ_cons, tokens_cons] at hrest ⊢
        omega
      | succ m =>
        have hrest := ih hids (Nat.le_of_succ_le_succ hmn)
        simp only [List.take_succ_cons, tokens_cons]
        omega

/-- With no negative estimate in it, a part of the lineup that keeps to the
limits has none that does not. -/
theorem WithinLimits.take_mono {seed : RequestRecord} {ids : List RequestId}
    (h : ∀ id ∈ ids, 0 ≤ (s.specOf id).tokens.total) {m n : ℕ} (hmn : m ≤ n)
    (hlimits : s.WithinLimits seed (ids.take n)) : s.WithinLimits seed (ids.take m) := by
  obtain ⟨hsize, htok⟩ := hlimits
  have hlength : (ids.take m).length ≤ (ids.take n).length := by
    simp only [List.length_take]
    omega
  refine ⟨by omega, fun hpos hne => ?_⟩
  have hle := tokens_take_le h hmn
  have hlimit := htok hpos fun hnil => hne (List.eq_nil_of_length_eq_zero (by rw [hnil, List.length_nil] at hlength; omega))
  omega

theorem withinLimits_nil (seed : RequestRecord) : s.WithinLimits seed [] := by
  have hone := one_le_batchLimit s.cfg seed.spec
  exact ⟨by simpa using hone, fun _ hne => absurd rfl hne⟩

theorem withinLimits_iff_room {seed : RequestRecord} {ids : List RequestId} (h : ids ≠ []) :
    s.WithinLimits seed ids ↔ s.Room (batchLimit s.cfg seed.spec) 1 seed.spec.tokens.total ids := by
  simp only [WithinLimits, Room, ne_eq, h, not_false_eq_true, forall_const, Nat.cast_one, add_comm]

/-- **A batch is what its specification asks for.** Where the indexes are those
of the queued requests, the batch is the seed and an initial part of the
lineup: as far as every part keeps to the size and the token limit, and one
more request would not. Without negative token estimates no longer part keeps
to the limits. -/
theorem formBatch_longest {seed : RequestRecord} (hindex : s.IndexesQueued)
    (hshown : ∀ r rec, s.core.Waits r rec → ∀ p ∈ rec.spec.deadline.point, ClockTime.Shown p)
    (hnow : ClockTime.Shown now) (hseed : s.core.Waits seed.requestId seed) :
    ∃ n ≤ (s.lineup now seed).length,
      s.formBatch seed.requestId now = seed.requestId :: (s.lineup now seed).take n ∧
      (∀ m ≤ n, s.WithinLimits seed ((s.lineup now seed).take m)) ∧
      (n < (s.lineup now seed).length → ¬s.WithinLimits seed ((s.lineup now seed).take (n + 1))) ∧
      ((∀ id ∈ s.lineup now seed, 0 ≤ (s.specOf id).tokens.total) →
        ∀ m ≤ (s.lineup now seed).length, s.WithinLimits seed ((s.lineup now seed).take m) → m ≤ n) := by
  obtain ⟨n, hn, hbatch, hup, hstop⟩ := s.fillBatch_take (batchLimit s.cfg seed.spec) (s.lineup now seed)
    [seed.requestId] seed.spec.tokens.total
  have hne : ∀ m, m ≠ 0 → m ≤ (s.lineup now seed).length → (s.lineup now seed).take m ≠ [] := by
    intro m hm hle hnil
    have hlength := congrArg List.length hnil
    rw [List.length_take, List.length_nil] at hlength
    omega
  have hover : n < (s.lineup now seed).length → ¬s.WithinLimits seed ((s.lineup now seed).take (n + 1)) :=
    fun hlt hlimits => hstop hlt ((withinLimits_iff_room (hne (n + 1) (by omega) hlt)).1 hlimits)
  refine ⟨n, hn, ?_, fun m hm => ?_, hover, fun hpos m hm hlimits => ?_⟩
  · rw [formBatch, show s.requests.find seed.requestId = some seed from hseed.1]
    dsimp only
    rw [candidates_eq_lineup hindex hshown hnow, hbatch, List.singleton_append]
  · by_cases hm0 : m = 0
    · rw [hm0, List.take_zero]
      exact withinLimits_nil seed
    · exact (withinLimits_iff_room (hne m hm0 (hm.trans hn))).2 (hup m hm hm0)
  · by_contra hlt
    exact hover (by omega) (hlimits.take_mono hpos (by omega))

/-- The indexes of a state that lists its requests and its buckets. -/
theorem indexesQueued_of_entries
    (hmem : ∀ rec ∈ s.requests.records, rec.state = .queued →
      rec.requestId ∈ s.ready.queued ∧ rec.requestId ∈ s.ready.bucket (compatKey s.cfg rec.spec))
    (hkey : ∀ e ∈ s.ready.compat.entries, ∀ rec ∈ s.requests.records, rec.requestId ∈ e.2 →
      compatKey s.cfg rec.spec = e.1) : s.IndexesQueued := by
  intro r rec hwaits
  obtain rfl := Keyed.key_of_find hwaits.1
  have hrec : rec ∈ s.requests.records := Keyed.mem_records.2 hwaits.1
  obtain ⟨hqueued, hbucket⟩ := hmem rec hrec hwaits.2
  refine ⟨hqueued, fun k => ⟨fun hk => ?_, fun hk => hk ▸ hbucket⟩⟩
  unfold Ready.bucket at hk
  cases hlookup : s.ready.compat.lookup k with
  | none =>
    rw [hlookup] at hk
    exact absurd hk (USet.notMem_empty _)
  | some b =>
    rw [hlookup] at hk
    exact hkey ⟨k, b⟩ (AList.mem_lookup_iff.1 hlookup) rec hrec hk

/-- A token limit of 10, request 7 with 3 tokens, and two others: 8, which has
a deadline, and 9. -/
def crowd (urgent other : ℤ) : Impl :=
  let spec (n : ℤ) : RequestSpec := { plainSpec with tokens := { input := n } }
  let s := scheduler.run (Impl.init { batch := { maxTokens := 10 } } 0 0x80000001 none)
    [.submit (spec 3) (some ⟨7⟩), .submit (spec 4) (some ⟨9⟩),
      .submit { spec urgent with deadline := ⟨some 9000000⟩ } (some ⟨8⟩)]
  { s with requests := s.requests.put { (s.requests.find ⟨9⟩).getD {} with spec := spec other } }

/-- After 7 and 8 there is no room for the 4 tokens of 9. -/
theorem formBatch_longest_crowd :
    let s := crowd 5 4
    let seed := (s.requests.find ⟨7⟩).getD {}
    s.lineup 0 seed = [⟨8⟩, ⟨9⟩] ∧
      ∃ n ≤ 2, s.formBatch ⟨7⟩ 0 = ⟨7⟩ :: [⟨8⟩, ⟨9⟩].take n ∧
        (n < 2 → ¬s.WithinLimits seed ([⟨8⟩, ⟨9⟩].take (n + 1))) := by
  intro s seed
  have hlineup : s.lineup 0 seed = [⟨8⟩, ⟨9⟩] := by decide +kernel
  have hindex : s.IndexesQueued := indexesQueued_of_entries (by decide +kernel) (by decide +kernel)
  have hshown : ∀ r rec, s.core.Waits r rec → ∀ p ∈ rec.spec.deadline.point, ClockTime.Shown p := by
    intro r rec hwaits
    have hall : ∀ rec ∈ s.requests.records, ∀ p ∈ rec.spec.deadline.point, ClockTime.Shown p := by decide +kernel
    exact Keyed.forall_find hall r rec hwaits.1
  have hnow : ClockTime.Shown 0 := by decide
  have hseed : s.core.Waits seed.requestId seed := ⟨by decide +kernel, by decide +kernel⟩
  obtain ⟨n, hn, hbatch, _, hstop, _⟩ := formBatch_longest hindex hshown hnow hseed
  rw [hlineup] at hn hbatch hstop
  exact ⟨hlineup, n, hn, hbatch, hstop⟩

/-- With an estimate below zero the loop stops at 8, whose 9 tokens are too
many, although 8 and 9 together would keep to the limit. -/
theorem formBatch_longest_discount :
    let s := crowd 9 (-5)
    let seed := (s.requests.find ⟨7⟩).getD {}
    s.IndexesQueued ∧ s.core.Waits ⟨7⟩ seed ∧ s.lineup 0 seed = [⟨8⟩, ⟨9⟩] ∧
      s.WithinLimits seed [⟨8⟩, ⟨9⟩] ∧ s.formBatch ⟨7⟩ 0 = [⟨7⟩] := by
  intro s seed
  have hseed : s.core.Waits ⟨7⟩ seed := ⟨by decide +kernel, by decide +kernel⟩
  exact ⟨indexesQueued_of_entries (by decide +kernel) (by decide +kernel), hseed, by decide +kernel,
    by decide +kernel, by decide +kernel⟩

end Impl

end InferenceScheduler
