/-
The choice of a worker (`select_worker`). Of the workers `score_worker` finds
eligible for a batch the one with the highest score is taken, of several the
one with the smallest id: `selectWorker_spec`. There is one such worker, so the
choice does not depend on the order in which the workers are listed.
-/
import InferenceScheduler.Dispatch

namespace InferenceScheduler

/-! ## The better of two scores -/

/-- `select_worker` takes `x` over `y`. -/
def Beats (x y : WorkerScore) : Prop := x.total > y.total ∨ x.total = y.total ∧ x.worker.lt y.worker = true

instance (x y : WorkerScore) : Decidable (Beats x y) := inferInstanceAs (Decidable (_ ∨ _))

theorem beats_iff {x y : WorkerScore} : Beats x y ↔
    y.total < x.total ∨ x.total = y.total ∧ x.worker.value.toNat < y.worker.value.toNat := by
  rw [Beats, Id.lt, decide_eq_true_iff, UInt64.lt_iff_toNat_lt]

theorem Beats.trans {x y z : WorkerScore} (hxy : Beats x y) (hyz : Beats y z) : Beats x z := by
  rw [beats_iff] at *
  rcases hxy with hxy | ⟨hxy, hid⟩
  · rcases hyz with hyz | ⟨hyz, -⟩
    · exact .inl (hyz.trans hxy)
    · exact .inl (hyz ▸ hxy)
  · rcases hyz with hyz | ⟨hyz, hid'⟩
    · exact .inl (hxy ▸ hyz)
    · exact .inr ⟨hxy.trans hyz, hid.trans hid'⟩

theorem Beats.asymm {x y : WorkerScore} (hxy : Beats x y) : ¬Beats y x := by
  intro hyx
  have hxx := hxy.trans hyx
  rw [beats_iff] at hxx
  rcases hxx with hlt | ⟨-, hlt⟩
  · exact lt_irrefl _ hlt
  · exact lt_irrefl _ hlt

theorem beats_total {x y : WorkerScore} (hne : x.worker ≠ y.worker) (hxy : ¬Beats x y) : Beats y x := by
  rw [beats_iff] at *
  rw [not_or, not_and, not_lt] at hxy
  have hvalue : x.worker.value.toNat ≠ y.worker.value.toNat :=
    fun heq => hne (Id.ext_value (UInt64.toNat.inj heq))
  rcases hxy.1.lt_or_eq with hlt | heq
  · exact .inl hlt
  · have hle := hxy.2 heq
    exact .inr ⟨heq.symm, by omega⟩

/-! ## The best of all -/

/-- The eligible score that beats every other one. -/
structure Chosen (l : List WorkerScore) (sc : WorkerScore) : Prop where
  mem : sc ∈ l
  eligible : sc.eligible = true
  beats : ∀ x ∈ l, x.eligible = true → x = sc ∨ Beats sc x

theorem Chosen.unique {l : List WorkerScore} {x y : WorkerScore} (hx : Chosen l x) (hy : Chosen l y) : x = y := by
  rcases hx.beats y hy.mem hy.eligible with rfl | hxy
  · rfl
  · rcases hy.beats x hx.mem hx.eligible with rfl | hyx
    · rfl
    · exact absurd hyx hxy.asymm

section append

variable {l : List WorkerScore} {b x : WorkerScore}

/-- The choice stays when a score is added that is not eligible or that it beats. -/
theorem Chosen.keep (h : Chosen l b) (hx : x.eligible = true → Beats b x) : Chosen (l ++ [x]) b := by
  refine ⟨List.mem_append_left _ h.mem, h.eligible, fun y hy hy' => ?_⟩
  rcases List.mem_append.1 hy with hy | hy
  · exact h.beats y hy hy'
  · obtain rfl := List.mem_singleton.1 hy
    exact .inr (hx hy')

/-- A score added that beats the choice, or that is the first one eligible. -/
theorem chosen_append (hx : x.eligible = true) (hbeats : ∀ y ∈ l, y.eligible = true → Beats x y) :
    Chosen (l ++ [x]) x := by
  refine ⟨by simp, hx, fun y hy hy' => ?_⟩
  rcases List.mem_append.1 hy with hy | hy
  · exact .inr (hbeats y hy hy')
  · exact .inl (List.mem_singleton.1 hy)

end append

theorem foldl_betterScore {l : List WorkerScore} (hnodup : (l.map (·.worker)).Nodup) :
    l.foldl betterScore none = none ∧ (∀ x ∈ l, x.eligible = false) ∨
      ∃ sc, l.foldl betterScore none = some sc ∧ Chosen l sc := by
  induction l using List.reverseRecOn with
  | nil => exact .inl ⟨rfl, by simp⟩
  | append_singleton l x ih =>
    rw [List.map_append, List.nodup_append] at hnodup
    obtain ⟨hl, _, hfresh⟩ := hnodup
    rw [List.foldl_append, List.foldl_cons, List.foldl_nil]
    cases hx : x.eligible with
    | false =>
      have hskip : ∀ best, betterScore best x = best := fun best => if_neg (by simp [hx])
      rw [hskip]
      refine (ih hl).imp (fun h => ⟨h.1, fun y hy => ?_⟩) fun h => ?_
      · rcases List.mem_append.1 hy with hy | hy
        · exact h.2 y hy
        · exact List.mem_singleton.1 hy ▸ hx
      · obtain ⟨sc, heq, hsc⟩ := h
        exact ⟨sc, heq, hsc.keep fun hx' => absurd (hx.symm.trans hx') Bool.false_ne_true⟩
    | true =>
      right
      rcases ih hl with ⟨heq, hnone⟩ | ⟨b, heq, hb⟩
      · refine ⟨x, by rw [heq]; exact if_pos hx, chosen_append hx fun y hy hy' => ?_⟩
        rw [hnone y hy] at hy'
        cases hy'
      · have hstep : betterScore (some b) x = if Beats x b then some x else some b := if_pos hx
        rw [heq, hstep]
        by_cases hxb : Beats x b
        · refine ⟨x, if_pos hxb, chosen_append hx fun y hy hy' => ?_⟩
          rcases hb.beats y hy hy' with rfl | hby
          · exact hxb
          · exact hxb.trans hby
        · have hne := hfresh b.worker (List.mem_map_of_mem hb.mem) x.worker (by simp)
          exact ⟨b, if_neg hxb, hb.keep fun _ => beats_total hne.symm hxb⟩

/-- The best score does not depend on the order of the scores. -/
theorem foldl_betterScore_perm {l l' : List WorkerScore} (hp : l.Perm l') (hnodup : (l.map (·.worker)).Nodup) :
    l.foldl betterScore none = l'.foldl betterScore none := by
  have hnodup' : (l'.map (·.worker)).Nodup := (hp.map _).nodup_iff.1 hnodup
  rcases foldl_betterScore hnodup with ⟨heq, hnone⟩ | ⟨sc, heq, hsc⟩ <;>
    rcases foldl_betterScore hnodup' with ⟨heq', hnone'⟩ | ⟨sc', heq', hsc'⟩
  · rw [heq, heq']
  · exact absurd (hnone sc' (hp.mem_iff.2 hsc'.mem)) (by simp [hsc'.eligible])
  · exact absurd (hnone' sc (hp.mem_iff.1 hsc.mem)) (by simp [hsc.eligible])
  · have hmoved : Chosen l sc' :=
      ⟨hp.mem_iff.2 hsc'.mem, hsc'.eligible, fun x hx => hsc'.beats x (hp.mem_iff.1 hx)⟩
    rw [heq, heq', hsc.unique hmoved]

/-! ## The worker chosen -/

theorem scoreWorker_worker (cfg : SchedulerConfig) (wr : WorkerRecord) (spec : RequestSpec) (cost : ℚ)
    (now : ClockTime) : (scoreWorker cfg wr spec cost now).worker = wr.id := by
  unfold scoreWorker
  split <;> rfl

theorem scoreWorker_eligible {cfg : SchedulerConfig} {wr : WorkerRecord} {spec : RequestSpec} {cost : ℚ}
    {now : ClockTime} : (scoreWorker cfg wr spec cost now).eligible = true ↔ rejectReason wr spec cost now = none := by
  unfold scoreWorker
  split
  · next h => simp [h]
  · next h => simp [h]

namespace Impl

/-- The scores of the workers for a batch around `seed`. -/
def scores (s : Impl) (seed : RequestId) (cost : ℚ) (now : ClockTime) : List WorkerScore :=
  s.pool.workers.records.map fun wr => scoreWorker s.cfg wr (s.specOf seed) cost now

theorem nodup_scores (s : Impl) (seed : RequestId) (cost : ℚ) (now : ClockTime) :
    ((s.scores seed cost now).map (·.worker)).Nodup := by
  have hids : (s.scores seed cost now).map (·.worker) = s.pool.workers.records.map WorkerRecord.id := by
    rw [scores, List.map_map]
    exact List.map_congr_left fun wr _ => scoreWorker_worker ..
  rw [hids]
  exact s.pool.workers.nodup_records

/-- **The worker of a batch.** None is chosen if none is eligible; otherwise
the one whose score beats those of the others. -/
theorem selectWorker_spec (s : Impl) (seed : RequestId) (members : List RequestId) (cost : ℚ) (now : ClockTime) :
    (s.selectWorker (seed :: members) cost now).1 = .invalid ∧
        (∀ w wr, s.pool.workers.find w = some wr → rejectReason wr (s.specOf seed) cost now ≠ none) ∨
      ∃ wr, s.pool.workers.find wr.id = some wr ∧ (s.selectWorker (seed :: members) cost now).1 = wr.id ∧
        rejectReason wr (s.specOf seed) cost now = none ∧
        Chosen (s.scores seed cost now) (scoreWorker s.cfg wr (s.specOf seed) cost now) := by
  have hmem : ∀ w wr, s.pool.workers.find w = some wr →
      scoreWorker s.cfg wr (s.specOf seed) cost now ∈ s.scores seed cost now :=
    fun w wr hf => List.mem_map_of_mem (Keyed.mem_records.2 (Keyed.find_key hf))
  rcases foldl_betterScore (s.nodup_scores seed cost now) with ⟨heq, hnone⟩ | ⟨sc, heq, hsc⟩
  · refine .inl ⟨?_, fun w wr hf hfit => ?_⟩
    · rw [scores] at heq
      rw [selectWorker, heq]
    · have hno := hnone _ (hmem w wr hf)
      rw [scoreWorker_eligible.2 hfit] at hno
      cases hno
  · obtain ⟨wr, hwr, rfl⟩ := List.mem_map.1 hsc.mem
    refine .inr ⟨wr, Keyed.mem_records.1 hwr, ?_, scoreWorker_eligible.1 hsc.eligible, hsc⟩
    rw [scores] at heq
    rw [selectWorker, heq]
    exact scoreWorker_worker ..

end Impl

end InferenceScheduler
