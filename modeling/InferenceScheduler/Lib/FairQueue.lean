/-
Fair queueing by virtual time, over any kind of flow.

Every flow has a virtual finish; the queue has a virtual time. A flow that
wakes up starts no earlier than the virtual time, and a flow that is served is
charged, which moves its finish and, if that overtakes it, the virtual time.
If only flows near the least finish of the active ones are charged, no two
active flows are ever far apart (`Fair`), and what two flows are charged while
both stay active is about the same (`Fair.service`).
-/
import Mathlib.Algebra.Order.BigOperators.Group.List
import Mathlib.Algebra.Order.Group.Abs
import Mathlib.Data.Set.Insert
import Mathlib.Tactic.Abel

universe u v

@[ext] structure FairQueue (κ : Type u) (𝕜 : Type v) where
  finish : κ → 𝕜
  time : 𝕜
  active : Set κ

namespace FairQueue

variable {κ : Type u} {𝕜 : Type v} [AddCommGroup 𝕜] [LinearOrder 𝕜]

/-- Every finish lies between zero and the virtual time, and no active flow is
more than `R` behind it. -/
structure Fair (R : 𝕜) (q : FairQueue κ 𝕜) : Prop where
  nonneg : ∀ k, 0 ≤ q.finish k
  behind : ∀ k, q.finish k ≤ q.time
  close : ∀ k ∈ q.active, q.time ≤ q.finish k + R

/-- A flow with a finish at most `E` above the least of the active ones. -/
def Near (E : 𝕜) (q : FairQueue κ 𝕜) (k : κ) : Prop := ∀ j ∈ q.active, q.finish k ≤ q.finish j + E

section operations

variable [DecidableEq κ]

/-- A flow becomes active. -/
def wake (q : FairQueue κ 𝕜) (k : κ) : FairQueue κ 𝕜 :=
  { q with finish := Function.update q.finish k (max (q.finish k) q.time), active := insert k q.active }

omit [AddCommGroup 𝕜] in
theorem finish_wake_of_ne {j k : κ} (q : FairQueue κ 𝕜) (h : j ≠ k) : (q.wake k).finish j = q.finish j :=
  Function.update_of_ne h _ _

/-- A flow is served at a cost `x`, in units of virtual time. -/
def charge (q : FairQueue κ 𝕜) (k : κ) (x : 𝕜) : FairQueue κ 𝕜 :=
  { q with finish := Function.update q.finish k (q.finish k + x), time := max q.time (q.finish k + x) }

/-- Flows are served one after the other. -/
def chargeAll (q : FairQueue κ 𝕜) (l : List (κ × 𝕜)) : FairQueue κ 𝕜 := l.foldl (fun q p => q.charge p.1 p.2) q

@[simp] theorem chargeAll_nil (q : FairQueue κ 𝕜) : q.chargeAll [] = q := rfl

@[simp] theorem chargeAll_cons (q : FairQueue κ 𝕜) (p : κ × 𝕜) (l : List (κ × 𝕜)) :
    q.chargeAll (p :: l) = (q.charge p.1 p.2).chargeAll l := rfl

/-- A flow is charged what is on its bills. -/
theorem finish_chargeAll (k : κ) : ∀ (l : List (κ × 𝕜)) (q : FairQueue κ 𝕜),
    (q.chargeAll l).finish k = q.finish k + ((l.filter fun p => p.1 = k).map Prod.snd).sum
  | [], q => by simp
  | p :: l, q => by
    rw [chargeAll_cons, finish_chargeAll k l, charge]
    by_cases hk : p.1 = k
    · subst hk
      simp [add_assoc]
    · simp [hk, Ne.symm hk]

end operations

variable {q : FairQueue κ 𝕜} {R E : 𝕜} {k : κ}

namespace Fair

/-- No flow is ahead of an active one by more than `R`. -/
theorem spread {i j : κ} (h : Fair R q) (hj : j ∈ q.active) : q.finish i ≤ q.finish j + R :=
  (h.behind i).trans (h.close j hj)

variable [IsOrderedAddMonoid 𝕜]

theorem wake [DecidableEq κ] (h : Fair R q) (hR : 0 ≤ R) : Fair R (q.wake k) := by
  have hmax : max (q.finish k) q.time = q.time := max_eq_right (h.behind k)
  have hfinish : ∀ j, (q.wake k).finish j = if j = k then q.time else q.finish j := by
    intro j
    simp only [FairQueue.wake, Function.update_apply, hmax]
  refine ⟨fun j => ?_, fun j => ?_, fun j hj => ?_⟩ <;> rw [hfinish] <;> split
  · exact (h.nonneg k).trans (h.behind k)
  · exact h.nonneg j
  · exact le_refl q.time
  · exact h.behind j
  · exact le_add_of_nonneg_right hR
  · next hjk => exact h.close j (hj.resolve_left hjk)

/-- Charging a flow near the least one. -/
theorem charge [DecidableEq κ] {x : 𝕜} (h : Fair R q) (hk : q.Near E k) (hx : 0 ≤ x) (hR : x + E ≤ R) :
    Fair R (q.charge k x) := by
  have hup : q.finish k ≤ q.finish k + x := le_add_of_nonneg_right hx
  have hfinish : ∀ j, (q.charge k x).finish j = if j = k then q.finish k + x else q.finish j := by
    intro j
    simp only [FairQueue.charge, Function.update_apply]
  have hle : ∀ j, q.finish j ≤ (q.charge k x).finish j := by
    intro j
    rw [hfinish]
    split
    · next hjk => exact hjk ▸ hup
    · exact le_refl _
  refine ⟨fun j => (h.nonneg j).trans (hle j), fun j => ?_, fun j hj => ?_⟩
  · rw [hfinish]
    split
    · exact le_max_right _ _
    · exact (h.behind j).trans (le_max_left _ _)
  · have hnew : q.finish k + x ≤ q.finish j + R :=
      calc q.finish k + x ≤ q.finish j + E + x := by gcongr; exact hk j hj
        _ = q.finish j + (x + E) := by abel
        _ ≤ q.finish j + R := by gcongr
    exact (max_le (h.close j hj) hnew).trans (by gcongr; exact hle j)

/-- Two flows that are active at the start and at the end are charged alike
in between. -/
theorem service {q' : FairQueue κ 𝕜} {i j : κ} {x y : 𝕜} (h : Fair R q) (h' : Fair R q') (hi : i ∈ q.active)
    (hj' : j ∈ q'.active) (hx : q'.finish i = q.finish i + x) (hy : q'.finish j = q.finish j + y) :
    x - y ≤ R + R := by
  have hstart : q.finish j ≤ q.finish i + R := h.spread hi
  have hend : q.finish i + x ≤ q.finish j + y + R := by
    rw [← hx, ← hy]
    exact h'.spread hj'
  have hsum : q.finish i + x ≤ q.finish i + (y + (R + R)) :=
    calc q.finish i + x ≤ q.finish j + y + R := hend
      _ ≤ q.finish i + R + y + R := by gcongr
      _ = q.finish i + (y + (R + R)) := by abel
  exact sub_le_iff_le_add'.2 (le_of_add_le_add_left hsum)

end Fair

variable [IsOrderedAddMonoid 𝕜] [DecidableEq κ]

/-- A flow is charged in parts. -/
theorem charge_charge (q : FairQueue κ 𝕜) (k : κ) (x : 𝕜) {y : 𝕜} (hy : 0 ≤ y) :
    (q.charge k x).charge k y = q.charge k (x + y) := by
  have hle : q.finish k + x ≤ q.finish k + x + y := le_add_of_nonneg_right hy
  simp only [charge, Function.update_self, Function.update_idem, max_assoc]
  rw [max_eq_right hle, add_assoc]

/-- One flow is served, several times. -/
theorem chargeAll_flow {l : List (κ × 𝕜)} (hl : l ≠ []) (hk : ∀ p ∈ l, p.1 = k ∧ 0 ≤ p.2) (q : FairQueue κ 𝕜) :
    q.chargeAll l = q.charge k (l.map Prod.snd).sum := by
  induction l generalizing q with
  | nil => exact absurd rfl hl
  | cons p l ih =>
    obtain ⟨hp, hl'⟩ := List.forall_mem_cons.1 hk
    rw [chargeAll_cons, hp.1, List.map_cons, List.sum_cons]
    cases l with
    | nil => simp
    | cons p' l =>
      have hsum : 0 ≤ ((p' :: l).map Prod.snd).sum :=
        List.sum_nonneg fun x hx => by
          obtain ⟨b, hb, rfl⟩ := List.mem_map.1 hx
          exact (hl' b hb).2
      rw [ih (by simp) hl', charge_charge q k p.2 hsum]

/-- A flow stays near the least one while others wake up. -/
theorem Near.wake {j : κ} (h : q.Near E k) (hE : 0 ≤ E) (hk : q.finish k ≤ q.time) (hjk : j ≠ k) :
    (q.wake j).Near E k := by
  intro i hi
  simp only [FairQueue.wake, Function.update_of_ne hjk.symm]
  by_cases hij : i = j
  · subst hij
    rw [Function.update_self]
    exact (hk.trans (le_max_right _ _)).trans (le_add_of_nonneg_right hE)
  · rw [Function.update_of_ne hij]
    exact h i (hi.resolve_left hij)

end FairQueue
