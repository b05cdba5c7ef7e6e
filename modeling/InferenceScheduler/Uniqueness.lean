/-
How many ids a factory issues before it repeats itself
(`include/inference_scheduler/id_types.hpp`, `IdFactory::next`).

An id is the salt in the high half or-ed with the call number. The call number
can change a bit of the id as long as the salt does not have that bit set, so
the ids are distinct up to the lowest bit that the shifted salt has, and the
first invalid one is issued when the call number fills in all the others.
-/
import InferenceScheduler.Ids
import Mathlib.Data.Nat.ModEq
import Mathlib.Data.Nat.Prime.Basic

namespace InferenceScheduler

namespace IdFactory

/-- A factory made with a salt, after so many calls of `next`. -/
def after (salt : UInt64) (calls : ℕ) : IdFactory := (fun f => (f.next (t := .request)).2)^[calls] { salt := salt }

/-- The answer of call number `i + 1` of a factory made with a salt. -/
def answer (salt : UInt64) (i : ℕ) {t : IdTag} : Id t := ((after salt i).next).1

/-- The first `n` calls answer different values, and none of them the invalid
one. -/
def UniqueUpTo (salt : UInt64) (n : ℕ) : Prop :=
  (∀ i, i < n → ∀ j, j < n → i ≠ j → (answer salt i : RequestId).value ≠ (answer salt j : RequestId).value) ∧
    ∀ i, i < n → (answer salt i : RequestId).valid = true

theorem after_eq (salt : UInt64) (calls : ℕ) : after salt calls = ⟨salt, calls⟩ := by
  induction calls with
  | zero => rfl
  | succ calls ih =>
    rw [after, Function.iterate_succ_apply']
    exact congrArg tick ih

theorem answer_value (salt : UInt64) (i : ℕ) {t : IdTag} : (answer salt i : Id t).value = issue salt (i + 1) := by
  rw [answer, after_eq]
  rfl

/-! ## The bits of an id -/

theorem toNat_issue (salt : UInt64) (n : ℕ) : (issue salt n).toNat = (salt <<< 32).toNat ||| n % 2 ^ 64 := by
  rw [issue, UInt64.toNat_or, UInt64.toNat_ofNat']

theorem shifted_dvd (salt : UInt64) : 2 ^ 32 ∣ (salt <<< 32).toNat := by
  rw [UInt64.toNat_shiftLeft, Nat.shiftLeft_eq]
  exact (Nat.dvd_mod_iff (by decide)).2 (Dvd.intro_left _ rfl)

theorem shifted_le (salt : UInt64) : (salt <<< 32).toNat + 2 ^ 32 ≤ 2 ^ 64 := by
  have hlt : (salt <<< 32).toNat < 2 ^ 64 := UInt64.toNat_lt _
  have hdvd := shifted_dvd salt
  omega

/-- The largest power of two that divides the shifted salt. -/
theorem gcd_eq_pow (salt : UInt64) : ∃ k ≤ 64, Nat.gcd (salt <<< 32).toNat (2 ^ 64) = 2 ^ k :=
  (Nat.dvd_prime_pow Nat.prime_two).1 (Nat.gcd_dvd_right _ _)

/-- Below that power the salt leaves the call number as it is. -/
theorem issue_mod_gcd (salt : UInt64) (n : ℕ) :
    (issue salt n).toNat % Nat.gcd (salt <<< 32).toNat (2 ^ 64) = n % Nat.gcd (salt <<< 32).toNat (2 ^ 64) := by
  obtain ⟨k, hk, hg⟩ := gcd_eq_pow salt
  have hsalt : (salt <<< 32).toNat % 2 ^ k = 0 := Nat.mod_eq_zero_of_dvd (hg ▸ Nat.gcd_dvd_left _ _)
  rw [hg, toNat_issue, Nat.or_mod_two_pow, hsalt, Nat.zero_or, Nat.mod_mod_of_dvd _ (pow_dvd_pow 2 hk)]

/-- The bit of that power is set in the salt, if the power is a bit of an id. -/
theorem testBit_of_gcd {salt : UInt64} {k : ℕ} (hk : k < 64) (hg : Nat.gcd (salt <<< 32).toNat (2 ^ 64) = 2 ^ k) :
    (salt <<< 32).toNat.testBit k = true := by
  obtain ⟨q, hq⟩ : 2 ^ k ∣ (salt <<< 32).toNat := hg ▸ Nat.gcd_dvd_left _ _
  have hodd : q % 2 = 1 := by
    by_contra heven
    obtain ⟨q', rfl⟩ : 2 ∣ q := by omega
    have hdvd : 2 ^ (k + 1) ∣ Nat.gcd (salt <<< 32).toNat (2 ^ 64) := by
      refine Nat.dvd_gcd ⟨q', ?_⟩ (pow_dvd_pow 2 hk)
      rw [hq, pow_succ, mul_assoc]
    rw [hg, Nat.pow_dvd_pow_iff_le_right (by decide)] at hdvd
    omega
  rw [hq, Nat.testBit_two_pow_mul, Nat.sub_self, Nat.testBit_zero, decide_eq_true hodd]
  simp

/-- The call after that power answers what the first one did. -/
theorem issue_gcd_succ (salt : UInt64) :
    issue salt (Nat.gcd (salt <<< 32).toNat (2 ^ 64) + 1) = issue salt 1 := by
  obtain ⟨k, hk, hg⟩ := gcd_eq_pow salt
  apply UInt64.toNat.inj
  rw [toNat_issue, toNat_issue, hg]
  rcases hk.eq_or_lt with rfl | hk
  · rfl
  have hhalf : 32 ≤ k := by
    refine (Nat.pow_dvd_pow_iff_le_right (x := 2) (by decide)).1 (hg ▸ Nat.dvd_gcd ?_ (pow_dvd_pow 2 (by decide)))
    exact shifted_dvd salt
  have hsmall : 2 ^ k ≤ 2 ^ 63 := Nat.pow_le_pow_right (by decide) (by omega)
  have hlarge : 2 ^ 32 ≤ 2 ^ k := Nat.pow_le_pow_right (by decide) hhalf
  have hor : 2 ^ k + 1 = 2 ^ k ||| 1 := by
    have h := Nat.two_pow_add_eq_or_of_lt (show 1 < 2 ^ k by omega) 1
    rwa [mul_one] at h
  have habsorb : (salt <<< 32).toNat ||| 2 ^ k = (salt <<< 32).toNat := by
    apply Nat.eq_of_testBit_eq
    intro i
    rw [Nat.testBit_or, Nat.testBit_two_pow]
    by_cases hi : k = i
    · rw [← hi, testBit_of_gcd hk hg, Bool.true_or]
    · rw [decide_eq_false hi, Bool.or_false]
  rw [Nat.mod_eq_of_lt (by omega), hor, ← Nat.or_assoc, habsorb]
  rfl

/-- The call number that fills in every bit the salt does not have. -/
theorem issue_complement (salt : UInt64) : issue salt (2 ^ 64 - 1 - (salt <<< 32).toNat) = Id.invalidValue := by
  have hlt : (salt <<< 32).toNat < 2 ^ 64 := UInt64.toNat_lt _
  apply UInt64.toNat.inj
  rw [toNat_issue, Nat.mod_eq_of_lt (by omega), show (Id.invalidValue).toNat = 2 ^ 64 - 1 by rfl]
  apply Nat.eq_of_testBit_eq
  intro i
  rw [Nat.testBit_or, Nat.sub_sub, Nat.add_comm 1, Nat.testBit_two_pow_sub_succ hlt, Nat.testBit_two_pow_sub_one]
  cases hbit : (salt <<< 32).toNat.testBit i with
  | false => rw [Bool.not_false, Bool.and_true, Bool.false_or]
  | true =>
    have hi : i < 64 := by
      by_contra hi
      rw [Nat.testBit_lt_two_pow (hlt.trans_le (Nat.pow_le_pow_right (by decide) (by omega)))] at hbit
      cases hbit
    rw [Bool.true_or, decide_eq_true hi]

/-- No smaller call number does. -/
theorem complement_le {salt : UInt64} {n : ℕ} (h : issue salt n = Id.invalidValue) :
    2 ^ 64 - 1 - (salt <<< 32).toNat ≤ n := by
  have hlt : (salt <<< 32).toNat < 2 ^ 64 := UInt64.toNat_lt _
  have hnat : (salt <<< 32).toNat ||| n % 2 ^ 64 = 2 ^ 64 - 1 := by
    rw [← toNat_issue, h]
    rfl
  refine le_trans ?_ (Nat.mod_le n (2 ^ 64))
  apply Nat.le_of_testBit
  intro i hi
  rw [Nat.sub_sub, Nat.add_comm 1, Nat.testBit_two_pow_sub_succ hlt, Bool.and_eq_true, decide_eq_true_eq,
    Bool.not_eq_true'] at hi
  have hbit := congrArg (fun m => m.testBit i) hnat
  simpa only [Nat.testBit_or, hi.2, Bool.false_or, Nat.testBit_two_pow_sub_one, hi.1, decide_true] using hbit

/-! ## How far the ids reach -/

/-- **The ids of a factory are unique exactly as far as the salt leaves room**:
the first `n` are distinct and valid if and only if `n` is at most the largest
power of two that divides the shifted salt, and less than the call number that
fills in its zero bits. -/
theorem uniqueUpTo_iff (salt : UInt64) (n : ℕ) :
    UniqueUpTo salt n ↔
      n ≤ Nat.gcd (salt <<< 32).toNat (2 ^ 64) ∧ n + (salt <<< 32).toNat + 2 ≤ 2 ^ 64 := by
  have hshift := shifted_le salt
  have hpos : 0 < Nat.gcd (salt <<< 32).toNat (2 ^ 64) := Nat.gcd_pos_of_pos_right _ (by positivity)
  constructor
  · intro h
    obtain ⟨hdistinct, hvalid⟩ := h
    constructor
    · by_contra hlt
      refine hdistinct _ (not_le.1 hlt) 0 (hpos.trans (not_le.1 hlt)) hpos.ne' ?_
      rw [answer_value, answer_value, issue_gcd_succ]
    · by_contra hlt
      have hlast := hvalid (2 ^ 64 - 1 - (salt <<< 32).toNat - 1) (by omega)
      rw [Id.valid, answer_value, Nat.sub_add_cancel (by omega), issue_complement, bne_self_eq_false] at hlast
      cases hlast
  · intro h
    obtain ⟨hpow, hlast⟩ := h
    constructor
    · intro i hi j hj hne heq
      rw [answer_value, answer_value] at heq
      have hmod := issue_mod_gcd salt (i + 1)
      rw [heq, issue_mod_gcd] at hmod
      -- Both call numbers lie between 1 and the power, where the residue tells them apart.
      have hcall : j ≡ i [MOD Nat.gcd (salt <<< 32).toNat (2 ^ 64)] := Nat.ModEq.add_right_cancel' 1 hmod
      exact hne (hcall.eq_of_lt_of_lt (by omega) (by omega)).symm
    · intro i hi
      rw [Id.valid, answer_value, bne_iff_ne]
      intro hinvalid
      have hle := complement_le hinvalid
      omega

/-- With the salt 0x80000000, call number `2^63 + 1` answers what the first
one did. -/
theorem not_uniqueUpTo_all : ¬UniqueUpTo 0x80000000 (2 ^ 64 - 1) := by
  intro h
  refine h.1 (2 ^ 63) (by decide) 0 (by decide) (by decide) ?_
  rw [answer_value, answer_value]
  decide

end IdFactory

end InferenceScheduler
