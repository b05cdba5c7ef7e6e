/-
The 64-bit floating-point format, over exact rationals.

A pattern of 64 bits has a sign, an exponent field of 11 bits and a fraction of
52 bits. Its value is the significand times a power of two; the patterns with
the largest exponent field, infinities and not-a-numbers, have none. `bits`
finds a pattern for a rational that has one.
-/
import Mathlib.Algebra.Order.Field.Rat
import Mathlib.Data.Rat.Defs
import Mathlib.Tactic.FieldSimp
import Mathlib.Tactic.Linarith
import Mathlib.Tactic.Positivity
import Mathlib.Tactic.Ring

namespace Binary64

/-- What the exponent fields are counted from: the unit of a significand under
the field `e` is `2 ^ e / scale`. -/
def scale : ℕ := 2 ^ 1075

/-- The magnitude with an exponent field and a significand; the least field
shares its unit with the next. -/
def magnitude (e m : ℕ) : ℚ := m * 2 ^ max e 1 / scale

/-- Whether a significand goes with an exponent field: the leading bit is
there unless the field is the least. -/
def Normal (e m : ℕ) : Prop := e < 2047 ∧ m < 2 ^ 53 ∧ (e = 0 ↔ m < 2 ^ 52)

instance (e m : ℕ) : Decidable (Normal e m) := inferInstanceAs (Decidable (_ ∧ _ ∧ _))

/-- The value of a pattern, if it has one. -/
def value (v : UInt64) : Option ℚ :=
  let n := v.toNat
  let e := n / 2 ^ 52 % 2 ^ 11
  let m := n % 2 ^ 52 + if e = 0 then 0 else 2 ^ 52
  if e = 2047 then none else some (if n / 2 ^ 63 = 0 then magnitude e m else -magnitude e m)

/-- The significand of a rational under an exponent field, rounded down. -/
def significand (q : ℚ) (e : ℕ) : ℕ := q.num.natAbs * scale / (q.den * 2 ^ max e 1)

/-- Whether the rational has a significand under an exponent field. -/
def Exact (q : ℚ) (e : ℕ) : Prop :=
  Normal e (significand q e) ∧ significand q e * (q.den * 2 ^ max e 1) = q.num.natAbs * scale

instance (q : ℚ) (e : ℕ) : Decidable (Exact q e) := inferInstanceAs (Decidable (_ ∧ _))

/-- The exponent fields, that of zero first and then those of the values near
one. -/
def exponents : List ℕ := 0 :: (List.range 1024).flatMap fun i => [1023 - i, 1023 + i]

/-- The pattern of a sign, an exponent field and a significand. -/
def pattern (negative : Bool) (e m : ℕ) : UInt64 :=
  UInt64.ofNat ((if negative then 2 ^ 63 else 0) + e * 2 ^ 52 + m % 2 ^ 52)

/-- A pattern with this value under one of the exponent fields, zero if there
is none. -/
def bitsFrom (q : ℚ) : List ℕ → UInt64
  | [] => 0
  | e :: es => if Exact q e then pattern (decide (q < 0)) e (significand q e) else bitsFrom q es

@[irreducible] def bits (q : ℚ) : UInt64 := bitsFrom q exponents

/-- The rationals that have a pattern. -/
def IsDouble (q : ℚ) : Prop := ∃ v, value v = some q

theorem mem_exponents {e : ℕ} (h : e < 2047) : e ∈ exponents := by
  refine List.mem_cons_of_mem 0 (List.mem_flatMap.2 ?_)
  by_cases he : e ≤ 1023
  · exact ⟨1023 - e, by simp; omega, by simp; omega⟩
  · exact ⟨e - 1023, by simp; omega, by simp; omega⟩

theorem scale_pos : 0 < scale := by
  rw [scale]
  positivity

theorem abs_eq_natAbs_div (q : ℚ) : |q| = q.num.natAbs / q.den := by
  conv_lhs => rw [← Rat.num_div_den q]
  rw [abs_div, Nat.abs_cast, ← Int.cast_abs, Int.abs_eq_natAbs]
  rfl

theorem magnitude_nonneg (e m : ℕ) : 0 ≤ magnitude e m := by
  rw [magnitude]
  positivity

theorem value_pattern {negative : Bool} {e m : ℕ} (h : Normal e m) :
    value (pattern negative e m) = some (if negative then -magnitude e m else magnitude e m) := by
  obtain ⟨he, hm, hlead⟩ := h
  have hn : (pattern negative e m).toNat = (if negative then 2 ^ 63 else 0) + e * 2 ^ 52 + m % 2 ^ 52 := by
    rw [pattern, UInt64.toNat_ofNat_of_lt']
    show _ < 2 ^ 64
    cases negative <;> simp <;> omega
  have hfield : (pattern negative e m).toNat / 2 ^ 52 % 2 ^ 11 = e := by
    rw [hn]
    cases negative <;> simp <;> omega
  have hsig : (pattern negative e m).toNat % 2 ^ 52 + (if e = 0 then 0 else 2 ^ 52) = m := by
    rw [hn]
    by_cases h0 : e = 0
    · have hsmall := hlead.1 h0
      rw [if_pos h0]
      cases negative <;> simp <;> omega
    · have hlarge : ¬m < 2 ^ 52 := fun hlt => h0 (hlead.2 hlt)
      rw [if_neg h0]
      cases negative <;> simp <;> omega
  have hsign : ((pattern negative e m).toNat / 2 ^ 63 = 0) ↔ negative = false := by
    rw [hn]
    cases negative <;> simp <;> omega
  simp only [value, hfield, hsig, hsign, if_neg he.ne]
  cases negative <;> rfl

/-- A value has a normal significand under some exponent field. -/
theorem exists_normal {v : UInt64} {q : ℚ} (h : value v = some q) : ∃ e m, Normal e m ∧ |q| = magnitude e m := by
  simp only [value] at h
  split at h
  · cases h
  · next he =>
    have hq := Option.some.inj h
    refine ⟨v.toNat / 2 ^ 52 % 2 ^ 11, v.toNat % 2 ^ 52 + if v.toNat / 2 ^ 52 % 2 ^ 11 = 0 then 0 else 2 ^ 52,
      ⟨by omega, ?_, ?_⟩, ?_⟩
    · split <;> omega
    · split <;> omega
    · have hpos := magnitude_nonneg (v.toNat / 2 ^ 52 % 2 ^ 11)
        (v.toNat % 2 ^ 52 + if v.toNat / 2 ^ 52 % 2 ^ 11 = 0 then 0 else 2 ^ 52)
      rw [← hq]
      split
      · exact abs_of_nonneg hpos
      · rw [abs_neg, abs_of_nonneg hpos]

/-- A magnitude in whole numbers. -/
theorem abs_eq_magnitude_iff {q : ℚ} {e m : ℕ} :
    |q| = magnitude e m ↔ m * (q.den * 2 ^ max e 1) = q.num.natAbs * scale := by
  have hden : (q.den : ℚ) ≠ 0 := by exact_mod_cast q.den_ne_zero
  have hscale : (scale : ℚ) ≠ 0 := by exact_mod_cast scale_pos.ne'
  rw [abs_eq_natAbs_div, magnitude, div_eq_div_iff hden hscale, ← Nat.cast_inj (R := ℚ)]
  push_cast
  constructor <;> intro h <;> linarith

/-- The significand of a magnitude under its own exponent field is exact. -/
theorem exact_of_magnitude {q : ℚ} {e m : ℕ} (h : Normal e m) (hq : |q| = magnitude e m) : Exact q e := by
  have hmul := abs_eq_magnitude_iff.1 hq
  have hsig : significand q e = m := by
    rw [significand, ← hmul]
    exact Nat.mul_div_cancel _ (Nat.mul_pos q.den_pos (Nat.two_pow_pos _))
  exact ⟨by rwa [hsig], by rw [hsig]; exact hmul⟩

theorem value_bitsFrom {q : ℚ} {e : ℕ} (h : Exact q e) {es : List ℕ} (hmem : e ∈ es) :
    value (bitsFrom q es) = some q := by
  induction es with
  | nil => cases hmem
  | cons e' es ih =>
    rw [bitsFrom]
    split
    · next hexact =>
      rw [value_pattern hexact.1, ← abs_eq_magnitude_iff.2 hexact.2]
      by_cases hneg : q < 0
      · simp only [hneg, decide_true, ↓reduceIte, abs_of_neg hneg, neg_neg]
      · simp only [hneg, decide_false, Bool.false_eq_true, ↓reduceIte, abs_of_nonneg (not_lt.1 hneg)]
    · next hnot =>
      rcases List.mem_cons.1 hmem with rfl | hes
      · exact absurd h hnot
      · exact ih hes

/-- **The pattern of a rational that has one has its value.** -/
theorem value_bits {q : ℚ} (h : IsDouble q) : value (bits q) = some q := by
  obtain ⟨v, hv⟩ := h
  obtain ⟨e, m, hn, hq⟩ := exists_normal hv
  unfold bits
  exact value_bitsFrom (exact_of_magnitude hn hq) (mem_exponents hn.1)

instance (q : ℚ) : Decidable (IsDouble q) := decidable_of_iff (value (bits q) = some q) ⟨fun h => ⟨bits q, h⟩, value_bits⟩

end Binary64
