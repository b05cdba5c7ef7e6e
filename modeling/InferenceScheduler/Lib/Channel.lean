/-
A reliable channel whose two ends are called in pieces.

An `Inlet` is the reading end: what has still to be read, in the pieces in
which the transport hands it over. No piece is empty, so a read that answers
nothing has met the end of the stream. An `Outlet` is the writing end: what
was written, and how much of each write the transport takes.
-/
import Mathlib.Data.List.Basic

namespace Channel

variable {α : Type}

/-! ## The reading end -/

structure Inlet (α : Type) where
  chunks : List (List α)
  nonempty : [] ∉ chunks

/-- Everything that is still to be read. -/
def Inlet.pending (i : Inlet α) : List α := i.chunks.flatten

/-- One read of at most `k` elements: the next piece, or as much of it. -/
def Inlet.read (k : ℕ) : Inlet α → List α × Inlet α
  | ⟨[], h⟩ => ([], ⟨[], h⟩)
  | ⟨c :: cs, h⟩ =>
    if hk : c.length ≤ k then (c, ⟨cs, fun hc => h (List.mem_cons_of_mem c hc)⟩)
    else (c.take k, ⟨c.drop k :: cs, fun hc => by
      rcases List.mem_cons.1 hc with hnil | hc
      · exact hk (List.drop_eq_nil_iff.1 hnil.symm)
      · exact h (List.mem_cons_of_mem c hc)⟩)

@[simp] theorem Inlet.read_append (i : Inlet α) (k : ℕ) : (i.read k).1 ++ (i.read k).2.pending = i.pending := by
  obtain ⟨_ | ⟨c, cs⟩, h⟩ := i
  · rfl
  · rw [read]
    split
    · rfl
    · simp only [pending, List.flatten_cons]
      rw [← List.append_assoc, List.take_append_drop]

theorem Inlet.read_length_le (i : Inlet α) (k : ℕ) : (i.read k).1.length ≤ k := by
  obtain ⟨_ | ⟨c, cs⟩, h⟩ := i
  · exact Nat.zero_le k
  · rw [read]
    split
    · next hk => exact hk
    · exact List.length_take_le k c

/-- A read that asks for something answers nothing at the end of the stream only. -/
theorem Inlet.read_eq_nil_iff (i : Inlet α) {k : ℕ} (hk : 0 < k) : (i.read k).1 = [] ↔ i.pending = [] := by
  obtain ⟨_ | ⟨c, cs⟩, h⟩ := i
  · exact iff_of_true rfl rfl
  · have hc : c ≠ [] := fun hnil => h (by rw [hnil]; exact List.mem_cons_self)
    have hpending : (⟨c :: cs, h⟩ : Inlet α).pending ≠ [] := by
      simp only [pending, List.flatten_cons]
      exact List.append_ne_nil_of_left_ne_nil hc _
    refine iff_of_false ?_ hpending
    rw [read]
    split
    · exact hc
    · intro hnil
      rcases List.take_eq_nil_iff.1 hnil with h0 | h0
      · omega
      · exact hc h0

/-! ## The writing end -/

/-- `accepts n` is how much the transport takes in the write after `n` others. -/
structure Outlet (α : Type) where
  accepts : ℕ → ℕ
  writes : List (List α)

/-- Everything that was written. -/
def Outlet.sent (o : Outlet α) : List α := o.writes.flatten

/-- One write: how much was taken of what was offered. -/
def Outlet.write (xs : List α) (o : Outlet α) : ℕ × Outlet α :=
  let n := min (o.accepts o.writes.length) xs.length
  (n, { o with writes := o.writes ++ [xs.take n] })

/-- No write fails. -/
def Outlet.Reliable (o : Outlet α) : Prop := ∀ n, 0 < o.accepts n

@[simp] theorem Outlet.write_sent (xs : List α) (o : Outlet α) :
    (o.write xs).2.sent = o.sent ++ xs.take (o.write xs).1 := by
  simp [sent, write]

theorem Outlet.Reliable.write_pos {o : Outlet α} (h : o.Reliable) {xs : List α} (hxs : xs ≠ []) :
    0 < (o.write xs).1 :=
  Nat.lt_min.2 ⟨h _, List.length_pos_iff.2 hxs⟩

end Channel
