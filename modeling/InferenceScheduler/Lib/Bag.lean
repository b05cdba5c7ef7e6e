/-
Two list-backed containers: a set with an enumeration order, and a priority
queue.

`USet` is a list without repetition; what a program reads of it is
membership, size and the enumeration. `Heap r` keeps its entries in the
order `r`, the entry served next at the head; pushing inserts in order, so
the head is always an `r`-least entry.
-/
import Mathlib.Data.Finset.Basic
import Mathlib.Data.List.Sort
import Mathlib.Data.List.Nodup

universe u

/-- A set with an enumeration order. -/
structure USet (α : Type u) where
  elems : List α
  nodup : elems.Nodup

namespace USet

variable {α : Type u}

instance : EmptyCollection (USet α) := ⟨⟨[], List.nodup_nil⟩⟩

instance : Membership α (USet α) := ⟨fun s a => a ∈ s.elems⟩

theorem mem_def {s : USet α} {a : α} : a ∈ s ↔ a ∈ s.elems := Iff.rfl

@[simp] theorem notMem_empty (a : α) : a ∉ (∅ : USet α) := List.not_mem_nil

theorem eq_empty {s : USet α} (h : ∀ a, a ∉ s) : s = ∅ := by
  obtain ⟨elems, nodup⟩ := s
  obtain rfl : elems = [] := List.eq_nil_iff_forall_not_mem.2 h
  rfl

/-- The number of elements. -/
def size (s : USet α) : ℕ := s.elems.length

/-- Whether there is no element. -/
def isEmpty (s : USet α) : Bool := s.elems.isEmpty

theorem isEmpty_iff {s : USet α} : s.isEmpty = true ↔ ∀ a, a ∉ s := by
  simp only [isEmpty, List.isEmpty_iff, List.eq_nil_iff_forall_not_mem, mem_def]

variable [DecidableEq α]

instance (a : α) (s : USet α) : Decidable (a ∈ s) := inferInstanceAs (Decidable (a ∈ s.elems))

/-- Add an element, once. -/
def insert (s : USet α) (a : α) : USet α := ⟨s.elems.insert a, s.nodup.insert⟩

/-- Remove an element. -/
def erase (s : USet α) (a : α) : USet α := ⟨s.elems.erase a, s.nodup.erase a⟩

@[simp] theorem mem_insert {s : USet α} {a b : α} : a ∈ s.insert b ↔ a = b ∨ a ∈ s :=
  List.mem_insert_iff

@[simp] theorem mem_erase {s : USet α} {a b : α} : a ∈ s.erase b ↔ a ≠ b ∧ a ∈ s :=
  s.nodup.mem_erase_iff

theorem size_insert {s : USet α} {a : α} (h : a ∉ s) : (s.insert a).size = s.size + 1 :=
  List.length_insert_of_not_mem h

theorem size_erase {s : USet α} {a : α} (h : a ∈ s) : (s.erase a).size + 1 = s.size := by
  have hl := List.length_erase_of_mem (mem_def.1 h)
  have hpos := List.length_pos_of_mem (mem_def.1 h)
  simp only [size, erase]
  omega

theorem erase_of_notMem {s : USet α} {a : α} (h : a ∉ s) : s.erase a = s := by
  cases s; simp only [erase, List.erase_of_not_mem (mt mem_def.2 h)]

/-- The elements without their enumeration order. -/
def toFinset (s : USet α) : Finset α := ⟨s.elems, s.nodup⟩

omit [DecidableEq α] in
@[simp] theorem mem_toFinset {s : USet α} {a : α} : a ∈ s.toFinset ↔ a ∈ s := Iff.rfl

omit [DecidableEq α] in
theorem perm_of_toFinset {s t : USet α} (h : s.toFinset = t.toFinset) : s.elems.Perm t.elems :=
  Multiset.coe_eq_coe.1 (congrArg Finset.val h)

omit [DecidableEq α] in
theorem isEmpty_iff_toFinset {s : USet α} : s.isEmpty = true ↔ s.toFinset = ∅ := by
  rw [isEmpty_iff, Finset.eq_empty_iff_forall_notMem]
  rfl

@[simp] theorem toFinset_insert (s : USet α) (a : α) : (s.insert a).toFinset = Insert.insert a s.toFinset := by
  ext b
  simp

@[simp] theorem toFinset_erase (s : USet α) (a : α) : (s.erase a).toFinset = s.toFinset.erase a := by
  ext b
  simp

end USet

/-- A priority queue whose entries stand in the order `r`. -/
structure Heap {α : Type u} (r : α → α → Prop) where
  entries : List α
  sorted : entries.Pairwise r

namespace Heap

variable {α : Type u} {r : α → α → Prop}

instance : EmptyCollection (Heap r) := ⟨⟨[], List.Pairwise.nil⟩⟩

/-- The entry served next. -/
def top? (h : Heap r) : Option α := h.entries.head?

/-- Whether there is no entry. -/
def isEmpty (h : Heap r) : Bool := h.entries.isEmpty

/-- Drop the first `n` entries served. -/
def popN (h : Heap r) (n : ℕ) : Heap r := ⟨h.entries.drop n, h.sorted.drop⟩

@[simp] theorem entries_empty : (∅ : Heap r).entries = [] := rfl

/-- Dropping entries that do not count. -/
theorem countP_drop {l : List α} {n : ℕ} {p : α → Bool} (hp : ∀ a ∈ l.take n, p a = false) :
    (l.drop n).countP p = l.countP p := by
  have hzero : (l.take n).countP p = 0 := List.countP_eq_zero.2 fun a ha => by simp [hp a ha]
  conv_rhs => rw [← List.take_append_drop n l, List.countP_append, hzero, Nat.zero_add]

theorem isEmpty_iff {h : Heap r} : h.isEmpty = true ↔ h.entries = [] := by
  simp only [isEmpty, List.isEmpty_iff]

/-- The first entry of a kind comes before every other of the kind. -/
theorem before_of_find? [Std.Total r] {h : Heap r} {p : α → Bool} {a b : α} (ha : h.entries.find? p = some a)
    (hb : b ∈ h.entries) (hp : p b = true) : r a b := by
  obtain ⟨_, front, back, heq, hfront⟩ := List.find?_eq_some_iff_append.1 ha
  have hsorted := h.sorted
  rw [heq] at hb hsorted
  rcases List.mem_append.1 hb with hb | hb
  · exact absurd (hfront b hb) (by simp [hp])
  · rcases List.mem_cons.1 hb with rfl | hb
    · exact refl_of r b
    · exact List.rel_of_pairwise_cons (List.pairwise_append.1 hsorted).2.1 hb

variable [DecidableRel r] [Std.Total r] [IsTrans α r]

/-- Add an entry at its place in the order. -/
def push (h : Heap r) (a : α) : Heap r :=
  ⟨h.entries.orderedInsert r a, h.sorted.orderedInsert a _⟩

theorem perm_push (h : Heap r) (a : α) : (h.push a).entries.Perm (a :: h.entries) :=
  List.perm_orderedInsert r a h.entries

@[simp] theorem mem_push {h : Heap r} {a b : α} : b ∈ (h.push a).entries ↔ b = a ∨ b ∈ h.entries := by
  rw [(perm_push h a).mem_iff, List.mem_cons]

theorem countP_push (h : Heap r) (a : α) (p : α → Bool) :
    (h.push a).entries.countP p = h.entries.countP p + if p a then 1 else 0 := by
  rw [(perm_push h a).countP_eq, List.countP_cons]

end Heap
