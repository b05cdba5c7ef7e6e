/-
Finite maps as association lists with distinct keys, for programs that sum
over a map while they update it one key at a time.

`Table` is Mathlib's `AList` at a constant family; what is added is the sum
of a function over the entries and how an insert or an erase moves it.
`Keyed` is a table of records each of which knows its own key, so that a
record is stored under its key by construction.
-/
import Mathlib.Data.List.AList
import Mathlib.Algebra.BigOperators.Group.List.Basic
import Mathlib.Algebra.Order.BigOperators.Group.List
import Mathlib.Tactic.Ring

universe u v

/-- A finite map with an enumeration order. -/
abbrev Table (κ : Type u) (ν : Type v) := AList fun _ : κ => ν

namespace Table

variable {κ : Type u} {ν : Type v}

/-- The sum of `f` over the entries. -/
def sum (t : Table κ ν) (f : κ → ν → ℤ) : ℤ := (t.entries.map fun e => f e.1 e.2).sum

@[simp] theorem sum_empty (f : κ → ν → ℤ) : sum (∅ : Table κ ν) f = 0 := rfl

theorem sum_add (t : Table κ ν) (f g : κ → ν → ℤ) :
    t.sum (fun k v => f k v + g k v) = t.sum f + t.sum g := by
  simp only [sum]
  induction t.entries with
  | nil => rfl
  | cons e es ih => simp only [List.map_cons, List.sum_cons, ih]; ring

theorem sum_neg (t : Table κ ν) (f : κ → ν → ℤ) : t.sum (fun k v => -f k v) = -t.sum f := by
  simp only [sum]
  induction t.entries with
  | nil => rfl
  | cons e es ih => simp only [List.map_cons, List.sum_cons, ih]; ring

variable [DecidableEq κ]

theorem mem_entries {t : Table κ ν} {k : κ} {v : ν} : ⟨k, v⟩ ∈ t.entries ↔ t.lookup k = some v := by
  rw [← AList.mem_lookup_iff, Option.mem_def]

theorem mem_iff {t : Table κ ν} {k : κ} : k ∈ t ↔ ∃ v, t.lookup k = some v := by
  rw [← AList.lookup_isSome, Option.isSome_iff_exists]

theorem mem_of_lookup {t : Table κ ν} {k : κ} {v : ν} (h : t.lookup k = some v) : k ∈ t :=
  mem_iff.2 ⟨v, h⟩

theorem lookup_insert_eq (t : Table κ ν) (k k' : κ) (v : ν) :
    (t.insert k v).lookup k' = if k = k' then some v else t.lookup k' := by
  by_cases h : k = k'
  · subst h; simp
  · rw [AList.lookup_insert_ne (Ne.symm h), if_neg h]

theorem lookup_erase_eq (t : Table κ ν) (k k' : κ) :
    (t.erase k).lookup k' = if k = k' then none else t.lookup k' := by
  by_cases h : k = k'
  · subst h; simp
  · rw [AList.lookup_erase_ne (Ne.symm h), if_neg h]

theorem sum_congr {t : Table κ ν} {f g : κ → ν → ℤ}
    (h : ∀ k v, t.lookup k = some v → f k v = g k v) : t.sum f = t.sum g := by
  simp only [sum]
  congr 1
  exact List.map_congr_left fun e he => h e.1 e.2 (mem_entries.1 he)

theorem sum_nonneg {t : Table κ ν} {f : κ → ν → ℤ} (h : ∀ k v, t.lookup k = some v → 0 ≤ f k v) :
    0 ≤ t.sum f := by
  refine List.sum_nonneg fun x hx => ?_
  obtain ⟨e, he, rfl⟩ := List.mem_map.1 hx
  exact h e.1 e.2 (mem_entries.1 he)

theorem sum_eq_zero {t : Table κ ν} {f : κ → ν → ℤ} (h : ∀ k v, t.lookup k = some v → f k v = 0) :
    t.sum f = 0 := by
  rw [sum_congr (g := fun _ _ => 0) h]
  simp [sum]

theorem eq_empty_of_lookup {t : Table κ ν} (h : ∀ k, t.lookup k = none) : t = ∅ := by
  apply AList.ext
  rw [AList.empty_entries, List.eq_nil_iff_forall_not_mem]
  intro e he
  have he' : t.lookup e.1 = some e.2 := mem_entries.1 he
  rw [h e.1] at he'
  cases he'

theorem entries_erase (t : Table κ ν) (k : κ) : (t.erase k).entries = t.entries.kerase k := rfl

/-- Erasing a key takes its value out of the sum. -/
theorem sum_erase {t : Table κ ν} {f : κ → ν → ℤ} {k : κ} {v : ν} (h : t.lookup k = some v) :
    sum (t.erase k) f = t.sum f - f k v := by
  have hmem : k ∈ t.entries.keys := mem_of_lookup h
  obtain ⟨w, l₁, l₂, -, hl, hk⟩ := List.exists_of_kerase hmem
  have hw : w = v := by
    have : t.lookup k = some w := mem_entries.1 (by rw [hl]; simp)
    rw [h] at this
    exact (Option.some.inj this).symm
  subst hw
  simp only [sum, entries_erase, hk]
  simp only [hl, List.map_append, List.map_cons, List.sum_append, List.sum_cons]
  ring

theorem sum_erase_of_none {t : Table κ ν} {f : κ → ν → ℤ} {k : κ} (h : t.lookup k = none) :
    sum (t.erase k) f = t.sum f := by
  have hk : k ∉ t.entries.keys := AList.lookup_eq_none.1 h
  simp only [sum, entries_erase, List.kerase_of_notMem_keys hk]

theorem sum_insert_erase (t : Table κ ν) (f : κ → ν → ℤ) (k : κ) (v : ν) :
    sum (t.insert k v) f = f k v + sum (t.erase k) f := by
  simp [sum, AList.insert, entries_erase, List.kinsert_def]

/-- Summing another function that differs at one key only. -/
theorem sum_eq_of_ne {t : Table κ ν} {f g : κ → ν → ℤ} {k : κ} {v : ν} (h : t.lookup k = some v)
    (hne : ∀ k' v', k' ≠ k → f k' v' = g k' v') : t.sum g = t.sum f - f k v + g k v := by
  have hrest : sum (t.erase k) f = sum (t.erase k) g := by
    refine sum_congr fun k' v' hk' => hne k' v' ?_
    intro heq
    subst heq
    simp at hk'
  rw [sum_erase h, sum_erase h] at hrest
  omega

/-- Overwriting a key exchanges its value in the sum. -/
theorem sum_insert {t : Table κ ν} {f : κ → ν → ℤ} {k : κ} {v w : ν} (h : t.lookup k = some v) :
    sum (t.insert k w) f = t.sum f - f k v + f k w := by
  rw [sum_insert_erase, sum_erase h]; ring

/-- A new key adds its value to the sum. -/
theorem sum_insert_of_none {t : Table κ ν} {f : κ → ν → ℤ} {k : κ} {w : ν} (h : t.lookup k = none) :
    sum (t.insert k w) f = t.sum f + f k w := by
  rw [sum_insert_erase, sum_erase_of_none h]; ring

theorem le_sum {t : Table κ ν} {f : κ → ν → ℤ} {k : κ} {v : ν} (h : t.lookup k = some v)
    (hf : ∀ k v, t.lookup k = some v → 0 ≤ f k v) : f k v ≤ t.sum f := by
  have hrest : 0 ≤ sum (t.erase k) f := by
    refine sum_nonneg fun k' v' hk' => ?_
    rw [lookup_erase_eq] at hk'
    split at hk'
    · cases hk'
    · exact hf k' v' hk'
  rw [sum_erase h] at hrest
  omega

end Table

/-- A table of records under their own keys. -/
structure Keyed {κ : Type u} {ν : Type v} [DecidableEq κ] (key : ν → κ) where
  table : Table κ ν
  keyed : ∀ {k v}, table.lookup k = some v → key v = k

namespace Keyed

variable {κ : Type u} {ν : Type v} [DecidableEq κ] {key : ν → κ}

instance : EmptyCollection (Keyed key) := ⟨⟨∅, by simp⟩⟩

/-- The record stored under `k`. -/
def find (t : Keyed key) (k : κ) : Option ν := t.table.lookup k

/-- Store a record under its own key, over the one already there. -/
def put (t : Keyed key) (v : ν) : Keyed key where
  table := t.table.insert (key v) v
  keyed := by
    intro k w h
    rw [Table.lookup_insert_eq] at h
    split at h
    · next hk => cases h; exact hk
    · exact t.keyed h

/-- Store a record under its own key, unless there is one already. -/
def insertNew (t : Keyed key) (v : ν) : Keyed key :=
  match t.find (key v) with
  | some _ => t
  | none => t.put v

/-- Write every record, under its key. -/
def modify (t : Keyed key) (f : ν → ν) (hf : ∀ v, key (f v) = key v) : Keyed key where
  table := ⟨t.table.entries.map fun e => ⟨e.1, f e.2⟩, by
    have hkeys : (t.table.entries.map fun e => (⟨e.1, f e.2⟩ : Sigma fun _ : κ => ν)).keys = t.table.entries.keys := by
      simp only [List.keys, List.map_map]
      rfl
    rw [List.NodupKeys, hkeys]
    exact t.table.nodupKeys⟩
  keyed := by
    intro k v h
    obtain ⟨e, he, heq⟩ := List.mem_map.1 (Table.mem_entries.2 h)
    cases heq
    rw [hf]
    exact t.keyed (Table.mem_entries.1 he)

/-- Drop the record stored under `k`. -/
def erase (t : Keyed key) (k : κ) : Keyed key where
  table := t.table.erase k
  keyed := by
    intro k' w h
    rw [Table.lookup_erase_eq] at h
    split at h
    · cases h
    · exact t.keyed h

/-- The records, in the enumeration order. -/
def records (t : Keyed key) : List ν := t.table.entries.map (·.2)

/-- The sum of `f` over the records. -/
def sum (t : Keyed key) (f : ν → ℤ) : ℤ := t.table.sum fun _ v => f v

theorem key_of_find {t : Keyed key} {k : κ} {v : ν} (h : t.find k = some v) : key v = k := t.keyed h

theorem find_key {t : Keyed key} {k : κ} {v : ν} (h : t.find k = some v) : t.find (key v) = some v := by
  rw [key_of_find h]; exact h

@[simp] theorem find_empty (k : κ) : (∅ : Keyed key).find k = none := rfl

theorem find_put (t : Keyed key) (v : ν) (k : κ) :
    (t.put v).find k = if key v = k then some v else t.find k :=
  Table.lookup_insert_eq _ _ _ _

@[simp] theorem find_put_self (t : Keyed key) (v : ν) : (t.put v).find (key v) = some v := by
  rw [find_put, if_pos rfl]

theorem find_put_ne (t : Keyed key) {v : ν} {k : κ} (h : key v ≠ k) : (t.put v).find k = t.find k := by
  rw [find_put, if_neg h]

/-- What is found after a store is what was stored or was there before. -/
theorem find_put_cases {t : Keyed key} {k : κ} {u v : ν} (h : (t.put v).find k = some u) :
    v = u ∧ key v = k ∨ key v ≠ k ∧ t.find k = some u := by
  rw [find_put] at h
  split at h
  · next hk => exact .inl ⟨Option.some.inj h, hk⟩
  · next hk => exact .inr ⟨hk, h⟩

/-- Storing `w` over `v` changes no other record. -/
theorem find_put_over {t : Keyed key} {k : κ} {u v w : ν} (hv : t.find (key v) = some v) (hw : key w = key v)
    (hu : t.find k = some u) : ∃ u', (t.put w).find k = some u' ∧ (u' = u ∨ u = v ∧ u' = w) := by
  rw [find_put, hw]
  split
  · next hk =>
    refine ⟨w, rfl, .inr ⟨?_, rfl⟩⟩
    rw [hk, hu] at hv
    exact Option.some.inj hv
  · exact ⟨u, hu, .inl rfl⟩

theorem put_put (t : Keyed key) {v w : ν} (h : key v = key w) : (t.put v).put w = t.put w := by
  have hins : (t.table.insert (key v) v).insert (key w) w = t.table.insert (key w) w := by
    rw [h]
    exact AList.insert_insert _
  simp only [put, hins]

theorem find_erase (t : Keyed key) (k k' : κ) :
    (t.erase k).find k' = if k = k' then none else t.find k' :=
  Table.lookup_erase_eq _ _ _

theorem mem_records {t : Keyed key} {v : ν} : v ∈ t.records ↔ t.find (key v) = some v := by
  simp only [records, List.mem_map]
  constructor
  · intro hx
    obtain ⟨e, he, rfl⟩ := hx
    exact find_key (Table.mem_entries.1 he)
  · intro h
    exact ⟨⟨key v, v⟩, Table.mem_entries.2 h, rfl⟩

/-- A property of the stored records, as one of the enumeration. -/
theorem forall_find {t : Keyed key} {P : ν → Prop} (h : ∀ v ∈ t.records, P v) :
    ∀ k v, t.find k = some v → P v :=
  fun _ v hv => h v (mem_records.2 (find_key hv))

theorem find_insertNew (t : Keyed key) (v : ν) (k : κ) :
    (t.insertNew v).find k = (t.find k).or (if key v = k then some v else none) := by
  unfold insertNew
  split
  · next w hw =>
    by_cases hk : key v = k
    · rw [← hk, hw]
      rfl
    · rw [if_neg hk, Option.or_none]
  · next hnone =>
    rw [find_put]
    by_cases hk : key v = k
    · rw [if_pos hk, if_pos hk, ← hk, hnone]
      rfl
    · rw [if_neg hk, if_neg hk, Option.or_none]

/-- Of the records stored one after another, the first under a key stays. -/
theorem find_foldl_insertNew (l : List ν) (t : Keyed key) (k : κ) :
    (l.foldl insertNew t).find k = (t.find k).or (l.find? fun v => decide (key v = k)) := by
  induction l generalizing t with
  | nil => rw [List.foldl_nil, List.find?_nil, Option.or_none]
  | cons v l ih =>
    rw [List.foldl_cons, ih, find_insertNew, Option.or_assoc]
    congr 1
    by_cases hk : key v = k <;> simp [hk]

theorem find_modify (t : Keyed key) {f : ν → ν} (hf : ∀ v, key (f v) = key v) (k : κ) :
    (t.modify f hf).find k = (t.find k).map f := by
  cases h : t.find k with
  | some v =>
    refine Table.mem_entries.1 (List.mem_map.2 ⟨⟨k, v⟩, Table.mem_entries.2 h, rfl⟩)
  | none =>
    rw [Option.map_none]
    by_contra hne
    obtain ⟨w, hw⟩ := Option.ne_none_iff_exists'.1 hne
    obtain ⟨e, he, heq⟩ := List.mem_map.1 (Table.mem_entries.2 hw)
    cases heq
    have hfound : t.find e.1 = some e.2 := Table.mem_entries.1 he
    rw [h] at hfound
    cases hfound

theorem nodup_records (t : Keyed key) : (t.records.map key).Nodup := by
  have hkeys : t.records.map key = t.table.entries.keys := by
    rw [records, List.map_map]
    exact List.map_congr_left fun e he => t.keyed (Table.mem_entries.1 he)
  rw [hkeys]
  exact t.table.nodupKeys

/-- Records of different keys written one after another. -/
theorem find_foldl_put {g : ν → ν} (hg : ∀ v, key (g v) = key v) : ∀ {l : List ν}, (l.map key).Nodup →
    ∀ (t : Keyed key) (k : κ), (l.foldl (fun t v => t.put (g v)) t).find k =
      ((l.find? fun v => decide (key v = k)).map g).or (t.find k)
  | [], _, t, k => rfl
  | v :: l, hl, t, k => by
    rw [List.map_cons, List.nodup_cons] at hl
    rw [List.foldl_cons, find_foldl_put hg hl.2, find_put, hg]
    by_cases hk : key v = k
    · have hrest : l.find? (fun v => decide (key v = k)) = none := by
        rw [List.find?_eq_none]
        intro w hw hwk
        exact hl.1 (List.mem_map.2 ⟨w, hw, (of_decide_eq_true hwk).trans hk.symm⟩)
      rw [hrest, if_pos hk, List.find?_cons_of_pos (by simpa using hk)]
      rfl
    · rw [if_neg hk, List.find?_cons_of_neg (by simpa using hk)]

/-- The record under a key, among those with a property. -/
theorem find?_filter_records (t : Keyed key) (p : ν → Bool) (k : κ) :
    ((t.records.filter p).find? fun v => decide (key v = k)) = (t.find k).filter p := by
  have honly : ∀ w ∈ t.records.filter p, key w = k → t.find k = some w ∧ p w = true := by
    intro w hw hk
    obtain ⟨hmem, hp⟩ := List.mem_filter.1 hw
    exact ⟨hk ▸ mem_records.1 hmem, hp⟩
  cases hfind : (t.records.filter p).find? fun v => decide (key v = k) with
  | some w =>
    have hk : key w = k := by simpa using List.find?_some hfind
    obtain ⟨hw, hp⟩ := honly w (List.mem_of_find?_eq_some hfind) hk
    rw [hw, Option.filter_some, if_pos hp]
  | none =>
    rw [List.find?_eq_none] at hfind
    cases h : t.find k with
    | none => rfl
    | some v =>
      by_cases hp : p v = true
      · have hmem : v ∈ t.records.filter p := List.mem_filter.2 ⟨mem_records.2 (find_key h), hp⟩
        exact absurd (by simpa using key_of_find h) (hfind v hmem)
      · rw [Option.filter_some, if_neg hp]

/-- A table stored anew record by record, each one rewritten under its key. -/
theorem find_rebuild {ν' : Type*} {key' : ν' → κ} (t : Keyed key) (g : ν → ν') (hg : ∀ v, key' (g v) = key v)
    {l : List ν'} (hl : l = t.records.map g) (k : κ) :
    (l.foldl insertNew (∅ : Keyed key')).find k = (t.find k).map g := by
  have hkey : (fun v => decide (key' v = k)) ∘ g = fun v => decide (key v = k) := by
    funext v
    simp only [Function.comp_apply, hg]
  have hall : (t.records.find? fun v => decide (key v = k)) = t.find k := by
    have hfilter := t.find?_filter_records (fun _ => true) k
    rw [List.filter_true] at hfilter
    rw [hfilter]
    cases t.find k <;> rfl
  rw [hl, find_foldl_insertNew, find_empty, Option.none_or, List.find?_map, hkey, hall]

/-- Some of the records are rewritten, each under its key. -/
theorem find_rewrite (t : Keyed key) (p : ν → Bool) {g : ν → ν} (hg : ∀ v, key (g v) = key v) (k : κ) :
    ((t.records.filter p).foldl (fun t v => t.put (g v)) t).find k =
      (t.find k).map fun v => if p v then g v else v := by
  have hnodup : ((t.records.filter p).map key).Nodup := t.nodup_records.sublist (List.filter_sublist.map key)
  rw [find_foldl_put hg hnodup, find?_filter_records]
  cases t.find k with
  | none => rfl
  | some v =>
    rw [Option.filter_some]
    by_cases hp : p v = true <;> simp [hp]

/-- Overwriting a record exchanges its value in the sum. -/
theorem sum_put {t : Keyed key} {f : ν → ℤ} {v w : ν} (h : t.find (key w) = some v) :
    (t.put w).sum f = t.sum f - f v + f w :=
  Table.sum_insert h

/-- A new record adds its value to the sum. -/
theorem sum_put_of_none {t : Keyed key} {f : ν → ℤ} {w : ν} (h : t.find (key w) = none) :
    (t.put w).sum f = t.sum f + f w :=
  Table.sum_insert_of_none h

/-- Dropping a record takes its value out of the sum. -/
theorem sum_erase {t : Keyed key} {f : ν → ℤ} {k : κ} {v : ν} (h : t.find k = some v) :
    (t.erase k).sum f = t.sum f - f v :=
  Table.sum_erase h

theorem sum_congr {t : Keyed key} {f g : ν → ℤ} (h : ∀ k v, t.find k = some v → f v = g v) :
    t.sum f = t.sum g :=
  Table.sum_congr h

theorem sum_neg (t : Keyed key) (f : ν → ℤ) : t.sum (fun v => -f v) = -t.sum f :=
  Table.sum_neg t.table fun _ v => f v

theorem sum_nonneg {t : Keyed key} {f : ν → ℤ} (h : ∀ k v, t.find k = some v → 0 ≤ f v) : 0 ≤ t.sum f :=
  Table.sum_nonneg h

theorem sum_eq_zero {t : Keyed key} {f : ν → ℤ} (h : ∀ k v, t.find k = some v → f v = 0) : t.sum f = 0 :=
  Table.sum_eq_zero h

theorem le_sum {t : Keyed key} {f : ν → ℤ} {k : κ} {v : ν} (h : t.find k = some v)
    (hf : ∀ k v, t.find k = some v → 0 ≤ f v) : f v ≤ t.sum f :=
  Table.le_sum (f := fun _ v => f v) h hf

/-- The number of records with a property. -/
def count (t : Keyed key) (p : ν → Bool) : ℕ := t.records.countP p

theorem count_eq_sum (t : Keyed key) (p : ν → Bool) : (t.count p : ℤ) = t.sum fun v => if p v then 1 else 0 := by
  simp only [count, records, sum, Table.sum]
  induction t.table.entries with
  | nil => rfl
  | cons e es ih =>
    simp only [List.map_cons, List.countP_cons, List.sum_cons, Nat.cast_add, ih]
    split <;> simp [add_comm]

theorem count_put {t : Keyed key} {p : ν → Bool} {v w : ν} (h : t.find (key w) = some v) :
    ((t.put w).count p : ℤ) = t.count p - (if p v then 1 else 0) + if p w then 1 else 0 := by
  rw [count_eq_sum, count_eq_sum, sum_put h]

theorem count_put_of_none {t : Keyed key} {p : ν → Bool} {w : ν} (h : t.find (key w) = none) :
    ((t.put w).count p : ℤ) = t.count p + if p w then 1 else 0 := by
  rw [count_eq_sum, count_eq_sum, sum_put_of_none h]

theorem count_congr {t : Keyed key} {p q : ν → Bool} (h : ∀ k v, t.find k = some v → p v = q v) :
    t.count p = t.count q :=
  List.countP_congr fun v hv => by rw [h _ v (mem_records.1 hv)]

/-- Keys of records with a property, each once. -/
theorem length_le_count {t : Keyed key} {p : ν → Bool} {ks : List κ} (hks : ks.Nodup)
    (h : ∀ k ∈ ks, ∃ v, t.find k = some v ∧ p v = true) : ks.length ≤ t.count p := by
  rw [count, List.countP_eq_length_filter, ← List.length_map key]
  refine (List.subperm_of_subset hks fun k hk => ?_).length_le
  obtain ⟨v, hv, hp⟩ := h k hk
  exact List.mem_map.2 ⟨v, List.mem_filter.2 ⟨mem_records.2 (find_key hv), hp⟩, key_of_find hv⟩

/-- All of them. -/
theorem length_eq_count {t : Keyed key} {p : ν → Bool} {ks : List κ} (hks : ks.Nodup)
    (h : ∀ k, k ∈ ks ↔ ∃ v, t.find k = some v ∧ p v = true) : ks.length = t.count p := by
  rw [count, List.countP_eq_length_filter, ← List.length_map key]
  have hnodup : ((t.records.filter p).map key).Nodup := t.nodup_records.sublist (List.filter_sublist.map key)
  refine ((List.perm_ext_iff_of_nodup hks hnodup).2 fun k => ?_).length_eq
  rw [h, List.mem_map]
  constructor
  · intro hk
    obtain ⟨v, hv, hp⟩ := hk
    exact ⟨v, List.mem_filter.2 ⟨mem_records.2 (find_key hv), hp⟩, key_of_find hv⟩
  · intro hk
    obtain ⟨v, hv, rfl⟩ := hk
    exact ⟨v, mem_records.1 (List.mem_filter.1 hv).1, (List.mem_filter.1 hv).2⟩

/-- A table whose records are those of another, rewritten under their keys. -/
theorem records_perm_map {ν' : Type*} {key' : ν' → κ} {t : Keyed key} {t' : Keyed key'} {g : ν → ν'}
    (hg : ∀ v, key' (g v) = key v) (h : ∀ k, t'.find k = (t.find k).map g) : t'.records.Perm (t.records.map g) := by
  have hnodup : ((t.records.map g).map key').Nodup := by
    have hkeys : (t.records.map g).map key' = t.records.map key := by
      rw [List.map_map]
      exact List.map_congr_left fun v _ => hg v
    rw [hkeys]
    exact t.nodup_records
  rw [List.perm_ext_iff_of_nodup t'.nodup_records.of_map hnodup.of_map]
  intro v'
  rw [mem_records, h, Option.map_eq_some_iff, List.mem_map]
  constructor
  · intro hv
    obtain ⟨v, hv, rfl⟩ := hv
    exact ⟨v, mem_records.2 (find_key hv), rfl⟩
  · intro hv
    obtain ⟨v, hv, rfl⟩ := hv
    exact ⟨v, by rw [hg]; exact mem_records.1 hv, rfl⟩

theorem count_map {ν' : Type*} {key' : ν' → κ} {t : Keyed key} {t' : Keyed key'} {g : ν → ν'}
    (hg : ∀ v, key' (g v) = key v) (h : ∀ k, t'.find k = (t.find k).map g) (p : ν' → Bool) :
    t'.count p = t.count fun v => p (g v) := by
  rw [count, (records_perm_map hg h).countP_eq, List.countP_map]
  rfl

/-- Tables that list the same records, in any order, find the same records. -/
theorem find_of_perm {t t' : Keyed key} (h : t.records.Perm t'.records) (k : κ) : t.find k = t'.find k := by
  refine Option.ext fun v => ?_
  refine ⟨fun hv => ?_, fun hv => ?_⟩
  · have hk := key_of_find hv
    subst hk
    exact mem_records.1 (h.mem_iff.1 (mem_records.2 hv))
  · have hk := key_of_find hv
    subst hk
    exact mem_records.1 (h.mem_iff.2 (mem_records.2 hv))

theorem count_pos_iff {t : Keyed key} {p : ν → Bool} : 0 < t.count p ↔ ∃ k v, t.find k = some v ∧ p v = true := by
  rw [count, List.countP_pos_iff]
  constructor
  · intro hx
    obtain ⟨v, hv, hp⟩ := hx
    exact ⟨key v, v, mem_records.1 hv, hp⟩
  · intro hx
    obtain ⟨k, v, hv, hp⟩ := hx
    exact ⟨v, mem_records.2 (find_key hv), hp⟩

end Keyed
