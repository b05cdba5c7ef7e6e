/-
Binary data, and a reader that fails late.

A writer makes lists of bytes, with integers little-endian and in two's
complement. A `Reader` takes them off the front of the data: a read that asks
for more than there is answers zero and marks the reader, and from then on
every read does. `Load` is a reader with a store that it fills and errors to
stop with; an error keeps what has been stored.

`Exact` and `Codes` say that a reader and a writer fit together, in both
directions: the reader answers a value with its mark clear exactly when the
data starts with what the writer makes of that value. The rules build this up
field by field, over a reader and a writer that are each written out by hand.
-/
import Mathlib.Algebra.Order.Ring.Int
import Mathlib.Data.Nat.Basic
import Mathlib.Tactic.Positivity
import Mathlib.Tactic.Ring

namespace Binary

abbrev Bytes := List UInt8

/-! ## Integers -/

/-- The low bytes of a number, the lowest first. -/
def ofNat : ℕ → ℕ → Bytes
  | 0, _ => []
  | width + 1, v => UInt8.ofNat v :: ofNat width (v / 256)

/-- The number with these bytes. -/
def toNat : Bytes → ℕ
  | [] => 0
  | b :: bs => b.toNat + 256 * toNat bs

@[simp] theorem length_ofNat (width v : ℕ) : (ofNat width v).length = width := by
  induction width generalizing v with
  | zero => rfl
  | succ width ih => rw [ofNat, List.length_cons, ih]

theorem toNat_ofNat {width v : ℕ} (h : v < 256 ^ width) : toNat (ofNat width v) = v := by
  induction width generalizing v with
  | zero =>
    rw [pow_zero] at h
    simp only [ofNat, toNat]
    omega
  | succ width ih =>
    rw [pow_succ] at h
    have hdiv : v / 256 < 256 ^ width := Nat.div_lt_of_lt_mul (by rwa [mul_comm])
    rw [ofNat, toNat, ih hdiv, UInt8.toNat_ofNat']
    omega

theorem toNat_lt (bs : Bytes) : toNat bs < 256 ^ bs.length := by
  induction bs with
  | nil => exact Nat.one_pos
  | cons b bs ih =>
    have hb := b.toNat_lt
    rw [toNat, List.length_cons, pow_succ]
    omega

theorem ofNat_toNat (bs : Bytes) : ofNat bs.length (toNat bs) = bs := by
  induction bs with
  | nil => rfl
  | cons b bs ih =>
    have hb := b.toNat_lt
    have hlow : UInt8.ofNat (b.toNat + 256 * toNat bs) = b := by
      apply UInt8.toNat.inj
      rw [UInt8.toNat_ofNat']
      omega
    have hrest : (b.toNat + 256 * toNat bs) / 256 = toNat bs := by omega
    rw [List.length_cons, toNat, ofNat, hlow, hrest, ih]

/-- The integers of so many bits. -/
def FitsInt (bits : ℕ) (v : ℤ) : Prop := -2 ^ (bits - 1) ≤ v ∧ v < 2 ^ (bits - 1)

instance (bits : ℕ) (v : ℤ) : Decidable (FitsInt bits v) := inferInstanceAs (Decidable (_ ∧ _))

/-- The bits of an integer. -/
def ofInt (bits : ℕ) (v : ℤ) : ℕ := (v % 2 ^ bits).toNat

/-- The integer with these bits. -/
def toInt (bits : ℕ) (v : ℕ) : ℤ := (v : ℤ).bmod (2 ^ bits)

theorem ofInt_lt (bits : ℕ) (v : ℤ) : ofInt bits v < 2 ^ bits := by
  have hlt := Int.emod_lt_of_pos v (show (0 : ℤ) < 2 ^ bits by positivity)
  have hnonneg := Int.emod_nonneg v (show (2 : ℤ) ^ bits ≠ 0 by positivity)
  rw [ofInt, Int.toNat_lt hnonneg]
  exact_mod_cast hlt

theorem toInt_ofInt {bits : ℕ} {v : ℤ} (hbits : 0 < bits) (h : FitsInt bits v) : toInt bits (ofInt bits v) = v := by
  obtain ⟨bits, rfl⟩ : ∃ n, bits = n + 1 := ⟨bits - 1, by omega⟩
  obtain ⟨hlow, hhigh⟩ := h
  rw [Nat.add_sub_cancel] at hlow hhigh
  have hnonneg := Int.emod_nonneg v (show (2 : ℤ) ^ (bits + 1) ≠ 0 by positivity)
  have hhalf : ((2 ^ (bits + 1) : ℕ) : ℤ) = 2 * 2 ^ bits := by push_cast; ring
  rw [toInt, ofInt, Int.toNat_of_nonneg hnonneg, show (2 : ℤ) ^ (bits + 1) = ((2 ^ (bits + 1) : ℕ) : ℤ) by push_cast; rfl,
    Int.emod_bmod]
  exact Int.bmod_eq_of_le (by omega) (by omega)

theorem ofInt_toInt {bits v : ℕ} (h : v < 2 ^ bits) : ofInt bits (toInt bits v) = v := by
  have hmod : (v : ℤ).bmod (2 ^ bits) % 2 ^ bits = v := by
    have hcast : ((2 : ℤ) ^ bits) = ((2 ^ bits : ℕ) : ℤ) := by push_cast; rfl
    rw [hcast, Int.bmod_emod]
    exact Int.emod_eq_of_lt (Int.natCast_nonneg v) (by exact_mod_cast h)
  rw [ofInt, toInt, hmod, Int.toNat_natCast]

theorem fitsInt_toInt {bits : ℕ} (hbits : 0 < bits) (v : ℕ) : FitsInt bits (toInt bits v) := by
  obtain ⟨bits, rfl⟩ : ∃ n, bits = n + 1 := ⟨bits - 1, by omega⟩
  have hpos : 0 < 2 ^ (bits + 1) := by positivity
  have hhalf : ((2 ^ (bits + 1) : ℕ) : ℤ) = 2 * 2 ^ bits := by push_cast; ring
  have hlow := Int.le_bmod (x := v) hpos
  have hhigh := Int.bmod_lt (x := v) hpos
  rw [FitsInt, toInt, Nat.add_sub_cancel]
  omega

/-! ## Text and enumerations -/

/-- A text whose characters are bytes. -/
def IsText (s : String) : Prop := ∀ c ∈ s.toList, c.toNat < 256

instance (s : String) : Decidable (IsText s) := List.decidableBAll (fun c : Char => c.toNat < 256) s.toList

/-- The bytes of a text. -/
def ofText (s : String) : Bytes := s.toList.map fun c => UInt8.ofNat c.toNat

/-- The text with these bytes. -/
def toText (bs : Bytes) : String := String.ofList (bs.map fun b => Char.ofNat b.toNat)

theorem toText_ofText {s : String} (h : IsText s) : toText (ofText s) = s := by
  have hchars : (ofText s).map (fun b => Char.ofNat b.toNat) = s.toList := by
    rw [ofText, List.map_map]
    conv_rhs => rw [← List.map_id s.toList]
    refine List.map_congr_left fun c hc => ?_
    show Char.ofNat (UInt8.ofNat c.toNat).toNat = c
    rw [UInt8.toNat_ofNat_of_lt' (h c hc), Char.ofNat_toNat]
  rw [toText, hchars, String.ofList_toList]

/-- The code of an enumerator: its place in the list of all. -/
def codeOf {α : Type} [DecidableEq α] (all : List α) (a : α) : ℤ := all.idxOf a

/-- The enumerator with a code, another value if there is none. -/
def ofCode {α : Type} (all : List α) (other : α) (n : ℤ) : α := if n < 0 then other else all.getD n.toNat other

/-- The code of one of so many enumerators. -/
def Named (count : ℕ) (n : ℤ) : Prop := 0 ≤ n ∧ n < count

instance (count : ℕ) (n : ℤ) : Decidable (Named count n) := inferInstanceAs (Decidable (_ ∧ _))

theorem ofCode_codeOf {α : Type} [DecidableEq α] {all : List α} {a : α} (h : a ∈ all) (other : α) :
    ofCode all other (codeOf all a) = a := by
  have hlt := List.idxOf_lt_length_of_mem h
  rw [ofCode, codeOf, if_neg (not_lt.2 (Int.natCast_nonneg _)), Int.toNat_natCast, List.getD_eq_getElem?_getD,
    List.getElem?_eq_getElem hlt, Option.getD_some, List.getElem_idxOf]

/-! ## Readers -/

structure Reader where
  rest : Bytes
  ok : Bool := true

/-- A read. -/
abbrev Get (α : Type) := StateM Reader α

/-- So many bytes, none if there are fewer. -/
def take (n : ℕ) : Get Bytes := fun r =>
  if r.ok = true ∧ n ≤ r.rest.length then (r.rest.take n, { r with rest := r.rest.drop n })
  else ([], { r with ok := false })

def u8 : Get UInt8 := do return UInt8.ofNat (toNat (← take 1))

def u32 : Get UInt32 := do return UInt32.ofNat (toNat (← take 4))

def u64 : Get UInt64 := do return UInt64.ofNat (toNat (← take 8))

def i32 : Get ℤ := do return toInt 32 (← u32).toNat

def i64 : Get ℤ := do return toInt 64 (← u64).toNat

/-- A string after its length, which may not exceed the limit. -/
def str (limit : ℕ) : Get Bytes := do
  let n ← u64
  fun r => if r.ok = true ∧ n.toNat ≤ limit then take n.toNat r else ([], { r with ok := false })

/-! ## Writers -/

def putU8 (v : UInt8) : Bytes := ofNat 1 v.toNat

def putU32 (v : UInt32) : Bytes := ofNat 4 v.toNat

def putU64 (v : UInt64) : Bytes := ofNat 8 v.toNat

def putI32 (v : ℤ) : Bytes := putU32 (UInt32.ofNat (ofInt 32 v))

def putI64 (v : ℤ) : Bytes := putU64 (UInt64.ofNat (ofInt 64 v))

def putStr (v : Bytes) : Bytes := putU64 (UInt64.ofNat v.length) ++ v

/-! ## Reads that fit a writer -/

/-- A read answers a value, unmarked, exactly when the data starts with what
is put down for it and the value fits. -/
def Exact {α : Type} (g : Get α) (put : α → Bytes) (fits : α → Prop) : Prop :=
  ∀ r v rest, g r = (v, ⟨rest, true⟩) ↔ r = ⟨put v ++ rest, true⟩ ∧ fits v

section exact

variable {α β : Type}

theorem Exact.ok {g : Get α} {put : α → Bytes} {fits : α → Prop} (h : Exact g put fits) {r : Reader} {v : α}
    {rest : Bytes} (hr : g r = (v, ⟨rest, true⟩)) : r.ok = true := by
  rw [((h r v rest).1 hr).1]

theorem exact_take (n : ℕ) : Exact (take n) id fun bs => bs.length = n := by
  intro r v rest
  obtain ⟨data, ok⟩ := r
  simp only [take, id_eq, Reader.mk.injEq]
  constructor
  · intro h
    split at h
    · next hlen =>
      obtain ⟨rfl, hr⟩ := Prod.mk.inj h
      obtain ⟨rfl, -⟩ := Reader.mk.inj hr
      exact ⟨⟨(List.take_append_drop n data).symm, hlen.1⟩, List.length_take_of_le hlen.2⟩
    · cases h
  · intro h
    obtain ⟨⟨rfl, rfl⟩, rfl⟩ := h
    simp

/-- A read through two inverse functions. -/
theorem Exact.map {g : Get α} {put : α → Bytes} {fits : α → Prop} {fits' : β → Prop} (h : Exact g put fits)
    {f : α → β} {f' : β → α} (hf : ∀ a, fits a → f' (f a) = a ∧ fits' (f a))
    (hf' : ∀ b, fits' b → f (f' b) = b ∧ fits (f' b)) :
    Exact (do return f (← g)) (fun b => put (f' b)) fits' := by
  intro r b rest
  rcases hg : g r with ⟨a, data, ok⟩
  have hrun : (do return f (← g) : Get β) r = (f a, ⟨data, ok⟩) := by
    show (f (g r).1, (g r).2) = _
    rw [hg]
  rw [hrun]
  constructor
  · intro hb
    obtain ⟨rfl, hr⟩ := Prod.mk.inj hb
    rw [hr] at hg
    obtain ⟨hdata, hfits⟩ := (h r a rest).1 hg
    simp only [(hf a hfits).1]
    exact ⟨hdata, (hf a hfits).2⟩
  · intro hb
    obtain ⟨hdata, hfits⟩ := hb
    rw [(h r (f' b) rest).2 ⟨hdata, (hf' b hfits).2⟩] at hg
    obtain ⟨rfl, hr⟩ := Prod.mk.inj hg
    rw [hr, (hf' b hfits).1]

/-- Words of so many bytes. -/
theorem exact_word {w : ℕ} {f : ℕ → α} {f' : α → ℕ} (hlt : ∀ v, f' v < 256 ^ w) (hf : ∀ v, f (f' v) = v)
    (hf' : ∀ n, n < 256 ^ w → f' (f n) = n) :
    Exact (do return f (toNat (← take w))) (fun v => ofNat w (f' v)) fun _ => True := by
  refine (exact_take w).map (fun bs hbs => ⟨?_, trivial⟩) fun v _ => ⟨?_, length_ofNat w _⟩
  · have hsmall := toNat_lt bs
    rw [hbs] at hsmall
    rw [hf' _ hsmall, ← hbs, ofNat_toNat]
  · rw [toNat_ofNat (hlt v), hf]

theorem exact_u8 : Exact u8 putU8 fun _ => True :=
  exact_word UInt8.toNat_lt (fun _ => UInt8.ofNat_toNat) fun _ => UInt8.toNat_ofNat_of_lt'

theorem exact_u32 : Exact u32 putU32 fun _ => True :=
  exact_word UInt32.toNat_lt (fun _ => UInt32.ofNat_toNat) fun _ => UInt32.toNat_ofNat_of_lt'

theorem exact_u64 : Exact u64 putU64 fun _ => True :=
  exact_word UInt64.toNat_lt (fun _ => UInt64.ofNat_toNat) fun _ => UInt64.toNat_ofNat_of_lt'

theorem exact_i32 : Exact i32 putI32 (FitsInt 32) :=
  exact_u32.map
    (fun v _ => ⟨by rw [ofInt_toInt v.toNat_lt, UInt32.ofNat_toNat], fitsInt_toInt (by omega) _⟩)
    fun v hv => ⟨by rw [UInt32.toNat_ofNat_of_lt' (ofInt_lt 32 v), toInt_ofInt (by omega) hv], trivial⟩

theorem exact_i64 : Exact i64 putI64 (FitsInt 64) :=
  exact_u64.map
    (fun v _ => ⟨by rw [ofInt_toInt v.toNat_lt, UInt64.ofNat_toNat], fitsInt_toInt (by omega) _⟩)
    fun v hv => ⟨by rw [UInt64.toNat_ofNat_of_lt' (ofInt_lt 64 v), toInt_ofInt (by omega) hv], trivial⟩

/-- A read and then another that depends on its value. -/
theorem Exact.bind_iff {g : Get α} {put : α → Bytes} {fits : α → Prop} (h : Exact g put fits) {f : α → Get β}
    (hf : ∀ a r b rest, f a r = (b, ⟨rest, true⟩) → r.ok = true) (r : Reader) (b : β) (rest : Bytes) :
    (g >>= f) r = (b, ⟨rest, true⟩) ↔
      ∃ a data, r = ⟨put a ++ data, true⟩ ∧ fits a ∧ f a ⟨data, true⟩ = (b, ⟨rest, true⟩) := by
  rcases hg : g r with ⟨a, data, ok⟩
  have hrun : (g >>= f) r = f a ⟨data, ok⟩ := by
    show f (g r).1 (g r).2 = _
    rw [hg]
  rw [hrun]
  constructor
  · intro hb
    have hok : ok = true := hf a ⟨data, ok⟩ b rest hb
    subst hok
    obtain ⟨hdata, hfits⟩ := (h r a data).1 hg
    exact ⟨a, data, hdata, hfits, hb⟩
  · intro hb
    obtain ⟨a', data', hdata, hfits, hb⟩ := hb
    rw [(h r a' data').2 ⟨hdata, hfits⟩] at hg
    obtain ⟨rfl, hr⟩ := Prod.mk.inj hg
    rw [← hr]
    exact hb

theorem exact_str {limit : ℕ} (hlimit : limit < 2 ^ 64) : Exact (str limit) putStr fun v => v.length ≤ limit := by
  intro r v rest
  rw [str, exact_u64.bind_iff]
  · constructor
    · intro h
      obtain ⟨n, data, rfl, -, h⟩ := h
      split at h
      · next hn =>
        obtain ⟨hdata, hlen⟩ := (exact_take n.toNat ⟨data, true⟩ v rest).1 h
        obtain ⟨rfl, -⟩ := Reader.mk.inj hdata
        refine ⟨?_, hlen.le.trans hn.2⟩
        rw [putStr, hlen, UInt64.ofNat_toNat, List.append_assoc]
        rfl
      · cases h
    · intro h
      obtain ⟨rfl, hlen⟩ := h
      have hn : (UInt64.ofNat v.length).toNat = v.length := UInt64.toNat_ofNat_of_lt' (hlen.trans_lt hlimit)
      refine ⟨UInt64.ofNat v.length, v ++ rest, by rw [putStr, List.append_assoc], trivial, ?_⟩
      rw [hn, if_pos ⟨rfl, hlen⟩]
      exact (exact_take v.length _ v rest).2 ⟨rfl, rfl⟩
  · intro n r b rest h
    split at h
    · next hn => exact hn.1
    · cases h

end exact

/-! ## Loading -/

/-- A reader that fills a store and may stop with an error. -/
abbrev Load (σ ε α : Type) := ExceptT ε (StateM (Reader × σ)) α

section load

variable {σ ε α β : Type}

/-- A read. -/
def read (g : Get α) : Load σ ε α := fun x => (.ok (g x.1).1, ((g x.1).2, x.2))

/-- Stop unless all reads were good and the condition holds. -/
def require (c : Prop) [Decidable c] (e : ε) : Load σ ε Unit := fun x =>
  (if x.1.ok = true ∧ c then .ok () else .error e, x)

/-- Change the store. -/
def store (f : σ → σ) : Load σ ε Unit := fun x => (.ok (), (x.1, f x.2))

/-- A list of so many. -/
def many (m : Load σ ε α) : ℕ → Load σ ε (List α)
  | 0 => pure []
  | n + 1 => do
    let a ← m
    let as ← many m n
    return a :: as

/-- So many times. -/
def times (m : Load σ ε Unit) : ℕ → Load σ ε Unit
  | 0 => pure ()
  | n + 1 => do
    m
    times m n

/-- A loader goes through, unmarked, exactly when the data starts with bytes
that stand in this relation to its answer and the change of the store. -/
def Takes (m : Load σ ε α) (T : Bytes → α → σ → σ → Prop) : Prop :=
  ∀ r s a rest s', m (r, s) = (.ok a, (⟨rest, true⟩, s')) ↔ ∃ used, r = ⟨used ++ rest, true⟩ ∧ T used a s s'

theorem bind_of_ok {m : Load σ ε α} {x y : Reader × σ} {a : α} (h : m x = (.ok a, y)) (f : α → Load σ ε β) :
    (m >>= f) x = f a y := by
  have hrun : (m >>= f) x = ExceptT.bindCont f (m x).1 (m x).2 := rfl
  rw [hrun, h]
  rfl

theorem bind_of_error {m : Load σ ε α} {x y : Reader × σ} {e : ε} (h : m x = (.error e, y)) (f : α → Load σ ε β) :
    (m >>= f) x = (.error e, y) := by
  have hrun : (m >>= f) x = ExceptT.bindCont f (m x).1 (m x).2 := rfl
  rw [hrun, h]
  rfl

theorem bind_ok_iff {m : Load σ ε α} {f : α → Load σ ε β} {x y : Reader × σ} {b : β} :
    (m >>= f) x = (.ok b, y) ↔ ∃ a z, m x = (.ok a, z) ∧ f a z = (.ok b, y) := by
  rcases hm : m x with ⟨a | a, z⟩
  · rw [bind_of_error hm]
    constructor
    · intro h
      cases (Prod.mk.inj h).1
    · intro h
      obtain ⟨a', z', h, -⟩ := h
      cases h
  · rw [bind_of_ok hm]
    constructor
    · intro h
      exact ⟨a, z, rfl, h⟩
    · intro h
      obtain ⟨a', z', h, hf⟩ := h
      cases h
      exact hf

theorem takes_pure (a : α) : Takes (pure a : Load σ ε α) fun used a' s s' => used = [] ∧ a' = a ∧ s' = s := by
  intro r s a' rest s'
  show ((Except.ok a, (r, s)) : Except ε α × Reader × σ) = _ ↔ _
  constructor
  · intro h
    cases h
    exact ⟨[], rfl, rfl, rfl, rfl⟩
  · intro h
    obtain ⟨used, rfl, rfl, rfl, rfl⟩ := h
    rfl

theorem takes_read {g : Get α} {put : α → Bytes} {fits : α → Prop} (h : Exact g put fits) :
    Takes (read g : Load σ ε α) fun used a s s' => used = put a ∧ fits a ∧ s' = s := by
  intro r s a rest s'
  show ((Except.ok (g r).1, ((g r).2, s)) : Except ε α × Reader × σ) = _ ↔ _
  constructor
  · intro hr
    simp only [Prod.mk.injEq, Except.ok.injEq] at hr
    obtain ⟨ha, hrest, rfl⟩ := hr
    obtain ⟨hdata, hfits⟩ := (h r a rest).1 (Prod.ext ha hrest)
    exact ⟨put a, hdata, rfl, hfits, rfl⟩
  · intro hr
    obtain ⟨used, hdata, rfl, hfits, rfl⟩ := hr
    rw [(h r a rest).2 ⟨hdata, hfits⟩]

theorem takes_require (c : Prop) [Decidable c] (e : ε) :
    Takes (require c e : Load σ ε Unit) fun used _ s s' => used = [] ∧ c ∧ s' = s := by
  intro r s a rest s'
  show ((if r.ok = true ∧ c then Except.ok () else .error e, (r, s)) : Except ε Unit × Reader × σ) = _ ↔ _
  constructor
  · intro h
    split at h
    · next hc =>
      cases h
      exact ⟨[], rfl, rfl, hc.2, rfl⟩
    · cases h
  · intro h
    obtain ⟨used, rfl, rfl, hc, rfl⟩ := h
    rw [if_pos ⟨rfl, hc⟩]
    rfl

theorem takes_store (f : σ → σ) : Takes (store f : Load σ ε Unit) fun used _ s s' => used = [] ∧ s' = f s := by
  intro r s a rest s'
  show ((Except.ok (), (r, f s)) : Except ε Unit × Reader × σ) = _ ↔ _
  constructor
  · intro h
    cases h
    exact ⟨[], rfl, rfl, rfl⟩
  · intro h
    obtain ⟨used, rfl, rfl, rfl⟩ := h
    rfl

theorem store_bind (f : σ → σ) (m : Unit → Load σ ε β) (r : Reader) (s : σ) : (store f >>= m) (r, s) = m () (r, f s) :=
  rfl

theorem read_bind (g : Get α) (f : α → Load σ ε β) (r : Reader) (s : σ) :
    (read g >>= f) (r, s) = f (g r).1 ((g r).2, s) :=
  rfl

theorem require_bind (c : Prop) [Decidable c] (e : ε) (f : Unit → Load σ ε β) (x : Reader × σ) :
    (require c e >>= f) x = if x.1.ok = true ∧ c then f () x else (.error e, x) := by
  show ExceptT.bindCont f (if x.1.ok = true ∧ c then .ok () else .error e) x = _
  split <;> rfl

theorem Takes.bind {m : Load σ ε α} {f : α → Load σ ε β} {T : Bytes → α → σ → σ → Prop}
    {T' : α → Bytes → β → σ → σ → Prop} (h : Takes m T) (h' : ∀ a, Takes (f a) (T' a)) :
    Takes (m >>= f) fun used b s s' => ∃ u v a s₁, used = u ++ v ∧ T u a s s₁ ∧ T' a v b s₁ s' := by
  intro r s b rest s'
  rw [bind_ok_iff]
  constructor
  · intro hb
    obtain ⟨a, ⟨r₁, s₁⟩, hm, hf⟩ := hb
    obtain ⟨v, rfl, hv⟩ := (h' a r₁ s₁ b rest s').1 hf
    obtain ⟨u, rfl, hu⟩ := (h r s a (v ++ rest) s₁).1 hm
    exact ⟨u ++ v, by rw [List.append_assoc], u, v, a, s₁, rfl, hu, hv⟩
  · intro hb
    obtain ⟨_, rfl, u, v, a, s₁, rfl, hu, hv⟩ := hb
    refine ⟨a, (⟨v ++ rest, true⟩, s₁), (h _ s a _ s₁).2 ⟨u, by rw [List.append_assoc], hu⟩, ?_⟩
    exact (h' a _ s₁ b rest s').2 ⟨v, rfl, hv⟩

theorem Takes.congr {m : Load σ ε α} {T T' : Bytes → α → σ → σ → Prop} (h : Takes m T)
    (hT : ∀ used a s s', T used a s s' ↔ T' used a s s') : Takes m T' := by
  intro r s a rest s'
  rw [h r s a rest s']
  simp only [hT]

/-- A loop whose rounds each take one item and add it to the store. -/
theorem Takes.times {m : Load σ ε Unit} {put : α → Bytes} {fits : α → Prop} {step : σ → α → σ}
    (h : Takes m fun used _ s s' => ∃ a, used = put a ∧ fits a ∧ s' = step s a) (n : ℕ) :
    Takes (Binary.times m n) fun used _ s s' =>
      ∃ as : List α, as.length = n ∧ used = as.flatMap put ∧ (∀ a ∈ as, fits a) ∧ s' = as.foldl step s := by
  induction n with
  | zero =>
    refine (takes_pure ()).congr fun used _ s s' => ?_
    constructor
    · intro hu
      obtain ⟨rfl, -, rfl⟩ := hu
      exact ⟨[], rfl, rfl, by simp, rfl⟩
    · intro hu
      obtain ⟨as, hn, rfl, -, rfl⟩ := hu
      rw [List.length_eq_zero_iff] at hn
      subst hn
      exact ⟨rfl, rfl, rfl⟩
  | succ n ih =>
    refine (h.bind fun _ => ih).congr fun used _ s s' => ?_
    constructor
    · intro hu
      obtain ⟨u, v, _, s₁, rfl, ⟨a, rfl, ha, rfl⟩, as, rfl, rfl, has, rfl⟩ := hu
      exact ⟨a :: as, rfl, rfl, by simpa using ⟨ha, has⟩, rfl⟩
    · intro hu
      obtain ⟨as, hn, rfl, has, rfl⟩ := hu
      cases as with
      | nil => cases hn
      | cons a as =>
        have hrest : ∀ a ∈ as, fits a := fun x hx => has x (List.mem_cons_of_mem a hx)
        exact ⟨_, _, (), _, rfl, ⟨a, rfl, has a List.mem_cons_self, rfl⟩, as, by simpa using hn, rfl, hrest, rfl⟩

/-- A loader that goes through has read well. -/
def Checked (m : Load σ ε α) : Prop := ∀ x a y, m x = (.ok a, y) → y.1.ok = true

theorem checked_require (c : Prop) [Decidable c] (e : ε) : Checked (require c e : Load σ ε Unit) := by
  intro x a y h
  obtain ⟨hres, rfl⟩ := Prod.mk.inj h
  split at hres
  · next hc => exact hc.1
  · cases hres

theorem Checked.bind {f : α → Load σ ε β} (h : ∀ a, Checked (f a)) (m : Load σ ε α) : Checked (m >>= f) := by
  intro x b y hb
  obtain ⟨a, z, -, hf⟩ := bind_ok_iff.1 hb
  exact h a z b y hf

theorem Checked.read (g : Get α) {f : α → Load σ ε β} (h : ∀ a, Checked (f a)) : Checked (Binary.read g >>= f) :=
  .bind h _

/-- A loader that only reads: it never stops. -/
def Plain (m : Load σ ε α) : Prop := ∀ x, ∃ a r, m x = (.ok a, (r, x.2))

theorem plain_pure (a : α) : Plain (pure a : Load σ ε α) := fun x => ⟨a, x.1, rfl⟩

theorem Plain.read (g : Get α) {f : α → Load σ ε β} (h : ∀ a, Plain (f a)) : Plain (Binary.read g >>= f) :=
  fun x => h (g x.1).1 ((g x.1).2, x.2)

theorem Plain.bind_run {m : Load σ ε α} (h : Plain m) (f : α → Load σ ε β) (x : Reader × σ) :
    ∃ a r, (m >>= f) x = f a (r, x.2) := by
  obtain ⟨a, r, hm⟩ := h x
  exact ⟨a, r, bind_of_ok hm f⟩

/-- A loader whose store keeps a property, however it ends. -/
def Keeps (P : σ → Prop) (m : Load σ ε α) : Prop := ∀ x, P x.2 → P (m x).2.2

section keeps

variable {P : σ → Prop}

theorem keeps_pure (a : α) : Keeps P (pure a : Load σ ε α) := fun _ h => h

theorem keeps_read (g : Get α) : Keeps P (read g : Load σ ε α) := fun _ h => h

theorem keeps_require (c : Prop) [Decidable c] (e : ε) : Keeps P (require c e : Load σ ε Unit) := fun _ h => h

theorem keeps_store {f : σ → σ} (hf : ∀ s, P s → P (f s)) : Keeps P (store f : Load σ ε Unit) := fun x h => hf x.2 h

theorem Keeps.bind {m : Load σ ε α} {f : α → Load σ ε β} (h : Keeps P m) (h' : ∀ a, Keeps P (f a)) :
    Keeps P (m >>= f) := by
  intro x hx
  have hkept := h x hx
  rcases hm : m x with ⟨e | a, y⟩
  · rw [hm] at hkept
    rw [bind_of_error hm]
    exact hkept
  · rw [hm] at hkept
    rw [bind_of_ok hm]
    exact h' a y hkept

theorem Keeps.read (g : Get α) {f : α → Load σ ε β} (h : ∀ a, Keeps P (f a)) : Keeps P (Binary.read g >>= f) :=
  (keeps_read g).bind h

theorem Keeps.require {c : Prop} [Decidable c] {e : ε} {f : Unit → Load σ ε β} (h : Keeps P (f ())) :
    Keeps P (Binary.require c e >>= f) :=
  (keeps_require c e).bind fun _ => h

theorem Keeps.many {m : Load σ ε α} (h : Keeps P m) (n : ℕ) : Keeps P (Binary.many m n) := by
  induction n with
  | zero => exact keeps_pure []
  | succ n ih => exact h.bind fun a => ih.bind fun as => keeps_pure (a :: as)

theorem Keeps.times {m : Load σ ε Unit} (h : Keeps P m) (n : ℕ) : Keeps P (Binary.times m n) := by
  induction n with
  | zero => exact keeps_pure ()
  | succ n ih => exact h.bind fun _ => ih

end keeps

/-! ## Records -/

/-- A loader takes the pieces of a record that fits and answers it, among the
records of which something is known already; the store stays. -/
def Codes (m : Load σ ε α) (put : α → List Bytes) (fits known : α → Prop) : Prop :=
  Takes m fun used a s s' => used = (put a).flatten ∧ fits a ∧ known a ∧ s' = s

variable {put : β → List Bytes} {fits known : β → Prop}

/-- The end of a record: all its fields are known. -/
theorem codes_pure {b : β} (h : ∀ b', known b' ↔ b' = b) :
    Codes (pure b : Load σ ε β) (fun _ => []) (fun _ => True) known := by
  refine (takes_pure b).congr fun used b' s s' => ?_
  rw [h]
  simp only [List.flatten_nil, true_and]

theorem Codes.congr_put {m : Load σ ε β} {p : β → List Bytes} (h : Codes m put fits known) (hp : ∀ b, put b = p b) :
    Codes m p fits known :=
  Takes.congr h fun used b s s' => by rw [hp]

/-- A part of a record, then the rest of it. -/
theorem Codes.bind {m : Load σ ε α} {p : α → List Bytes} {q : α → Prop} {f : α → Load σ ε β}
    (h : Codes m p q fun _ => True) (g : β → α)
    (h' : ∀ a, Codes (f a) put fits fun b => g b = a ∧ known b) :
    Codes (m >>= f) (fun b => p (g b) ++ put b) (fun b => q (g b) ∧ fits b) known := by
  refine (Takes.bind h h').congr fun used b s s' => ?_
  simp only [List.flatten_append]
  constructor
  · intro hu
    obtain ⟨u, v, a, s₁, rfl, ⟨rfl, hq, -, rfl⟩, rfl, hfits, ⟨rfl, hk⟩, rfl⟩ := hu
    exact ⟨rfl, ⟨hq, hfits⟩, hk, rfl⟩
  · intro hu
    obtain ⟨rfl, ⟨hq, hfits⟩, hk, rfl⟩ := hu
    exact ⟨_, _, g b, s', rfl, ⟨rfl, hq, trivial, rfl⟩, rfl, hfits, ⟨rfl, hk⟩, rfl⟩

/-- The last part of a record. -/
theorem Codes.bind_last {m : Load σ ε α} {p : α → List Bytes} {q : α → Prop} {f : α → Load σ ε β}
    (h : Codes m p q fun _ => True) (g : β → α)
    (h' : ∀ a, Codes (f a) (fun _ => []) fits fun b => g b = a ∧ known b) :
    Codes (m >>= f) (fun b => p (g b)) (fun b => q (g b) ∧ fits b) known :=
  (h.bind g h').congr_put fun b => List.append_nil (p (g b))

theorem codes_read {g : Get α} {p : α → Bytes} {q : α → Prop} (h : Exact g p q) :
    Codes (Binary.read g : Load σ ε α) (fun a => [p a]) q fun _ => True :=
  (takes_read h).congr fun used a s s' => by simp only [List.flatten_singleton, true_and]

/-- A field, then the rest of the record. -/
theorem Codes.read {g : Get α} {p : α → Bytes} {q : α → Prop} {f : α → Load σ ε β} (h : Exact g p q) (g' : β → α)
    (h' : ∀ a, Codes (f a) put fits fun b => g' b = a ∧ known b) :
    Codes (Binary.read g >>= f) (fun b => p (g' b) :: put b) (fun b => q (g' b) ∧ fits b) known :=
  (codes_read h).bind g' h'

/-- A check of what is known already. -/
theorem Codes.require {c : Prop} [Decidable c] {e : ε} {f : Unit → Load σ ε β} {check : β → Prop}
    (h : Codes (f ()) put fits known) (hc : ∀ b, known b → (c ↔ check b)) :
    Codes (Binary.require c e >>= f) put (fun b => check b ∧ fits b) known := by
  refine ((takes_require c e).bind fun _ => h).congr fun used b s s' => ?_
  constructor
  · intro hu
    obtain ⟨u, v, -, s₁, rfl, ⟨rfl, hcond, rfl⟩, rfl, hfits, hk, rfl⟩ := hu
    exact ⟨rfl, ⟨(hc b hk).1 hcond, hfits⟩, hk, rfl⟩
  · intro hu
    obtain ⟨rfl, ⟨hcheck, hfits⟩, hk, rfl⟩ := hu
    exact ⟨[], _, (), s', rfl, ⟨rfl, (hc b hk).2 hcheck, rfl⟩, rfl, hfits, hk, rfl⟩

theorem Codes.congr {m : Load σ ε β} {fits' : β → Prop} (h : Codes m put fits known) (hfits : ∀ b, fits b ↔ fits' b) :
    Codes m put fits' known :=
  Takes.congr h fun used b s s' => by rw [hfits]

theorem Codes.many {m : Load σ ε α} {p : α → List Bytes} {q : α → Prop} (h : Codes m p q fun _ => True) (n : ℕ) :
    Codes (Binary.many m n) (fun as => as.flatMap p) (fun as => as.length = n ∧ ∀ a ∈ as, q a) fun _ => True := by
  induction n with
  | zero =>
    refine (takes_pure []).congr fun used as s s' => ?_
    simp only [List.length_eq_zero_iff, true_and]
    constructor
    · intro hu
      obtain ⟨rfl, rfl, rfl⟩ := hu
      exact ⟨rfl, ⟨rfl, by simp⟩, rfl⟩
    · intro hu
      obtain ⟨rfl, ⟨rfl, -⟩, rfl⟩ := hu
      exact ⟨rfl, rfl, rfl⟩
  | succ n ih =>
    refine (Takes.bind h fun a => Takes.bind ih fun as => takes_pure (a :: as)).congr fun used as s s' => ?_
    constructor
    · intro hu
      obtain ⟨u, v, a, s₁, rfl, ⟨rfl, ha, -, rfl⟩, u', v', as', s₂, rfl, ⟨rfl, ⟨hn, has⟩, -, rfl⟩, rfl, rfl, rfl⟩ := hu
      refine ⟨?_, ⟨by rw [List.length_cons, hn], by simpa using ⟨ha, has⟩⟩, trivial, rfl⟩
      simp only [List.flatMap_cons, List.flatten_append, List.append_nil]
    · intro hu
      obtain ⟨rfl, ⟨hn, has⟩, -, rfl⟩ := hu
      cases as with
      | nil => cases hn
      | cons a as =>
        have hrest : ∀ a ∈ as, q a := fun x hx => has x (List.mem_cons_of_mem a hx)
        refine ⟨_, _, a, s', ?_, ⟨rfl, has a List.mem_cons_self, trivial, rfl⟩, _, [], as, s', rfl,
          ⟨rfl, ⟨by simpa using hn, hrest⟩, trivial, rfl⟩, rfl, rfl, rfl⟩
        simp only [List.flatMap_cons, List.flatten_append, List.append_nil]

/-- A list after its length, which may not exceed the limit. -/
def counted (limit : ℕ) (e : ε) (m : Load σ ε α) : Load σ ε (List α) := do
  let n ← Binary.read u64
  Binary.require (n.toNat ≤ limit) e
  Binary.many m n.toNat

theorem Keeps.counted {P : σ → Prop} {limit : ℕ} {e : ε} {m : Load σ ε α} (h : Keeps P m) :
    Keeps P (Binary.counted limit e m) :=
  .read u64 fun n => .require (h.many n.toNat)

theorem codes_counted {limit : ℕ} {e : ε} {m : Load σ ε α} {p : α → List Bytes} {q : α → Prop}
    (hlimit : limit < 2 ^ 64) (h : Codes m p q fun _ => True) :
    Codes (counted limit e m) (fun as => putU64 (UInt64.ofNat as.length) :: as.flatMap p)
      (fun as => as.length ≤ limit ∧ ∀ a ∈ as, q a) fun _ => True := by
  refine ((takes_read exact_u64).bind fun n => (takes_require _ e).bind fun _ => h.many n.toNat).congr
    fun used as s s' => ?_
  constructor
  · intro hu
    obtain ⟨u, v, n, s₁, rfl, ⟨rfl, -, rfl⟩, u', v', -, s₂, rfl, ⟨rfl, hn, rfl⟩, rfl, ⟨hlen, has⟩, -, rfl⟩ := hu
    refine ⟨?_, ⟨hlen.le.trans hn, has⟩, trivial, rfl⟩
    simp only [hlen, UInt64.ofNat_toNat, List.flatten_cons, List.nil_append]
  · intro hu
    obtain ⟨rfl, ⟨hlen, has⟩, -, rfl⟩ := hu
    have hn : (UInt64.ofNat as.length).toNat = as.length := UInt64.toNat_ofNat_of_lt' (hlen.trans_lt hlimit)
    exact ⟨_, _, _, s', rfl, ⟨rfl, trivial, rfl⟩, [], _, (), s', rfl, ⟨rfl, hn.le.trans hlen, rfl⟩, rfl,
      ⟨hn.symm, has⟩, trivial, rfl⟩

/-- A record that is stored. -/
theorem Codes.stored {m : Load σ ε α} {p : α → List Bytes} {q : α → Prop} (h : Codes m p q fun _ => True)
    (f : α → σ → σ) : Takes (do let a ← m; store (f a) : Load σ ε Unit) fun used _ s s' =>
      ∃ a, used = (p a).flatten ∧ q a ∧ s' = f a s := by
  refine (Takes.bind h fun a => takes_store (f a)).congr fun used _ s s' => ?_
  constructor
  · intro hu
    obtain ⟨u, v, a, s₁, rfl, ⟨rfl, hq, -, rfl⟩, rfl, rfl⟩ := hu
    exact ⟨a, List.append_nil _, hq, rfl⟩
  · intro hu
    obtain ⟨a, rfl, hq, rfl⟩ := hu
    exact ⟨_, [], a, s, (List.append_nil _).symm, ⟨rfl, hq, trivial, rfl⟩, rfl, rfl⟩

/-- As many rounds as a number in front says, which may not exceed the limit. -/
def repeated (limit : ℕ) (e : ε) (m : Load σ ε Unit) : Load σ ε Unit := do
  let n ← Binary.read u64
  Binary.require (n.toNat ≤ limit) e
  Binary.times m n.toNat

theorem Keeps.repeated {P : σ → Prop} {limit : ℕ} {e : ε} {m : Load σ ε Unit} (h : Keeps P m) :
    Keeps P (Binary.repeated limit e m) :=
  .read u64 fun n => .require (h.times n.toNat)

theorem takes_repeated {limit : ℕ} {e : ε} {m : Load σ ε Unit} {p : α → Bytes} {q : α → Prop} {step : σ → α → σ}
    (hlimit : limit < 2 ^ 64) (h : Takes m fun used _ s s' => ∃ a, used = p a ∧ q a ∧ s' = step s a) :
    Takes (repeated limit e m) fun used _ s s' => ∃ as : List α, as.length ≤ limit ∧
      used = putU64 (UInt64.ofNat as.length) ++ as.flatMap p ∧ (∀ a ∈ as, q a) ∧ s' = as.foldl step s := by
  refine ((takes_read exact_u64).bind fun n => (takes_require _ e).bind fun _ => h.times n.toNat).congr
    fun used _ s s' => ?_
  constructor
  · intro hu
    obtain ⟨u, v, n, s₁, rfl, ⟨rfl, -, rfl⟩, u', v', -, s₂, rfl, ⟨rfl, hn, rfl⟩, as, hlen, rfl, has, rfl⟩ := hu
    refine ⟨as, hlen.le.trans hn, ?_, has, rfl⟩
    rw [hlen, UInt64.ofNat_toNat, List.nil_append]
  · intro hu
    obtain ⟨as, hlen, rfl, has, rfl⟩ := hu
    have hn : (UInt64.ofNat as.length).toNat = as.length := UInt64.toNat_ofNat_of_lt' (hlen.trans_lt hlimit)
    exact ⟨_, _, _, s, rfl, ⟨rfl, trivial, rfl⟩, [], _, (), s, rfl, ⟨rfl, hn.le.trans hlen, rfl⟩, as, hn.symm, rfl,
      has, rfl⟩

/-- Records that are stored one after the other, behind their number. -/
theorem Codes.repeated {limit : ℕ} {m : Load σ ε α} {p : α → List Bytes} {q : α → Prop}
    (h : Codes m p q fun _ => True) (hlimit : limit < 2 ^ 64) (e : ε) (f : α → σ → σ) :
    Takes (Binary.repeated limit e (do let a ← m; store (f a))) fun used _ s s' => ∃ as : List α, as.length ≤ limit ∧
      used = putU64 (UInt64.ofNat as.length) ++ as.flatMap (fun a => (p a).flatten) ∧ (∀ a ∈ as, q a) ∧
      s' = as.foldl (fun s a => f a s) s :=
  takes_repeated hlimit (h.stored f)

/-! ## However a loader ends -/

/-- A loader that starts well and goes through has read well. -/
def Careful (m : Load σ ε α) : Prop := ∀ x a y, x.1.ok = true → m x = (.ok a, y) → y.1.ok = true

theorem careful_pure (a : α) : Careful (pure a : Load σ ε α) := by
  intro x b y hx h
  cases h
  exact hx

theorem careful_store (f : σ → σ) : Careful (store f : Load σ ε Unit) := by
  intro x b y hx h
  cases h
  exact hx

theorem Checked.careful {m : Load σ ε α} (h : Checked m) : Careful m := fun x a y _ => h x a y

theorem Careful.bind {m : Load σ ε α} {f : α → Load σ ε β} (h : Careful m) (hf : ∀ a, Careful (f a)) :
    Careful (m >>= f) := by
  intro x b y hx hb
  obtain ⟨a, z, hm, hf'⟩ := bind_ok_iff.1 hb
  exact hf a z b y (h x a z hx hm) hf'

theorem Checked.bind_careful {m : Load σ ε α} {f : α → Load σ ε β} (h : Checked m) (hf : ∀ a, Careful (f a)) :
    Checked (m >>= f) := by
  intro x b y hb
  obtain ⟨a, z, hm, hf'⟩ := bind_ok_iff.1 hb
  exact hf a z b y (h x a z hm) hf'

theorem Careful.many {m : Load σ ε α} (h : Careful m) (n : ℕ) : Careful (Binary.many m n) := by
  induction n with
  | zero => exact careful_pure []
  | succ n ih => exact h.bind fun a => ih.bind fun as => careful_pure (a :: as)

theorem Careful.counted {limit : ℕ} {e : ε} {m : Load σ ε α} (h : Careful m) : Checked (Binary.counted limit e m) :=
  .bind (fun n : UInt64 => (checked_require _ e).bind_careful fun _ => h.many n.toNat) _

/-- However the loader ends, what it stores stands in this relation to bytes at
the front of the data, and it goes on behind them. -/
def Leaves (m : Load σ ε Unit) (T : Bytes → σ → σ → Prop) : Prop :=
  ∀ r s, ∃ used rest, r.rest = used ++ rest ∧ T used s (m (r, s)).2.2 ∧
    ∀ y, m (r, s) = (.ok (), y) → y.1 = ⟨rest, true⟩

theorem leaves_require (c : Prop) [Decidable c] (e : ε) :
    Leaves (require c e : Load σ ε Unit) fun used s s' => used = [] ∧ s' = s := by
  intro r s
  refine ⟨[], r.rest, rfl, ⟨rfl, rfl⟩, ?_⟩
  intro y hy
  have hok : y.1.ok = true := checked_require c e _ _ _ hy
  obtain ⟨-, rfl⟩ := Prod.mk.inj hy
  rw [← hok]

/-- One loader, and then another that may store nothing. -/
theorem Leaves.bind {m m' : Load σ ε Unit} {T T' : Bytes → σ → σ → Prop} (h : Leaves m T) (h' : Leaves m' T')
    (hnone : ∀ s, T' [] s s) :
    Leaves (m >>= fun _ => m') fun used s s' => ∃ u v s₁, used = u ++ v ∧ T u s s₁ ∧ T' v s₁ s' := by
  intro r s
  obtain ⟨u, rest, hrest, hleft, hgoes⟩ := h r s
  rcases hm : m (r, s) with ⟨e | a, y⟩
  · rw [hm] at hleft
    rw [bind_of_error hm]
    refine ⟨u, rest, hrest, ⟨u, [], y.2, (List.append_nil u).symm, hleft, hnone y.2⟩, ?_⟩
    intro z hz
    cases hz
  · rw [hm] at hleft
    obtain ⟨r₁, s₁⟩ := y
    obtain rfl : r₁ = ⟨rest, true⟩ := hgoes _ hm
    obtain ⟨v, rest', hrest', hleft', hgoes'⟩ := h' ⟨rest, true⟩ s₁
    rw [bind_of_ok hm]
    refine ⟨u ++ v, rest', ?_, ⟨u, v, s₁, rfl, hleft, hleft'⟩, hgoes'⟩
    rw [hrest, List.append_assoc]
    exact congrArg (u ++ ·) hrest'

/-- A loop stores the items that it has got through, also when it stops. -/
theorem Takes.leaves_times {m : Load σ ε Unit} {put : α → Bytes} {fits : α → Prop} {step : σ → α → σ}
    (h : Takes m fun used _ s s' => ∃ a, used = put a ∧ fits a ∧ s' = step s a) (hchecked : Checked m)
    (hkept : ∀ x e y, m x = (.error e, y) → y.2 = x.2) (n : ℕ) (data : Bytes) (s : σ) :
    ∃ (as : List α) (rest : Bytes), data = as.flatMap put ++ rest ∧ (∀ a ∈ as, fits a) ∧
      (Binary.times m n (⟨data, true⟩, s)).2.2 = as.foldl step s ∧
      ∀ y, Binary.times m n (⟨data, true⟩, s) = (.ok (), y) → y.1 = ⟨rest, true⟩ := by
  induction n generalizing data s with
  | zero =>
    refine ⟨[], data, rfl, List.forall_mem_nil _, rfl, ?_⟩
    intro y hy
    cases hy
    rfl
  | succ n ih =>
    rw [Binary.times]
    rcases hm : m (⟨data, true⟩, s) with ⟨e | u, ⟨rest, ok⟩, s₁⟩
    · -- the round stops with the store as it was
      obtain rfl : s₁ = s := hkept _ e _ hm
      rw [bind_of_error hm]
      refine ⟨[], data, rfl, List.forall_mem_nil _, rfl, ?_⟩
      intro y hy
      cases hy
    · obtain rfl : ok = true := hchecked _ u _ hm
      obtain ⟨used, hdata, a, rfl, ha, rfl⟩ := (h ⟨data, true⟩ s u rest s₁).1 hm
      obtain ⟨as, rest', rfl, has, hstored, hgoes⟩ := ih rest (step s a)
      obtain ⟨rfl, -⟩ := Reader.mk.inj hdata
      rw [bind_of_ok hm]
      refine ⟨a :: as, rest', ?_, List.forall_mem_cons.2 ⟨ha, has⟩, hstored, hgoes⟩
      rw [List.flatMap_cons, List.append_assoc]

theorem leaves_repeated {limit : ℕ} {e : ε} {m : Load σ ε Unit} {put : α → Bytes} {fits : α → Prop} {step : σ → α → σ}
    (h : Takes m fun used _ s s' => ∃ a, used = put a ∧ fits a ∧ s' = step s a) (hchecked : Checked m)
    (hkept : ∀ x e y, m x = (.error e, y) → y.2 = x.2) :
    Leaves (repeated limit e m) fun used s s' => ∃ (front : Bytes) (as : List α), used = front ++ as.flatMap put ∧
      (∀ a ∈ as, fits a) ∧ s' = as.foldl step s := by
  intro r s
  rcases hn : u64 r with ⟨n, data, ok⟩
  have hrun : repeated limit e m (r, s) =
      if ok = true ∧ n.toNat ≤ limit then Binary.times m n.toNat (⟨data, ok⟩, s) else (.error e, (⟨data, ok⟩, s)) := by
    rw [repeated, read_bind, hn, require_bind]
  rw [hrun]
  by_cases hgood : ok = true ∧ n.toNat ≤ limit
  · obtain ⟨rfl, hlimit⟩ := hgood
    obtain ⟨hr, -⟩ := (exact_u64 r n data).1 hn
    obtain ⟨as, rest, rfl, has, hstored, hgoes⟩ := h.leaves_times hchecked hkept n.toNat data s
    rw [if_pos ⟨rfl, hlimit⟩, hr]
    refine ⟨putU64 n ++ as.flatMap put, rest, ?_, ⟨putU64 n, as, rfl, has, hstored⟩, hgoes⟩
    rw [List.append_assoc]
  · rw [if_neg hgood]
    refine ⟨[], r.rest, rfl, ⟨[], [], rfl, List.forall_mem_nil _, rfl⟩, ?_⟩
    intro y hy
    cases hy

/-- Nothing is repeated once a read has failed. -/
theorem repeated_of_fault {limit : ℕ} {e : ε} {m : Load σ ε Unit} {r : Reader} (hr : r.ok = false) (s : σ) :
    repeated limit e m (r, s) = (.error e, ((u64 r).2, s)) := by
  have hn : (u64 r).2.ok = false := by
    show (take 8 r).2.ok = false
    rw [take, if_neg (fun h => Bool.false_ne_true (hr.symm.trans h.1))]
  have hnot : ¬((u64 r).2.ok = true ∧ (u64 r).1.toNat ≤ limit) :=
    fun h => Bool.false_ne_true (hn.symm.trans h.1)
  rw [repeated, read_bind, require_bind]
  exact if_neg hnot

/-- A record that is not read to its end is not stored. -/
theorem kept_of_error {m : Load σ ε α} (h : ∀ P : σ → Prop, Keeps P m) (f : α → σ → σ) (x : Reader × σ) (e : ε)
    (y : Reader × σ) (hx : (do let a ← m; store (f a) : Load σ ε Unit) x = (.error e, y)) : y.2 = x.2 := by
  have hkept : (m x).2.2 = x.2 := h (fun s => s = x.2) x rfl
  rcases hm : m x with ⟨e' | a, z⟩
  · rw [bind_of_error hm] at hx
    cases hx
    rwa [hm] at hkept
  · rw [bind_of_ok hm] at hx
    cases (Prod.mk.inj hx).1

/-- Records that are stored one after the other, as far as they are read. -/
theorem Codes.leaves {m : Load σ ε α} {p : α → List Bytes} {q : α → Prop}
    (h : Codes m p q fun _ => True) (hchecked : Checked m) (hkeeps : ∀ P : σ → Prop, Keeps P m) (limit : ℕ)
    (e : ε) (f : α → σ → σ) : Leaves (Binary.repeated limit e (do let a ← m; store (f a)))
      fun used s s' => ∃ (front : Bytes) (as : List α),
      used = front ++ as.flatMap (fun a => (p a).flatten) ∧ (∀ a ∈ as, q a) ∧ s' = as.foldl (fun s a => f a s) s :=
  leaves_repeated (h.stored f) (hchecked.bind_careful fun _ => careful_store _) (kept_of_error hkeeps f)

end load

end Binary
