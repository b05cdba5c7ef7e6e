/-
Strong identifiers and the factory that issues them
(`include/inference_scheduler/id_types.hpp`).

Every kind of identifier is a 64-bit value; the all-ones value is the invalid
one. One factory issues the ids of every kind: the `n`-th call of `next`
answers the salt in the high half or-ed with the call number. The call number
is a 64-bit counter, so it reaches into the high half from call `2^32` on.
-/
import Mathlib.Data.Nat.Bitwise
import Mathlib.Tactic.Linarith

namespace InferenceScheduler

/-- The phantom tags of `Id<Tag>`. -/
inductive IdTag
  | request | tenant | session | sequence | attempt | batch | worker | node | accelerator
  | model | revision | adapter | epoch | bootId | generation
  deriving DecidableEq

/-- A strong identifier. -/
structure Id (t : IdTag) where
  value : UInt64
  deriving DecidableEq

namespace Id

variable {t : IdTag}

theorem ext_value {a b : Id t} (h : a.value = b.value) : a = b := by
  cases a
  cases b
  exact congrArg mk h

/-- `Id<Tag>::invalid`. -/
def invalidValue : UInt64 := 0xFFFFFFFFFFFFFFFF

/-- A default-constructed identifier. -/
def invalid : Id t := ⟨invalidValue⟩

instance : Inhabited (Id t) := ⟨invalid⟩

def valid (i : Id t) : Bool := i.value != invalidValue

/-- `operator<`. -/
def lt (a b : Id t) : Bool := a.value < b.value

/-- `operator<=`, the order in which an ordered container enumerates. -/
def le (a b : Id t) : Prop := a.value ≤ b.value

instance : DecidableRel (le (t := t)) := fun a b => inferInstanceAs (Decidable (a.value ≤ b.value))

@[simp] theorem valid_invalid : (invalid : Id t).valid = false := by simp [valid, invalid]

end Id

abbrev RequestId := Id .request
abbrev TenantId := Id .tenant
abbrev SessionId := Id .session
abbrev SequenceId := Id .sequence
abbrev AttemptId := Id .attempt
abbrev BatchId := Id .batch
abbrev WorkerId := Id .worker
abbrev NodeId := Id .node
abbrev AcceleratorId := Id .accelerator
abbrev ModelIdentity := Id .model
abbrev ModelRevision := Id .revision
abbrev AdapterIdentity := Id .adapter
abbrev SchedulerEpoch := Id .epoch
abbrev WorkerBootId := Id .bootId
abbrev Generation := Id .generation

/-- The factory: its salt and the number of ids it has issued. -/
structure IdFactory where
  salt : UInt64
  counter : ℕ := 0

namespace IdFactory

/-- The value of the `n`-th id: `(salt << 32) | n`, the counter taken modulo
`2^64`. -/
def issue (salt : UInt64) (n : ℕ) : UInt64 := (salt <<< 32) ||| UInt64.ofNat n

/-- The id the next call answers. -/
def peek (f : IdFactory) {t : IdTag} : Id t := ⟨issue f.salt (f.counter + 1)⟩

/-- The factory after that call. -/
def tick (f : IdFactory) : IdFactory := { f with counter := f.counter + 1 }

def next (f : IdFactory) {t : IdTag} : Id t × IdFactory := (f.peek, f.tick)

@[simp] theorem tick_salt (f : IdFactory) : f.tick.salt = f.salt := rfl

@[simp] theorem tick_counter (f : IdFactory) : f.tick.counter = f.counter + 1 := rfl

/-- An id the factory has issued. -/
def Issued (f : IdFactory) {t : IdTag} (i : Id t) : Prop :=
  ∃ n, 1 ≤ n ∧ n ≤ f.counter ∧ i.value = issue f.salt n

/-- The ids issued so far are pairwise distinct. -/
def Distinct (f : IdFactory) : Prop :=
  ∀ i, i < f.counter → ∀ j, j < i → issue f.salt (i + 1) ≠ issue f.salt (j + 1)

/-- None of the ids issued so far is the invalid one. -/
def AllValid (f : IdFactory) : Prop := ∀ i, i < f.counter → issue f.salt (i + 1) ≠ Id.invalidValue

instance (f : IdFactory) : Decidable f.Distinct :=
  inferInstanceAs (Decidable (∀ i, i < f.counter → ∀ j, j < i → issue f.salt (i + 1) ≠ issue f.salt (j + 1)))

instance (f : IdFactory) : Decidable f.AllValid :=
  inferInstanceAs (Decidable (∀ i, i < f.counter → issue f.salt (i + 1) ≠ Id.invalidValue))

/-- `f'` is `f` after zero or more calls. -/
def Extends (f' f : IdFactory) : Prop := f'.salt = f.salt ∧ f.counter ≤ f'.counter

theorem Extends.refl (f : IdFactory) : f.Extends f := ⟨rfl, Nat.le_refl _⟩

theorem Extends.trans {f g h : IdFactory} (h₁ : h.Extends g) (h₂ : g.Extends f) : h.Extends f :=
  ⟨h₁.1.trans h₂.1, Nat.le_trans h₂.2 h₁.2⟩

theorem extends_tick (f : IdFactory) : f.tick.Extends f := ⟨rfl, Nat.le_succ _⟩

theorem Distinct.of_extends {f f' : IdFactory} (h : f'.Distinct) (he : f'.Extends f) : f.Distinct := by
  intro i hi j hj
  have := h i (Nat.lt_of_lt_of_le hi he.2) j hj
  rwa [he.1] at this

theorem AllValid.of_extends {f f' : IdFactory} (h : f'.AllValid) (he : f'.Extends f) : f.AllValid := by
  intro i hi
  have := h i (Nat.lt_of_lt_of_le hi he.2)
  rwa [he.1] at this

/-- The factory has drawn no id twice and not the invalid one. -/
structure Sound (f : IdFactory) : Prop where
  distinct : f.Distinct
  allValid : f.AllValid

theorem Sound.of_extends {f f' : IdFactory} (h : f'.Sound) (he : f'.Extends f) : f.Sound :=
  ⟨h.distinct.of_extends he, h.allValid.of_extends he⟩

theorem Issued.of_extends {f f' : IdFactory} {t : IdTag} {i : Id t} (h : f.Issued i) (he : f'.Extends f) :
    f'.Issued i := by
  obtain ⟨n, h1, hn, hi⟩ := h
  exact ⟨n, h1, Nat.le_trans hn he.2, by rw [he.1]; exact hi⟩

theorem issued_peek (f : IdFactory) {t : IdTag} : f.tick.Issued (f.peek : Id t) :=
  ⟨f.counter + 1, by omega, Nat.le_refl _, rfl⟩

/-- With distinct ids, the id issued next is not one issued before. -/
theorem peek_ne_of_issued {f : IdFactory} {t : IdTag} {i : Id t} (hd : f.tick.Distinct) (hi : f.Issued i) :
    f.peek ≠ i := by
  obtain ⟨n, h1, hn, hv⟩ := hi
  intro he
  have hne := hd f.counter (Nat.lt_succ_self _) (n - 1) (by omega)
  rw [show n - 1 + 1 = n by omega, tick_salt, ← hv, ← he] at hne
  exact hne rfl

theorem valid_peek {f : IdFactory} {t : IdTag} (h : f.tick.AllValid) : (f.peek : Id t).valid = true := by
  have := h f.counter (Nat.lt_succ_self _)
  simpa [Id.valid, peek] using this

theorem valid_of_issued {f : IdFactory} {t : IdTag} {i : Id t} (h : f.AllValid) (hi : f.Issued i) :
    i.valid = true := by
  obtain ⟨n, h1, hn, hv⟩ := hi
  have := h (n - 1) (by omega)
  rw [show n - 1 + 1 = n by omega, ← hv] at this
  simpa [Id.valid] using this

/-- No id drawn from `f` until it is `f'` has this value. -/
def Spares (f f' : IdFactory) (v : UInt64) : Prop :=
  ∀ n, n < f'.counter → f.counter ≤ n → issue f.salt (n + 1) ≠ v

instance (f f' : IdFactory) (v : UInt64) : Decidable (f.Spares f' v) :=
  inferInstanceAs (Decidable (∀ n, n < f'.counter → f.counter ≤ n → issue f.salt (n + 1) ≠ v))

theorem Spares.of_extends {f f₁ f' : IdFactory} {v : UInt64} (h : f.Spares f' v) (he : f₁.Extends f) :
    f₁.Spares f' v := by
  intro n hn hle
  rw [he.1]
  exact h n hn (Nat.le_trans he.2 hle)

theorem Spares.peek_ne {f f' : IdFactory} {v : UInt64} (h : f.Spares f' v) (he : f'.Extends f.tick) {t : IdTag} :
    (f.peek : Id t).value ≠ v :=
  h f.counter (Nat.lt_of_succ_le he.2) (Nat.le_refl _)

/-- With distinct ids, one that is issued is not drawn again. -/
theorem spares_of_issued {f f' : IdFactory} {t : IdTag} {i : Id t} (hd : f'.Distinct) (he : f'.Extends f)
    (hi : f.Issued i) : f.Spares f' i.value := by
  obtain ⟨k, h1, hk, hv⟩ := hi
  intro n hn hle
  have hne := hd n hn (k - 1) (by omega)
  rwa [he.1, show k - 1 + 1 = k by omega, ← hv] at hne

end IdFactory

end InferenceScheduler
