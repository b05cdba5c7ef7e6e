/-
A reader by its offset, with a record of what it does.

A `Cursor` holds all the data and the place in it, as a reader in C does. It
keeps a list of the offsets it has had and of the bytes it has touched. `Walk`
is to a cursor what `Load` is to a `Reader`. `Shows` says that a walk does what
a load does on the data from the offset on, and that the cursor stays sound:
the offset only grows and nothing outside of the data is touched. The rules
follow how walks are put together.
-/
import InferenceScheduler.Lib.Binary

namespace Binary

structure Cursor where
  data : Bytes
  off : ℕ := 0
  ok : Bool := true
  /-- The offsets so far, the last one first. -/
  trail : List ℕ := [0]
  /-- Where bytes were read, and how many. -/
  touched : List (ℕ × ℕ) := []

namespace Cursor

/-! ## Reading -/

/-- So many bytes can be read. -/
def can (c : Cursor) (n : ℕ) : Bool := c.ok && c.off + n ≤ c.data.length

/-- The next bytes, which the offset moves behind. -/
def copy (c : Cursor) (n : ℕ) : Bytes × Cursor :=
  ((c.data.drop c.off).take n,
    { c with off := c.off + n, trail := (c.off + n) :: c.trail, touched := (c.off, n) :: c.touched })

def fault (c : Cursor) : Cursor := { c with ok := false }

/-- A read. -/
abbrev Fetch (α : Type) := StateM Cursor α

/-- So many bytes, none if there are fewer. -/
def take (n : ℕ) : Fetch Bytes := fun c => if !c.can n then ([], c.fault) else c.copy n

def u8 : Fetch UInt8 := do return UInt8.ofNat (toNat (← take 1))

def u32 : Fetch UInt32 := do return UInt32.ofNat (toNat (← take 4))

def u64 : Fetch UInt64 := do return UInt64.ofNat (toNat (← take 8))

def i32 : Fetch ℤ := do return toInt 32 (← u32).toNat

def i64 : Fetch ℤ := do return toInt 64 (← u64).toNat

/-- A string after its length, which may not exceed the limit. -/
def str (limit : ℕ) : Fetch Bytes := do
  let n ← u64
  fun c =>
    if !c.ok || n.toNat > limit then ([], c.fault)
    else if c.off + n.toNat > c.data.length then ([], c.fault)
    else c.copy n.toNat

/-! ## Walking -/

/-- A reader that fills a store and may stop with an error. -/
abbrev Walk (σ ε α : Type) := ExceptT ε (StateM (Cursor × σ)) α

section walk

variable {σ ε α β : Type}

/-- A read. -/
def read (f : Fetch α) : Walk σ ε α := fun x => (.ok (f x.1).1, ((f x.1).2, x.2))

/-- Stop unless all reads were good and the condition holds. -/
def require (p : Prop) [Decidable p] (e : ε) : Walk σ ε Unit := fun x =>
  (if x.1.ok = true ∧ p then .ok () else .error e, x)

/-- Change the store. -/
def store (f : σ → σ) : Walk σ ε Unit := fun x => (.ok (), (x.1, f x.2))

/-- A list of so many. -/
def many (m : Walk σ ε α) : ℕ → Walk σ ε (List α)
  | 0 => pure []
  | n + 1 => do
    let a ← m
    let as ← many m n
    return a :: as

/-- So many times. -/
def times (m : Walk σ ε Unit) : ℕ → Walk σ ε Unit
  | 0 => pure ()
  | n + 1 => do
    m
    times m n

/-- A list after its length, which may not exceed the limit. -/
def counted (limit : ℕ) (e : ε) (m : Walk σ ε α) : Walk σ ε (List α) := do
  let n ← read u64
  require (n.toNat ≤ limit) e
  many m n.toNat

/-- As many rounds as a number in front says, which may not exceed the limit. -/
def repeated (limit : ℕ) (e : ε) (m : Walk σ ε Unit) : Walk σ ε Unit := do
  let n ← read u64
  require (n.toNat ≤ limit) e
  times m n.toNat

end walk

/-! ## Sound cursors -/

/-- The offset is within the data and has only grown, and only bytes of the
data were touched. -/
structure Sound (c : Cursor) : Prop where
  within : c.off ≤ c.data.length
  current : c.trail.head? = some c.off
  grown : c.trail.Pairwise (· ≥ ·)
  touched : ∀ t ∈ c.touched, t.1 + t.2 ≤ c.data.length

theorem sound_start (data : Bytes) : Sound { data } :=
  ⟨Nat.zero_le _, rfl, List.pairwise_singleton _ 0, List.forall_mem_nil _⟩

/-- What a `Reader` sees. -/
def view (c : Cursor) : Reader := ⟨c.data.drop c.off, c.ok⟩

theorem view_ok (c : Cursor) : c.view.ok = c.ok := rfl

theorem Sound.trail_le {c : Cursor} (h : c.Sound) {o : ℕ} (ho : o ∈ c.trail) : o ≤ c.off := by
  obtain ⟨-, hcurrent, hgrown, -⟩ := h
  cases htrail : c.trail with
  | nil =>
    rw [htrail] at ho
    cases ho
  | cons first rest =>
    rw [htrail] at ho hcurrent hgrown
    cases hcurrent
    rcases List.mem_cons.1 ho with rfl | ho
    · exact le_rfl
    · exact List.rel_of_pairwise_cons hgrown ho

theorem Sound.fault {c : Cursor} (h : c.Sound) : c.fault.Sound := { h with }

theorem Sound.copy {c : Cursor} (h : c.Sound) {n : ℕ} (hn : c.off + n ≤ c.data.length) : (c.copy n).2.Sound where
  within := hn
  current := rfl
  grown := List.pairwise_cons.2 ⟨fun _ ho => (h.trail_le ho).trans (Nat.le_add_right ..), h.grown⟩
  touched := List.forall_mem_cons.2 ⟨hn, h.touched⟩

/-- The read does on the cursor what `g` does on what is left. -/
def Mirrors {α : Type} (f : Fetch α) (g : Get α) : Prop :=
  ∀ c : Cursor, c.Sound → g c.view = ((f c).1, (f c).2.view) ∧ (f c).2.Sound ∧ (f c).2.data = c.data

section mirrors

variable {α β : Type}

theorem Mirrors.map {f : Fetch α} {g : Get α} (h : Mirrors f g) (k : α → β) :
    Mirrors (do return k (← f)) (do return k (← g)) := by
  intro c hc
  obtain ⟨hview, hsound, hdata⟩ := h c hc
  refine ⟨?_, hsound, hdata⟩
  show (k (g c.view).1, (g c.view).2) = _
  rw [hview]
  rfl

theorem Mirrors.bind {f : Fetch α} {g : Get α} {f' : α → Fetch β} {g' : α → Get β} (h : Mirrors f g)
    (h' : ∀ a, Mirrors (f' a) (g' a)) : Mirrors (f >>= f') (g >>= g') := by
  intro c hc
  obtain ⟨hview, hsound, hdata⟩ := h c hc
  obtain ⟨hview', hsound', hdata'⟩ := h' (f c).1 (f c).2 hsound
  refine ⟨?_, hsound', hdata'.trans hdata⟩
  show g' (g c.view).1 (g c.view).2 = _
  rw [hview]
  exact hview'

theorem mirrors_pure (a : α) : Mirrors (pure a : Fetch α) (pure a) := fun _ hc => ⟨rfl, hc, rfl⟩

theorem copy_view (c : Cursor) (n : ℕ) : (c.copy n).2.view = ⟨c.view.rest.drop n, c.ok⟩ := by
  simp only [view, copy, List.drop_drop]

theorem can_iff {c : Cursor} {n : ℕ} : c.can n = true ↔ c.ok = true ∧ c.off + n ≤ c.data.length := by
  rw [can, Bool.and_eq_true, decide_eq_true_iff]

theorem mirrors_take (n : ℕ) : Mirrors (take n) (Binary.take n) := by
  intro c hc
  have hwithin := hc.within
  have hrest : c.view.rest.length = c.data.length - c.off := List.length_drop
  rw [take, Binary.take]
  by_cases h : c.can n = true
  · obtain ⟨hok, hn⟩ := can_iff.1 h
    rw [if_pos ⟨hok, by omega⟩, h]
    exact ⟨Prod.ext rfl (copy_view c n).symm, hc.copy hn, rfl⟩
  · have hcannot : ¬(c.view.ok = true ∧ n ≤ c.view.rest.length) := by
      rintro ⟨hok, hn⟩
      exact h (can_iff.2 ⟨hok, by omega⟩)
    rw [if_neg hcannot, Bool.eq_false_iff.2 h]
    exact ⟨rfl, hc.fault, rfl⟩

theorem mirrors_u8 : Mirrors u8 Binary.u8 := (mirrors_take 1).map _

theorem mirrors_u32 : Mirrors u32 Binary.u32 := (mirrors_take 4).map _

theorem mirrors_u64 : Mirrors u64 Binary.u64 := (mirrors_take 8).map _

theorem mirrors_i32 : Mirrors i32 Binary.i32 := mirrors_u32.map _

theorem mirrors_i64 : Mirrors i64 Binary.i64 := mirrors_u64.map _

theorem mirrors_str (limit : ℕ) : Mirrors (str limit) (Binary.str limit) := by
  refine mirrors_u64.bind fun n c hc => ?_
  by_cases hgood : c.ok = true ∧ n.toNat ≤ limit
  · -- a good length is followed by what `take` does
    have htake : take n.toNat c = if c.off + n.toNat > c.data.length then ([], c.fault) else c.copy n.toNat := by
      rw [take, can, hgood.1, Bool.true_and]
      by_cases hn : c.off + n.toNat ≤ c.data.length
      · rw [if_neg (not_lt.2 hn), decide_eq_true hn]
        rfl
      · rw [if_pos (not_le.1 hn), decide_eq_false hn]
        rfl
    have hfirst : (!c.ok || decide (n.toNat > limit)) = false := by
      rw [hgood.1, decide_eq_false (not_lt.2 hgood.2)]
      rfl
    rw [view_ok, if_pos hgood, hfirst, if_neg Bool.false_ne_true, ← htake]
    exact mirrors_take n.toNat c hc
  · have hfirst : (!c.ok || decide (n.toNat > limit)) = true := by
      rw [Bool.or_eq_true, decide_eq_true_iff, Bool.not_eq_true', gt_iff_lt, ← not_le, ← Bool.not_eq_true]
      exact not_and_or.1 hgood
    rw [view_ok, if_neg hgood, if_pos hfirst]
    exact ⟨rfl, hc.fault, rfl⟩

end mirrors

/-! ## Walks that show a load -/

/-- The walk does on the cursor what `m'` does on what is left. -/
def Shows {σ ε α : Type} (m : Walk σ ε α) (m' : Load σ ε α) : Prop :=
  ∀ (c : Cursor) (s : σ), c.Sound →
    m' (c.view, s) = ((m (c, s)).1, ((m (c, s)).2.1.view, (m (c, s)).2.2)) ∧
      (m (c, s)).2.1.Sound ∧ (m (c, s)).2.1.data = c.data

section shows

variable {σ ε α β : Type}

theorem shows_pure (a : α) : Shows (pure a : Walk σ ε α) (pure a) := fun _ _ hc => ⟨rfl, hc, rfl⟩

theorem shows_read {f : Fetch α} {g : Get α} (h : Mirrors f g) : Shows (read f : Walk σ ε α) (Binary.read g) := by
  intro c s hc
  obtain ⟨hview, hsound, hdata⟩ := h c hc
  refine ⟨?_, hsound, hdata⟩
  show ((Except.ok (g c.view).1, ((g c.view).2, s)) : Except ε α × Reader × σ) = _
  rw [hview]
  rfl

theorem shows_require (p : Prop) [Decidable p] (e : ε) :
    Shows (require p e : Walk σ ε Unit) (Binary.require p e) := fun _ _ hc => ⟨rfl, hc, rfl⟩

theorem shows_store (f : σ → σ) : Shows (store f : Walk σ ε Unit) (Binary.store f) := fun _ _ hc => ⟨rfl, hc, rfl⟩

theorem Shows.bind {m : Walk σ ε α} {m' : Load σ ε α} {f : α → Walk σ ε β} {f' : α → Load σ ε β} (h : Shows m m')
    (hf : ∀ a, Shows (f a) (f' a)) : Shows (m >>= f) (m' >>= f') := by
  intro c s hc
  obtain ⟨hview, hsound, hdata⟩ := h c s hc
  have hrun : (m >>= f) (c, s) = ExceptT.bindCont f (m (c, s)).1 (m (c, s)).2 := rfl
  have hrun' : (m' >>= f') (c.view, s) = ExceptT.bindCont f' (m' (c.view, s)).1 (m' (c.view, s)).2 := rfl
  rw [hrun, hrun', hview]
  cases (m (c, s)).1 with
  | error e => exact ⟨rfl, hsound, hdata⟩
  | ok a =>
    obtain ⟨hview', hsound', hdata'⟩ := hf a (m (c, s)).2.1 (m (c, s)).2.2 hsound
    exact ⟨hview', hsound', hdata'.trans hdata⟩

/-- A field, then the rest of the record. -/
theorem Shows.read {f : Fetch α} {g : Get α} (h : Mirrors f g) {k : α → Walk σ ε β} {k' : α → Load σ ε β}
    (hk : ∀ a, Shows (k a) (k' a)) : Shows (Cursor.read f >>= k) (Binary.read g >>= k') :=
  (shows_read h).bind hk

theorem Shows.require {p : Prop} [Decidable p] {e : ε} {k : Unit → Walk σ ε β} {k' : Unit → Load σ ε β}
    (hk : Shows (k ()) (k' ())) : Shows (Cursor.require p e >>= k) (Binary.require p e >>= k') :=
  (shows_require p e).bind fun _ => hk

theorem Shows.many {m : Walk σ ε α} {m' : Load σ ε α} (h : Shows m m') (n : ℕ) :
    Shows (Cursor.many m n) (Binary.many m' n) := by
  induction n with
  | zero => exact shows_pure []
  | succ n ih => exact h.bind fun a => ih.bind fun as => shows_pure (a :: as)

theorem Shows.times {m : Walk σ ε Unit} {m' : Load σ ε Unit} (h : Shows m m') (n : ℕ) :
    Shows (Cursor.times m n) (Binary.times m' n) := by
  induction n with
  | zero => exact shows_pure ()
  | succ n ih => exact h.bind fun _ => ih

theorem Shows.counted {m : Walk σ ε α} {m' : Load σ ε α} (h : Shows m m') (limit : ℕ) (e : ε) :
    Shows (Cursor.counted limit e m) (Binary.counted limit e m') :=
  .read mirrors_u64 fun n => .require (h.many n.toNat)

theorem Shows.repeated {m : Walk σ ε Unit} {m' : Load σ ε Unit} (h : Shows m m') (limit : ℕ) (e : ε) :
    Shows (Cursor.repeated limit e m) (Binary.repeated limit e m') :=
  .read mirrors_u64 fun n => .require (h.times n.toNat)

end shows

end Cursor

end Binary
