/-
Deterministic machines: runs over a list of inputs, the trace of what each
step answered, and the two induction rules for them.

An input is admissible in the state it meets (`Allowed ok`), or after the
events that led there (`Along ok`), so a restriction on runs is a predicate on
one step. `run_invariant` is for properties of the state, `history_invariant`
for properties of the state together with the trace that led to it.
-/
import Mathlib.Data.List.Basic

universe u

/-- One step takes an input, moves the state and answers. -/
structure Machine (σ ι ο : Type u) where
  step : σ → ι → σ × ο

/-- A step as it happened. -/
structure Event (σ ι ο : Type u) where
  pre : σ
  input : ι
  out : ο
  post : σ

namespace Machine

variable {σ ι ο : Type u} (m : Machine σ ι ο)

/-- The state after one input. -/
def next (s : σ) (i : ι) : σ := (m.step s i).1

/-- The step from `s` at input `i`, as an event. -/
def event (s : σ) (i : ι) : Event σ ι ο := ⟨s, i, (m.step s i).2, m.next s i⟩

/-- The state after a list of inputs. -/
def run (s : σ) (is : List ι) : σ := is.foldl m.next s

/-- The events of a run. -/
def trace : σ → List ι → List (Event σ ι ο)
  | _, [] => []
  | s, i :: is => m.event s i :: trace (m.next s i) is

/-- Every input of a run is admissible in the state it meets. -/
def Allowed (ok : σ → ι → Prop) : σ → List ι → Prop
  | _, [] => True
  | s, i :: is => ok s i ∧ Allowed ok (m.next s i) is

/-- The same for a condition on the events before as well. -/
def Along (ok : List (Event σ ι ο) → σ → ι → Prop) : List (Event σ ι ο) → σ → List ι → Prop
  | _, _, [] => True
  | past, s, i :: is => ok past s i ∧ Along ok (past ++ [m.event s i]) (m.next s i) is

/-- A property holds in every state of a run. -/
def Throughout (P : σ → Prop) : σ → List ι → Prop
  | s, [] => P s
  | s, i :: is => P s ∧ Throughout P (m.next s i) is

instance Throughout.decidable {P : σ → Prop} [DecidablePred P] :
    ∀ (s : σ) (is : List ι), Decidable (m.Throughout P s is)
  | s, [] => inferInstanceAs (Decidable (P s))
  | s, i :: is =>
    have : Decidable (m.Throughout P (m.next s i) is) := Throughout.decidable (m.next s i) is
    inferInstanceAs (Decidable (P s ∧ m.Throughout P (m.next s i) is))

instance Allowed.decidable {ok : σ → ι → Prop} [∀ s i, Decidable (ok s i)] :
    ∀ (s : σ) (is : List ι), Decidable (m.Allowed ok s is)
  | _, [] => .isTrue trivial
  | s, i :: is =>
    have : Decidable (m.Allowed ok (m.next s i) is) := Allowed.decidable (m.next s i) is
    inferInstanceAs (Decidable (ok s i ∧ m.Allowed ok (m.next s i) is))

instance Along.decidable {ok : List (Event σ ι ο) → σ → ι → Prop} [∀ past s i, Decidable (ok past s i)] :
    ∀ (past : List (Event σ ι ο)) (s : σ) (is : List ι), Decidable (m.Along ok past s is)
  | _, _, [] => .isTrue trivial
  | past, s, i :: is =>
    have : Decidable (m.Along ok (past ++ [m.event s i]) (m.next s i) is) :=
      Along.decidable (past ++ [m.event s i]) (m.next s i) is
    inferInstanceAs (Decidable (ok past s i ∧ m.Along ok (past ++ [m.event s i]) (m.next s i) is))

variable {m}

@[simp] theorem run_nil (s : σ) : m.run s [] = s := rfl

@[simp] theorem run_cons (s : σ) (i : ι) (is : List ι) : m.run s (i :: is) = m.run (m.next s i) is := rfl

theorem run_append (s : σ) (is js : List ι) : m.run s (is ++ js) = m.run (m.run s is) js :=
  List.foldl_append

theorem allowed_of_forall {ok : σ → ι → Prop} {s : σ} {is : List ι} (h : ∀ i ∈ is, ∀ s, ok s i) : m.Allowed ok s is := by
  induction is generalizing s with
  | nil => trivial
  | cons i is ih => exact ⟨h i List.mem_cons_self s, ih fun j hj => h j (List.mem_cons_of_mem i hj)⟩

theorem allowed_append {ok : σ → ι → Prop} {s : σ} {is js : List ι} :
    m.Allowed ok s (is ++ js) ↔ m.Allowed ok s is ∧ m.Allowed ok (m.run s is) js := by
  induction is generalizing s with
  | nil => simp [Allowed]
  | cons i is ih => simp only [List.cons_append, Allowed, run_cons, ih, and_assoc]

theorem trace_append (s : σ) (is js : List ι) : m.trace s (is ++ js) = m.trace s is ++ m.trace (m.run s is) js := by
  induction is generalizing s with
  | nil => rfl
  | cons i is ih => rw [List.cons_append, trace, trace, ih, run_cons, List.cons_append]

/-- What an invariant adds to the inputs of a run. -/
theorem Allowed.of_invariant {ok ok' : σ → ι → Prop} {I : σ → Prop} (hstep : ∀ s i, ok s i → I s → I (m.next s i))
    (hadd : ∀ s i, I s → ok s i → ok' s i) {s : σ} {is : List ι} (hs : I s) (hok : m.Allowed ok s is) :
    m.Allowed ok' s is := by
  induction is generalizing s with
  | nil => trivial
  | cons i is ih => exact ⟨hadd s i hs hok.1, ih (hstep s i hok.1 hs) hok.2⟩

theorem Allowed.imp {ok ok' : σ → ι → Prop} (h : ∀ s i, ok s i → ok' s i) {s : σ} {is : List ι}
    (hok : m.Allowed ok s is) : m.Allowed ok' s is :=
  hok.of_invariant (I := fun _ => True) (fun _ _ _ _ => trivial) (fun s i _ => h s i) trivial

theorem Throughout.first {P : σ → Prop} {s : σ} {is : List ι} (h : m.Throughout P s is) : P s := by
  cases is with
  | nil => exact h
  | cons => exact h.1

theorem Throughout.imp {P Q : σ → Prop} (hPQ : ∀ s, P s → Q s) {s : σ} {is : List ι} (h : m.Throughout P s is) :
    m.Throughout Q s is := by
  induction is generalizing s with
  | nil => exact hPQ s h
  | cons i is ih => exact ⟨hPQ s h.1, ih h.2⟩

theorem throughout_append {P : σ → Prop} {s : σ} {is js : List ι} :
    m.Throughout P s (is ++ js) ↔ m.Throughout P s is ∧ m.Throughout P (m.run s is) js := by
  induction is generalizing s with
  | nil => exact ⟨fun h => ⟨h.first, h⟩, And.right⟩
  | cons i is ih => simp only [List.cons_append, Throughout, run_cons, ih, and_assoc]

theorem Throughout.last {P : σ → Prop} {s : σ} {is : List ι} (h : m.Throughout P s is) : P (m.run s is) := by
  induction is generalizing s with
  | nil => exact h
  | cons i is ih => exact ih h.2

/-- A property of the state that every admissible step keeps holds after
every admissible run. -/
theorem run_invariant {ok : σ → ι → Prop} {I : σ → Prop}
    (hstep : ∀ s i, ok s i → I s → I (m.next s i)) {s : σ} {is : List ι} (hs : I s)
    (hok : m.Allowed ok s is) : I (m.run s is) := by
  induction is generalizing s with
  | nil => exact hs
  | cons i is ih => exact ih (hstep s i hok.1 hs) hok.2

/-- The same for a property of the state and of the events so far. -/
theorem history_invariant {P : σ → ι → Prop} {I : List (Event σ ι ο) → σ → Prop}
    (hstep : ∀ past s i, P s i → I past s → I (past ++ [m.event s i]) (m.next s i)) {s : σ} {is : List ι}
    (hs : I [] s) (hok : m.Allowed P s is) : I (m.trace s is) (m.run s is) := by
  have key : ∀ (is : List ι) past s, I past s → m.Allowed P s is → I (past ++ m.trace s is) (m.run s is) := by
    intro is
    induction is with
    | nil => intro past s h _; simpa [trace] using h
    | cons i is ih =>
      intro past s h hok
      have := ih (past ++ [m.event s i]) (m.next s i) (hstep past s i hok.1 h) hok.2
      simpa [trace] using this
  simpa using key is [] s hs hok

/-- What such a property adds to the inputs of a run. -/
theorem Along.of_invariant {ok ok' : List (Event σ ι ο) → σ → ι → Prop} {I : List (Event σ ι ο) → σ → Prop}
    (hstep : ∀ past s i, ok past s i → I past s → I (past ++ [m.event s i]) (m.next s i))
    (hadd : ∀ past s i, I past s → ok past s i → ok' past s i) {past : List (Event σ ι ο)} {s : σ} {is : List ι}
    (hs : I past s) (hok : m.Along ok past s is) : m.Along ok' past s is := by
  induction is generalizing past s with
  | nil => trivial
  | cons i is ih => exact ⟨hadd past s i hs hok.1, ih (hstep past s i hok.1 hs) hok.2⟩

/-- An event of a run is the step of one of its inputs, from the state the
inputs before it lead to. -/
theorem exists_of_mem_trace {s : σ} {is : List ι} {e : Event σ ι ο} (h : e ∈ m.trace s is) :
    ∃ js i ks, is = js ++ i :: ks ∧ e = m.event (m.run s js) i := by
  induction is generalizing s with
  | nil => simp [trace] at h
  | cons i is ih =>
    simp only [trace, List.mem_cons] at h
    rcases h with rfl | h
    · exact ⟨[], i, is, rfl, rfl⟩
    · obtain ⟨js, j, ks, rfl, he⟩ := ih h
      exact ⟨i :: js, j, ks, rfl, he⟩

/-! ## One machine inside another -/

/-- Some admissible inputs lead from `s` to `s'`. -/
def Leads (m : Machine σ ι ο) (ok : σ → ι → Prop) (s s' : σ) : Prop := ∃ is, m.Allowed ok s is ∧ m.run s is = s'

namespace Leads

variable {ok : σ → ι → Prop} {s s' s'' : σ}

theorem refl (s : σ) : m.Leads ok s s := ⟨[], trivial, rfl⟩

theorem single {i : ι} (h : ok s i) : m.Leads ok s (m.next s i) := ⟨[i], ⟨h, trivial⟩, rfl⟩

theorem trans (h₁ : m.Leads ok s s') (h₂ : m.Leads ok s' s'') : m.Leads ok s s'' := by
  obtain ⟨is, ha, rfl⟩ := h₁
  obtain ⟨js, hb, rfl⟩ := h₂
  exact ⟨is ++ js, allowed_append.2 ⟨ha, hb⟩, run_append s is js⟩

theorem invariant {I : σ → Prop} (hstep : ∀ s i, ok s i → I s → I (m.next s i)) (hs : I s)
    (h : m.Leads ok s s') : I s' := by
  obtain ⟨is, ha, rfl⟩ := h
  exact run_invariant hstep hs ha

theorem imp {ok' : σ → ι → Prop} (himp : ∀ s i, ok s i → ok' s i) (h : m.Leads ok s s') : m.Leads ok' s s' := by
  obtain ⟨is, ha, rfl⟩ := h
  exact ⟨is, ha.imp himp, rfl⟩

/-- If every admissible step of `m` leads somewhere in `a`, on a view of the
state, so do several. -/
theorem map {τ κ ρ : Type u} {a : Machine τ κ ρ} {v : σ → τ} {q : τ → κ → Prop}
    (hstep : ∀ s i, ok s i → a.Leads q (v s) (v (m.next s i))) (h : m.Leads ok s s') :
    a.Leads q (v s) (v s') :=
  h.invariant (I := fun t => a.Leads q (v s) (v t)) (fun t i hi ht => ht.trans (hstep t i hi)) (refl (v s))

/-- A loop over distinct elements leads from its start to its end if every
round does, under a guard on the element that the other rounds keep. -/
theorem foldl {τ : Type u} {α : Type*} {f : τ → α → τ} {v : τ → σ} {P : α → σ → Prop}
    (hstep : ∀ t a, P a (v t) → m.Leads ok (v t) (v (f t a)) ∧
      ∀ b, b ≠ a → P b (v t) → P b (v (f t a))) :
    ∀ (l : List α) (t : τ), l.Nodup → (∀ a ∈ l, P a (v t)) → m.Leads ok (v t) (v (l.foldl f t))
  | [], t, _, _ => refl _
  | a :: l, t, hl, hg => by
    obtain ⟨hn, hl⟩ := List.nodup_cons.1 hl
    obtain ⟨hlead, hkeep⟩ := hstep t a (hg a List.mem_cons_self)
    refine hlead.trans (foldl hstep l (f t a) hl fun b hb => ?_)
    exact hkeep b (fun he => hn (he ▸ hb)) (hg b (List.mem_cons_of_mem a hb))

end Leads

/-- If every admissible step of `m` is a sequence of admissible steps of `a`
on a view of the state, what the steps of `a` keep holds along the runs of `m`. -/
theorem run_invariant_of_leads {τ κ ρ : Type u} {a : Machine τ κ ρ} {v : σ → τ} {ok : σ → ι → Prop}
    {q : σ → ι → τ → κ → Prop} {I : τ → Prop}
    (hsim : ∀ s i, ok s i → a.Leads (q s i) (v s) (v (m.next s i)))
    (hI : ∀ s i, ok s i → ∀ t k, q s i t k → I t → I (a.next t k)) {s : σ} {is : List ι}
    (hs : I (v s)) (hok : m.Allowed ok s is) : I (v (m.run s is)) :=
  run_invariant (I := fun s => I (v s))
    (fun s i hi hs => (hsim s i hi).invariant (hI s i hi) hs) hs hok

end Machine
