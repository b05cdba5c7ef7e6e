/-
A bounded log that several takers empty.

Entries are posted to a log that keeps the last `cap` of them. A taker takes
the whole log at once and passes its entries on one by one, while others post
and take. What a full log drops is remembered in `dropped`, so that every
entry ever posted is in exactly one place.
-/
import Mathlib.Algebra.Order.Group.Multiset
import Mathlib.Tactic.Abel

universe u v

/-- A log that has grown by one, cut to its last `cap` entries. -/
def List.trim {ε : Type u} (cap : ℕ) (l : List ε) : List ε := if l.length > cap then l.tail else l

@[ext] structure Mailbox (θ : Type u) (ε : Type v) where
  log : List ε := []
  held : List (θ × ε) := []
  passed : List ε := []
  dropped : List ε := []

namespace Mailbox

variable {θ : Type u} {ε : Type v} (cap : ℕ) (m : Mailbox θ ε)

/-- Post an entry: the oldest goes if there are too many. -/
def post (e : ε) : Mailbox θ ε :=
  { m with
    log := (m.log ++ [e]).trim cap
    dropped := if (m.log ++ [e]).length > cap then m.dropped ++ (m.log ++ [e]).head?.toList else m.dropped }

/-- Post several entries in order. -/
def posts (es : List ε) : Mailbox θ ε := es.foldl (post cap) m

/-- Take the whole log. -/
def take (t : θ) : Mailbox θ ε := { m with log := [], held := m.held ++ m.log.map (t, ·) }

/-- Pass on the next of the entries that `t` holds. -/
def pass [DecidableEq θ] (t : θ) : Mailbox θ ε :=
  { m with
    held := m.held.eraseP (·.1 = t)
    passed := m.passed ++ ((m.held.find? (·.1 = t)).map Prod.snd).toList }

/-- Every entry, wherever it is. -/
def contents : Multiset ε := ↑m.passed + ↑(m.held.map Prod.snd) + ↑m.log + ↑m.dropped

/-! ## Nothing is lost or doubled -/

theorem contents_post (e : ε) : (m.post cap e).contents = m.contents + {e} := by
  obtain ⟨a, l, hl⟩ : ∃ a l, m.log ++ [e] = a :: l :=
    List.exists_cons_of_ne_nil (List.append_ne_nil_of_right_ne_nil _ (List.cons_ne_nil _ _))
  have hgrown : (↑(a :: l) : Multiset ε) = ↑m.log + {e} := by
    rw [← hl, ← Multiset.coe_add, Multiset.coe_singleton]
  simp only [contents, post, List.trim, hl]
  split
  · -- The oldest entry goes from the log to the dropped ones.
    have hold : (↑(m.dropped ++ [a]) : Multiset ε) = ↑m.dropped + {a} := by
      rw [← Multiset.coe_add, Multiset.coe_singleton]
    have hlog : (↑l : Multiset ε) + {a} = ↑m.log + {e} := by
      rw [← hgrown, add_comm, Multiset.singleton_add, Multiset.cons_coe]
    rw [List.tail_cons, List.head?_cons, Option.toList_some, hold]
    calc (↑m.passed + ↑(m.held.map Prod.snd) + ↑l + (↑m.dropped + {a}) : Multiset ε)
        = ↑m.passed + ↑(m.held.map Prod.snd) + (↑l + {a}) + ↑m.dropped := by abel
      _ = ↑m.passed + ↑(m.held.map Prod.snd) + ↑m.log + ↑m.dropped + {e} := by rw [hlog]; abel
  · rw [hgrown]
    abel

theorem contents_posts (es : List ε) : (m.posts cap es).contents = m.contents + ↑es := by
  induction es generalizing m with
  | nil => exact (add_zero _).symm
  | cons e es ih =>
    rw [posts, List.foldl_cons, ← posts, ih, contents_post, add_assoc, Multiset.singleton_add, Multiset.cons_coe]

theorem contents_take (t : θ) : (m.take t).contents = m.contents := by
  have hall : ((m.log.map (t, ·)).map Prod.snd : List ε) = m.log := by
    rw [List.map_map]
    exact List.map_id _
  simp only [contents, take, List.map_append, hall, ← Multiset.coe_add, Multiset.coe_nil]
  abel

theorem contents_pass [DecidableEq θ] (t : θ) : (m.pass t).contents = m.contents := by
  simp only [contents, pass]
  cases hf : m.held.find? (·.1 = t) with
  | none =>
    have hkept : m.held.eraseP (·.1 = t) = m.held := List.eraseP_of_forall_not (List.find?_eq_none.1 hf)
    rw [hkept, Option.map_none, Option.toList_none, List.append_nil]
  | some p =>
    obtain ⟨hp, as, bs, hheld, has⟩ := List.find?_eq_some_iff_append.1 hf
    have herase : m.held.eraseP (·.1 = t) = as ++ bs := by
      rw [hheld, List.eraseP_append_right _ fun x hx => by simpa using has x hx, List.eraseP_cons, hp, cond_true]
    have hadd : ∀ l : List ε, (↑(l ++ [p.2]) : Multiset ε) = ↑l + {p.2} := fun l => by
      rw [← Multiset.coe_add, Multiset.coe_singleton]
    rw [herase, hheld, Option.map_some, Option.toList_some, hadd, List.map_append, List.map_append, List.map_cons,
      ← Multiset.coe_add, ← Multiset.coe_add, ← Multiset.cons_coe, ← Multiset.singleton_add]
    abel

/-! ## What is dropped -/

theorem trim_length {l : List ε} (h : l.length ≤ cap) (e : ε) :
    ((l ++ [e]).trim cap).length = min cap (l.length + 1) := by
  unfold List.trim
  split
  · next hfull =>
    rw [List.length_append, List.length_singleton] at hfull
    rw [List.length_tail, List.length_append, List.length_singleton]
    omega
  · next hroom =>
    rw [List.length_append, List.length_singleton] at hroom ⊢
    omega

theorem posts_log (es : List ε) : (m.posts cap es).log = es.foldl (fun l e => (l ++ [e]).trim cap) m.log := by
  induction es generalizing m with
  | nil => rfl
  | cons e es ih => rw [posts, List.foldl_cons, ← posts, ih, List.foldl_cons, post]

theorem posts_log_length (es : List ε) (h : m.log.length ≤ cap) :
    (m.posts cap es).log.length = min cap (m.log.length + es.length) := by
  induction es generalizing m with
  | nil => exact (min_eq_right h).symm
  | cons e es ih =>
    have hpost : (m.post cap e).log.length = min cap (m.log.length + 1) := trim_length cap h e
    rw [posts, List.foldl_cons, ← posts, ih (m.post cap e) (by omega), hpost, List.length_cons]
    omega

/-- The log is what is left of all that came. -/
theorem posts_log_sublist (es : List ε) : (m.posts cap es).log.Sublist (m.log ++ es) := by
  induction es generalizing m with
  | nil => rw [List.append_nil, posts, List.foldl_nil]
  | cons e es ih =>
    have hpost : (m.post cap e).log.Sublist (m.log ++ [e]) := by
      unfold post List.trim
      dsimp only
      split
      · exact List.tail_sublist _
      · exact .refl _
    rw [List.append_cons]
    exact (ih (m.post cap e)).trans (hpost.append_right es)

theorem posts_kept (es : List ε) : (m.posts cap es).held = m.held ∧ (m.posts cap es).passed = m.passed := by
  induction es generalizing m with
  | nil => exact ⟨rfl, rfl⟩
  | cons e es ih => exact ih (m.post cap e)

theorem post_dropped_eq_nil_iff (e : ε) : (m.post cap e).dropped = [] ↔ m.dropped = [] ∧ m.log.length + 1 ≤ cap := by
  simp only [post, List.length_append, List.length_singleton]
  split
  · next hfull =>
    refine iff_of_false ?_ fun h => absurd h.2 (not_le.2 hfull)
    cases m.log <;> simp
  · next hroom => exact (and_iff_left (not_lt.1 hroom)).symm

/-- Nothing is dropped exactly if the entries fit in behind those that wait. -/
theorem posts_dropped_eq_nil_iff {es : List ε} (hm : m.log.length ≤ cap) :
    (m.posts cap es).dropped = [] ↔ m.dropped = [] ∧ m.log.length + es.length ≤ cap := by
  induction es generalizing m with
  | nil => exact (and_iff_left hm).symm
  | cons e es ih =>
    have hpost : (m.post cap e).log.length = min cap (m.log.length + 1) := trim_length cap hm e
    rw [posts, List.foldl_cons, ← posts, ih (m.post cap e) (by omega), post_dropped_eq_nil_iff, and_assoc]
    refine and_congr_right fun _ => ?_
    rw [hpost, List.length_cons]
    omega

end Mailbox
