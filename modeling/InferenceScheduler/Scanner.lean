/-
The reader of `parse_json` by its index (`src/json_util.hpp`, `Parser`): the
same functions as those of `Parser`, over the whole text and the position `i`,
with a record of what they do.

The record says where a character is read, where each round of the loops of
`object` and `array` that goes on begins and ends, and where an object or array
and the values nested in it begin. A call that is not granted enough steps
answers `none`, and so does a substring from beyond the end, which throws in
the source.
-/
import InferenceScheduler.Json

namespace InferenceScheduler.Net

/-- The position and the mark, with the record. -/
structure Scan where
  i : ℕ := 0
  ok : Bool
  reads : List ℕ := []
  rounds : List (ℕ × ℕ) := []
  nested : List (ℕ × ℕ) := []

abbrev Scanner := StateT Scan Option

namespace Scanner

/-- `++i`. -/
def advance (n : ℕ) : Scanner Unit := modify fun s => { s with i := s.i + n }

def fail : Scanner Unit := modify fun s => { s with ok := false }

section

variable (src : Text)

/-- `i < src.size()`. -/
def more : Scanner Bool := do return decide ((← get).i < src.length)

/-- `src[i]`. -/
def look : Scanner Char := do
  let s ← get
  set { s with reads := s.i :: s.reads }
  return src.getD s.i default

/-- `i < src.size() && src[i] == c`. -/
def sees (c : Char) : Scanner Bool := do
  if ← more src then return (← look src) = c else return false

/-- `src.compare(i, t.size(), t) == 0`. -/
def compare (t : Text) : Scanner Bool := do
  let s ← get
  if src.length < s.i then failure
  else
    let part := (src.drop s.i).take t.length
    set { s with reads := List.range' s.i part.length ++ s.reads }
    return part = t

/-- `src.substr(st, i - st)`. -/
def substr (st : ℕ) : Scanner Text := do
  let s ← get
  if src.length < st then failure
  else
    let part := (src.drop st).take (s.i - st)
    set { s with reads := List.range' st part.length ++ s.reads }
    return part

/-- A loop `while (i < src.size() && p(src[i])) ++i`. -/
def pass (p : Char → Bool) : ℕ → Scanner Unit
  | 0 => failure
  | fuel + 1 => do
    if ← more src then
      if p (← look src) then
        advance 1
        pass p fuel
      else return
    else return

def skip (fuel : ℕ) : Scanner Unit := pass src ws fuel

def expect : Text → Scanner Unit
  | [] => return
  | c :: t => do
    if ← sees src c then
      advance 1
      expect t
    else fail

/-- The loop of `Jstr`, with what it has so far. -/
def jstrLoop : ℕ → Text → Scanner Text
  | 0, _ => failure
  | fuel + 1, out => do
    if ← more src then
      let c ← look src
      if c = quote then
        advance 1
        return out
      else if c = backslash then
        advance 1
        if ← more src then
          let e ← look src
          advance 1
          jstrLoop fuel (out ++ [Parser.unescape e])
        else
          fail
          return out
      else
        advance 1
        jstrLoop fuel (out ++ [c])
    else
      fail
      return out

def jstr (fuel : ℕ) : Scanner Text := do
  advance 1
  jstrLoop src fuel []

def boolean : Scanner Json := do
  if ← compare src "true".toList then
    advance 4
    return .bool true
  else if ← compare src "false".toList then
    advance 5
    return .bool false
  else
    fail
    return .bool false

def sign : Scanner Unit := do
  if ← sees src '-' then advance 1

variable (N : Numerals)

def number (fuel : ℕ) : Scanner Json := do
  let st := (← get).i
  sign src
  pass src numeral fuel
  if (← get).i = st then
    fail
    return .num 0
  else return .num (N.strtod (← substr src st))

mutual

def value : ℕ → Scanner Json
  | 0 => failure
  | fuel + 1 => do
    skip src (fuel + 1)
    if ← more src then
      let c ← look src
      if c = openBrace then object fuel
      else if c = '[' then array fuel
      else if c = quote then return .str (← jstr src (fuel + 1))
      else if c = 't' ∨ c = 'f' then boolean src
      else if c = 'n' then
        expect src "null".toList
        return .null
      else number src N (fuel + 1)
    else
      fail
      return .null

def object : ℕ → Scanner Json
  | 0 => failure
  | fuel + 1 => do
    let start := (← get).i
    advance 1
    skip src (fuel + 1)
    if ← sees src closeBrace then
      advance 1
      return .obj []
    else members fuel start []

/-- The loop of the `object` at `start`, with the fields so far. -/
def members : ℕ → ℕ → List (Text × Json) → Scanner Json
  | 0, _, _ => failure
  | fuel + 1, start, fields => do
    let round := (← get).i
    if ← more src then
      skip src (fuel + 1)
      if ← sees src quote then
        let k ← jstr src (fuel + 1)
        skip src (fuel + 1)
        if ← sees src ':' then
          advance 1
          modify fun s => { s with nested := (start, s.i) :: s.nested }
          let v ← value fuel
          let fields := Json.setField k v fields
          skip src (fuel + 1)
          if ← sees src ',' then
            advance 1
            modify fun s => { s with rounds := (round, s.i) :: s.rounds }
            members fuel start fields
          else if ← sees src closeBrace then
            advance 1
            return .obj fields
          else
            fail
            return .obj []
        else
          fail
          return .obj []
      else
        fail
        return .obj []
    else
      fail
      return .obj []

def array : ℕ → Scanner Json
  | 0 => failure
  | fuel + 1 => do
    let start := (← get).i
    advance 1
    skip src (fuel + 1)
    if ← sees src ']' then
      advance 1
      return .arr []
    else elements fuel start []

/-- The loop of the `array` at `start`, with the elements so far. -/
def elements : ℕ → ℕ → List Json → Scanner Json
  | 0, _, _ => failure
  | fuel + 1, start, elems => do
    let round := (← get).i
    if ← more src then
      modify fun s => { s with nested := (start, s.i) :: s.nested }
      let elems := elems ++ [← value fuel]
      skip src (fuel + 1)
      if ← sees src ',' then
        advance 1
        modify fun s => { s with rounds := (round, s.i) :: s.rounds }
        elements fuel start elems
      else if ← sees src ']' then
        advance 1
        return .arr elems
      else
        fail
        return .arr elems
    else
      fail
      return .arr elems

end

/-- `parse_json`. -/
def parseJson (fuel : ℕ) : Scanner Json := do
  let v ← value src N fuel
  skip src fuel
  if (← get).i ≠ src.length then fail
  return v

end

end Scanner

/-! ## Safe positions -/

/-- The position is within the text, and so were all reads; rounds and nested
values go forward. -/
structure Scan.Sound (src : Text) (s : Scan) : Prop where
  within : s.i ≤ src.length
  reads : ∀ k ∈ s.reads, k < src.length
  rounds : ∀ r ∈ s.rounds, r.1 < r.2
  nested : ∀ c ∈ s.nested, c.1 < c.2

/-- What `Parser` sees of the position. -/
def Scan.view (src : Text) (s : Scan) : Parser := ⟨src.drop s.i, s.ok⟩

/-- From `s` the reader came to `s'`, safely and without going back, and stands
where `Parser` stands. -/
structure Scan.Follows (src : Text) (s s' : Scan) (p : Parser) : Prop where
  sound : s'.Sound src
  forward : s.i ≤ s'.i
  view : s'.view src = p

namespace Scan

variable {src : Text} {s s' s'' : Scan} {p p' : Parser}

theorem Follows.refl (h : s.Sound src) : Follows src s s (s.view src) := ⟨h, le_rfl, rfl⟩

theorem Follows.trans (h : Follows src s s' p) (h' : Follows src s' s'' p') : Follows src s s'' p' :=
  ⟨h'.sound, h.forward.trans h'.forward, h'.view⟩

theorem Sound.read (h : s.Sound src) (hi : s.i < src.length) : Sound src { s with reads := s.i :: s.reads } :=
  { h with reads := List.forall_mem_cons.2 ⟨hi, h.reads⟩ }

theorem Sound.readAll (h : s.Sound src) {k n : ℕ} (hk : k + n ≤ src.length) :
    Sound src { s with reads := List.range' k n ++ s.reads } := by
  refine { h with reads := List.forall_mem_append.2 ⟨fun j hj => ?_, h.reads⟩ }
  rw [List.mem_range'_1] at hj
  omega

theorem Sound.fail (h : s.Sound src) : Sound src { s with ok := false } := { h with }

theorem Sound.advance (h : s.Sound src) {n : ℕ} (hn : s.i + n ≤ src.length) : Sound src { s with i := s.i + n } :=
  { h with within := hn }

theorem rest_length : (s.view src).rest.length = src.length - s.i := List.length_drop

theorem rest_eq_nil_iff : (s.view src).rest = [] ↔ src.length ≤ s.i := List.drop_eq_nil_iff

theorem drop_eq (hi : s.i < src.length) : src.drop s.i = src.getD s.i default :: src.drop (s.i + 1) := by
  rw [List.drop_eq_getElem_cons hi, List.getD_eq_getElem?_getD, List.getElem?_eq_getElem hi, Option.getD_some]

theorem sees_of_lt (hi : s.i < src.length) (c : Char) : (s.view src).sees c = decide (src.getD s.i default = c) := by
  simp only [Parser.sees, view, drop_eq hi, List.head?_cons, Option.some.injEq]

theorem sees_of_le (hi : src.length ≤ s.i) (c : Char) : (s.view src).sees c = false := by
  simp only [Parser.sees, rest_eq_nil_iff.2 hi, List.head?_nil, reduceCtorEq, decide_false]

theorem advance_view : (s.view src).advance = view src { s with i := s.i + 1 } := by
  simp only [Parser.advance, view, List.tail_drop]

theorem Follows.position (h : Follows src s s' p) : s'.i + p.rest.length = src.length := by
  have hwithin := h.sound.within
  rw [← h.view, rest_length]
  omega

/-- A text that stands at the position is passed. -/
theorem Follows.advance {t : Text} (h : Follows src s s' (s.view src)) (hi : s'.i = s.i)
    (ht : (s.view src).rest.take t.length = t) :
    Follows src s { s' with i := s'.i + t.length }
      { s.view src with rest := (s.view src).rest.drop t.length } := by
  have hlength := congrArg List.length ht
  rw [List.length_take, rest_length] at hlength
  have hwithin := h.sound.within
  refine ⟨h.sound.advance (by omega), h.forward.trans (Nat.le_add_right ..), ?_⟩
  obtain ⟨hrest, hok⟩ := Parser.mk.inj h.view
  simp only [Scan.view, ← List.drop_drop, hrest, hok]

theorem lt_of_sees {c : Char} (h : (s.view src).sees c = true) : s.i < src.length := by
  have hpos := Parser.sees_pos h
  rw [rest_length] at hpos
  omega

end Scan

/-! ## What the functions return -/

/-- From `s` the function returns, with an answer and a state as `Q` asks. -/
def Returns {α : Type} (m : Scanner α) (s : Scan) (Q : α → Scan → Prop) : Prop := ∃ a s', m s = some (a, s') ∧ Q a s'

namespace Returns

variable {α β : Type} {m : Scanner α} {f : α → Scanner β} {s : Scan} {P Q : α → Scan → Prop} {R : β → Scan → Prop}

theorem pure {a : α} (h : Q a s) : Returns (pure a) s Q := ⟨a, s, rfl, h⟩

theorem bind (h : Returns m s P) (hf : ∀ a s', P a s' → Returns (f a) s' R) : Returns (m >>= f) s R := by
  obtain ⟨a, s', hm, hp⟩ := h
  obtain ⟨b, s'', hb, hr⟩ := hf a s' hp
  refine ⟨b, s'', ?_, hr⟩
  show (m s >>= fun p => f p.1 p.2) = some (b, s'')
  rw [hm]
  exact hb

theorem imp (h : Returns m s P) (hpq : ∀ a s', P a s' → Q a s') : Returns m s Q := by
  obtain ⟨a, s', hm, hp⟩ := h
  exact ⟨a, s', hm, hpq a s' hp⟩

theorem modify {g : Scan → Scan} {Q : Unit → Scan → Prop} (h : Q () (g s)) : Returns (modify g) s Q := ⟨(), g s, rfl, h⟩

end Returns

namespace Scanner

open Scan

variable {src : Text} {s : Scan}

theorem returns_modify {α : Type} {g : Scan → Scan} {f : Scanner α} {Q : α → Scan → Prop} (h : Returns f (g s) Q) :
    Returns (do modify g; f) s Q := by
  refine .bind (.modify (Q := fun _ s' => s' = g s) rfl) ?_
  rintro _ s' rfl
  exact h

theorem returns_get {α : Type} {f : Scan → Scanner α} {Q : α → Scan → Prop} (h : Returns (f s) s Q) :
    Returns (do let a ← get; f a) s Q := by
  have hget : Returns get s fun a s' => a = s ∧ s' = s := ⟨s, s, rfl, rfl, rfl⟩
  refine hget.bind ?_
  rintro a s' ⟨rfl, rfl⟩
  exact h

theorem returns_advance {α : Type} {n : ℕ} {f : Scanner α} {Q : α → Scan → Prop}
    (h : Returns f { s with i := s.i + n } Q) : Returns (do advance n; f) s Q := returns_modify h

theorem returns_fail {α : Type} {f : Scanner α} {Q : α → Scan → Prop} (h : Returns f { s with ok := false } Q) :
    Returns (do fail; f) s Q := returns_modify h

/-- The character at the position is read, if there is one. -/
theorem returns_more {α : Type} {f g : Scanner α} {Q : α → Scan → Prop}
    (hf : s.i < src.length → Returns f s Q) (hg : src.length ≤ s.i → Returns g s Q) :
    Returns (do if ← more src then f else g) s Q := by
  refine .bind (P := fun b s' => b = decide (s.i < src.length) ∧ s' = s) ⟨_, _, rfl, rfl, rfl⟩ ?_
  rintro b s' ⟨rfl, rfl⟩
  by_cases hi : s'.i < src.length
  · simpa only [hi, decide_true, if_true] using hf hi
  · simpa only [hi, decide_false, Bool.false_eq_true, if_false] using hg (not_lt.1 hi)

theorem returns_look {α : Type} {f : Char → Scanner α} {Q : α → Scan → Prop}
    (h : Returns (f (src.getD s.i default)) { s with reads := s.i :: s.reads } Q) :
    Returns (do let c ← look src; f c) s Q :=
  .bind (P := fun c s' => c = src.getD s.i default ∧ s' = { s with reads := s.i :: s.reads }) ⟨_, _, rfl, rfl, rfl⟩
    (by rintro c s' ⟨rfl, rfl⟩; exact h)

/-- A test for a character at the position. -/
theorem returns_sees {α : Type} {c : Char} {f g : Scanner α} {Q : α → Scan → Prop} (hs : s.Sound src)
    (hf : ∀ s', Follows src s s' (s.view src) → s'.i = s.i → (s.view src).sees c = true → Returns f s' Q)
    (hg : ∀ s', Follows src s s' (s.view src) → (s.view src).sees c = false → Returns g s' Q) :
    Returns (do if ← sees src c then f else g) s Q := by
  have hseen : Returns (sees src c) s fun b s' => b = (s.view src).sees c ∧ Follows src s s' (s.view src) ∧ s'.i = s.i := by
    refine returns_more (fun hi => ?_) fun hi => .pure ⟨(sees_of_le hi c).symm, .refl hs, rfl⟩
    exact returns_look (.pure ⟨(sees_of_lt hi c).symm, ⟨hs.read hi, le_rfl, rfl⟩, rfl⟩)
  refine hseen.bind ?_
  rintro b s' ⟨rfl, hfollows, hi⟩
  split
  · next hb => exact hf s' hfollows hi hb
  · next hb => exact hg s' hfollows (Bool.eq_false_iff.2 hb)

/-- A loop stops at the first character that it does not take. -/
theorem returns_pass (p : Char → Bool) {fuel : ℕ} (hs : s.Sound src) (hfuel : src.length - s.i < fuel) :
    Returns (pass src p fuel) s fun _ s' =>
      Follows src s s' { s.view src with rest := (s.view src).rest.dropWhile p } := by
  induction fuel generalizing s with
  | zero => omega
  | succ fuel ih =>
    refine returns_more (fun hi => returns_look ?_) fun hi => .pure ?_
    · split
      · next hp =>
        refine returns_advance ?_
        refine (ih ((hs.read hi).advance hi) (by dsimp only; omega)).imp fun _ s'' h => ?_
        refine ⟨h.sound, (Nat.le_succ _).trans h.forward, h.view.trans ?_⟩
        simp only [view, drop_eq hi, List.dropWhile_cons_of_pos hp]
      · next hp =>
        refine .pure ⟨hs.read hi, le_rfl, ?_⟩
        simp only [view, drop_eq hi, List.dropWhile_cons_of_neg hp]
    · refine ⟨hs, le_rfl, ?_⟩
      simp only [view, List.drop_eq_nil_iff.2 hi, List.dropWhile_nil]

theorem returns_skip {fuel : ℕ} (hs : s.Sound src) (hfuel : src.length - s.i < fuel) :
    Returns (skip src fuel) s fun _ s' => Follows src s s' (s.view src).skip :=
  returns_pass ws hs hfuel

/-- One step forward, to what stands behind a character. -/
theorem returns_advance_one {α : Type} {f : Scanner α} {Q : α → Scan → Prop} (hs : s.Sound src) (hi : s.i < src.length)
    (h : ∀ s', Follows src s s' (s.view src).advance → s'.i = s.i + 1 → Returns f s' Q) :
    Returns (do advance 1; f) s Q :=
  returns_advance (h _ ⟨hs.advance hi, Nat.le_succ _, advance_view.symm⟩ rfl)

theorem returns_expect (t : Text) (hs : s.Sound src) :
    Returns (expect src t) s fun _ s' => Follows src s s' ((s.view src).expect t) := by
  induction t generalizing s with
  | nil => exact .pure (.refl hs)
  | cons c t ih =>
    refine returns_sees hs (fun s₁ h₁ hi₁ hseen => ?_) fun s₁ h₁ hseen => ?_
    · refine returns_advance_one h₁.sound (hi₁ ▸ lt_of_sees hseen) fun s₂ h₂ _ => ?_
      refine (ih h₂.sound).imp fun _ s₃ h₃ => ?_
      rw [h₂.view, h₁.view] at h₃
      rw [Parser.expect, if_pos hseen]
      exact (h₁.trans h₂).trans h₃
    · refine .modify ⟨h₁.sound.fail, h₁.forward, ?_⟩
      rw [Parser.expect, hseen, if_neg Bool.false_ne_true]
      exact congrArg Parser.fail h₁.view

theorem returns_jstrLoop {fuel : ℕ} (out : Text) (hs : s.Sound src) (hfuel : src.length - s.i < fuel) :
    Returns (jstrLoop src fuel out) s fun t s' => t = out ++ (Parser.jstrBody (src.drop s.i)).1 ∧
      Follows src s s' ⟨(Parser.jstrBody (src.drop s.i)).2.1, s.ok && (Parser.jstrBody (src.drop s.i)).2.2⟩ := by
  induction fuel generalizing s out with
  | zero => omega
  | succ fuel ih =>
    refine returns_more (fun hi => returns_look ?_) fun hi => ?_
    · rw [drop_eq hi]
      unfold Parser.jstrBody
      split
      · refine returns_advance (.pure ⟨(List.append_nil out).symm, (hs.read hi).advance hi, Nat.le_succ _, ?_⟩)
        rw [Bool.and_true]
        rfl
      · split
        · refine returns_advance (returns_more (fun hi' => returns_look (returns_advance ?_)) fun hi' => ?_)
          · have hsound := (((hs.read hi).advance hi).read hi').advance (n := 1) hi'
            refine (ih (out ++ [Parser.unescape _]) hsound (by dsimp only; omega)).imp fun t s' h => ?_
            rw [drop_eq (s := { s with i := s.i + 1 }) hi']
            refine ⟨h.1.trans (List.append_cons ..).symm, h.2.sound, ?_, h.2.view⟩
            exact (Nat.le_add_right s.i 2).trans h.2.forward
          · rw [List.drop_eq_nil_iff.2 hi']
            refine returns_fail (.pure ⟨(List.append_nil out).symm, ((hs.read hi).advance hi).fail, Nat.le_succ _, ?_⟩)
            simp only [view, List.drop_eq_nil_iff.2 hi', Bool.and_false]
        · refine returns_advance ((ih _ ((hs.read hi).advance hi) (by dsimp only; omega)).imp fun t s' h => ?_)
          refine ⟨h.1.trans (List.append_cons ..).symm, h.2.sound, (Nat.le_succ _).trans h.2.forward, h.2.view⟩
    · rw [List.drop_eq_nil_iff.2 hi]
      refine returns_fail (.pure ⟨(List.append_nil out).symm, hs.fail, le_rfl, ?_⟩)
      simp only [view, List.drop_eq_nil_iff.2 hi, Parser.jstrBody, Bool.and_false]

theorem returns_jstr {fuel : ℕ} (hs : s.Sound src) (hi : s.i < src.length) (hfuel : src.length - s.i ≤ fuel) :
    Returns (jstr src fuel) s fun t s' => t = (s.view src).jstr.1 ∧ Follows src s s' (s.view src).jstr.2 ∧ s.i < s'.i := by
  refine returns_advance_one hs hi fun s₁ h₁ hi₁ => ?_
  refine (returns_jstrLoop [] h₁.sound (by omega)).imp fun t s₂ h => ?_
  obtain ⟨hdrop, hok⟩ := Parser.mk.inj h₁.view
  rw [hdrop, hok] at h
  exact ⟨h.1, h₁.trans h.2, by have := h.2.forward; omega⟩

/-- A comparison with the text at the position. -/
theorem returns_compare {α : Type} {t : Text} {f g : Scanner α} {Q : α → Scan → Prop} (hs : s.Sound src)
    (hf : ∀ s', Follows src s s' (s.view src) → s'.i = s.i → (s.view src).rest.take t.length = t → Returns f s' Q)
    (hg : ∀ s', Follows src s s' (s.view src) → s'.i = s.i → (s.view src).rest.take t.length ≠ t → Returns g s' Q) :
    Returns (do if ← compare src t then f else g) s Q := by
  have hcompared : Returns (compare src t) s fun b s' => b = decide ((s.view src).rest.take t.length = t) ∧
      Follows src s s' (s.view src) ∧ s'.i = s.i := by
    have hpart : s.i + ((src.drop s.i).take t.length).length ≤ src.length := by
      have hwithin := hs.within
      simp only [List.length_take, List.length_drop]
      omega
    refine returns_get ?_
    rw [if_neg (not_lt.2 hs.within)]
    exact returns_modify (.pure ⟨rfl, ⟨hs.readAll hpart, le_rfl, rfl⟩, rfl⟩)
  refine hcompared.bind ?_
  rintro b s' ⟨rfl, hfollows, hi⟩
  by_cases htake : (s.view src).rest.take t.length = t
  · simpa only [htake, decide_true, if_true] using hf s' hfollows hi htake
  · simpa only [htake, decide_false, Bool.false_eq_true, if_false] using hg s' hfollows hi htake

/-- The call `f` returns what `Parser` reads. -/
abbrev Reads (src : Text) (f : Scanner Json) (s : Scan) (q : Json × Parser) : Prop :=
  Returns f s fun j s' => j = q.1 ∧ Follows src s s' q.2

/-- What was read before counts too. -/
theorem Reads.after {f : Scanner Json} {s₁ : Scan} {p : Parser} {q : Json × Parser} (h : Follows src s s₁ p)
    (hf : Reads src f s₁ q) : Returns f s₁ fun j s' => j = q.1 ∧ Follows src s s' q.2 :=
  hf.imp fun _ _ hj => ⟨hj.1, h.trans hj.2⟩

theorem reads_fail {s₁ : Scan} {p : Parser} (h : Follows src s s₁ p) (j : Json) :
    Returns (do fail; return j) s₁ fun j' s' => j' = (j, p.fail).1 ∧ Follows src s s' (j, p.fail).2 :=
  returns_fail (.pure ⟨rfl, h.sound.fail, h.forward, congrArg Parser.fail h.view⟩)

theorem returns_boolean (hs : s.Sound src) :
    Reads src (boolean src) s (s.view src).boolean := by
  have hfour : "true".toList.length = 4 := rfl
  have hfive : "false".toList.length = 5 := rfl
  rw [Parser.boolean, ← hfour, ← hfive]
  refine returns_compare hs (fun s₁ h₁ hi₁ htrue => ?_) fun s₁ h₁ hi₁ htrue => ?_
  · refine returns_advance (.pure ?_)
    rw [if_pos htrue]
    exact ⟨rfl, h₁.advance hi₁ htrue⟩
  · rw [if_neg htrue]
    refine returns_compare h₁.sound (fun s₂ h₂ hi₂ hfalse => ?_) fun s₂ h₂ hi₂ hfalse => ?_
    · rw [h₁.view] at hfalse h₂
      refine returns_advance (.pure ?_)
      rw [if_pos hfalse]
      exact ⟨rfl, (h₁.trans h₂).advance (hi₂.trans hi₁) hfalse⟩
    · rw [h₁.view] at hfalse h₂
      refine returns_fail (.pure ?_)
      rw [if_neg hfalse]
      exact ⟨rfl, h₂.sound.fail, h₁.forward.trans h₂.forward, congrArg Parser.fail h₂.view⟩

/-- The characters passed since `st` are handed out. -/
theorem returns_substr {st : ℕ} (hs : s.Sound src) (hst : st ≤ s.i) :
    Returns (substr src st) s fun t s' => t = (src.drop st).take (s.i - st) ∧ Follows src s s' (s.view src) := by
  have hwithin := hs.within
  have hpart : st + ((src.drop st).take (s.i - st)).length ≤ src.length := by
    simp only [List.length_take, List.length_drop]
    omega
  refine returns_get ?_
  rw [if_neg (not_lt.2 (hst.trans hwithin))]
  exact returns_modify (.pure ⟨rfl, hs.readAll hpart, le_rfl, rfl⟩)

theorem returns_sign (hs : s.Sound src) :
    Returns (sign src) s fun _ s' =>
      let sign : Text := if (s.view src).sees '-' then ['-'] else []
      (s.view src).rest = sign ++ (s'.view src).rest ∧ s'.ok = s.ok ∧ s'.Sound src ∧ s.i ≤ s'.i := by
  refine returns_sees hs (fun s₁ h₁ hi₁ hseen => .modify ?_) fun s₁ h₁ hseen => .pure ?_
  · have hi : s.i < src.length := lt_of_sees hseen
    rw [if_pos hseen]
    rw [sees_of_lt hi, decide_eq_true_iff] at hseen
    refine ⟨?_, (Parser.mk.inj h₁.view).2, h₁.sound.advance (hi₁ ▸ hi), h₁.forward.trans (Nat.le_succ _)⟩
    simp only [view, hi₁]
    rw [drop_eq hi, hseen]
    rfl
  · rw [hseen, if_neg Bool.false_ne_true]
    exact ⟨congrArg Parser.rest h₁.view.symm, (Parser.mk.inj h₁.view).2, h₁.sound, h₁.forward⟩

theorem returns_number (N : Numerals) {fuel : ℕ} (hs : s.Sound src) (hfuel : src.length - s.i < fuel) :
    Reads src (number src N fuel) s ((s.view src).number N) := by
  refine returns_get ((returns_sign hs).bind fun _ s₁ h₁ => ?_)
  obtain ⟨hrest, hok₁, hs₁, hi₁⟩ := h₁
  refine (returns_pass numeral hs₁ (by omega)).bind fun _ s₂ h₂ => returns_get ?_
  rw [Parser.number]
  generalize (if (s.view src).sees '-' then ['-'] else [] : Text) = sign at hrest ⊢
  have hbehind : (s.view src).rest.drop sign.length = (s₁.view src).rest := by
    rw [hrest, List.drop_left]
  rw [hbehind]
  set token := sign ++ (s₁.view src).rest.takeWhile numeral with htoken
  have hsplit : src.drop s.i = token ++ (s₁.view src).rest.dropWhile numeral := by
    rw [htoken, List.append_assoc, List.takeWhile_append_dropWhile]
    exact hrest
  have hi : s₂.i = s.i + token.length := by
    have hlength := congrArg List.length hsplit
    have hposition := h₂.position
    have hwithin := hs.within
    rw [List.length_append, List.length_drop] at hlength
    dsimp only at hposition
    omega
  split
  · next heq =>
    have hempty : token = [] := List.length_eq_zero_iff.1 (by omega)
    rw [if_pos hempty]
    refine returns_fail (.pure ⟨rfl, h₂.sound.fail, by dsimp only; omega, ?_⟩)
    simp only [view, Parser.fail, heq]
  · next hne =>
    have htake : (src.drop s.i).take (s₂.i - s.i) = token := by
      rw [hsplit, hi, Nat.add_sub_cancel_left, List.take_left]
    have hnonempty : token ≠ [] := by
      intro hempty
      rw [hempty] at hi
      exact hne hi
    rw [if_neg hnonempty]
    refine (returns_substr h₂.sound (by omega)).bind fun t s₃ h₃ => .pure ?_
    rw [h₃.1, htake]
    refine ⟨rfl, h₃.2.sound, ?_, ?_⟩
    · exact (hi₁.trans h₂.forward).trans h₃.2.forward
    · rw [h₃.2.view, h₂.view]
      exact congrArg (Parser.mk _) hok₁

/-- The calls that are granted `fuel` steps return, at least three for each
character that is left. -/
structure Scans (src : Text) (N : Numerals) (fuel : ℕ) : Prop where
  value : ∀ {s : Scan}, s.Sound src → 3 * (src.length - s.i) + 1 ≤ fuel →
    Reads src (value src N fuel) s (Parser.value N fuel (s.view src))
  object : ∀ {s : Scan}, s.Sound src → s.i < src.length → 3 * (src.length - s.i) ≤ fuel →
    Reads src (object src N fuel) s (Parser.object N fuel (s.view src))
  members : ∀ {s : Scan} {start : ℕ} (fields : List (Text × Json)), s.Sound src → start < s.i →
    3 * (src.length - s.i) + 2 ≤ fuel →
    Reads src (members src N fuel start fields) s (Parser.members N fuel fields (s.view src))
  array : ∀ {s : Scan}, s.Sound src → s.i < src.length → 3 * (src.length - s.i) ≤ fuel →
    Reads src (array src N fuel) s (Parser.array N fuel (s.view src))
  elements : ∀ {s : Scan} {start : ℕ} (elems : List Json), s.Sound src → start < s.i →
    3 * (src.length - s.i) + 2 ≤ fuel →
    Reads src (elements src N fuel start elems) s (Parser.elements N fuel elems (s.view src))

section

variable {N : Numerals} {fuel : ℕ}

theorem Scans.value_succ (h : Scans src N fuel) (hs : s.Sound src) (hfuel : 3 * (src.length - s.i) + 1 ≤ fuel + 1) :
    Reads src (Scanner.value src N (fuel + 1)) s (Parser.value N (fuel + 1) (s.view src)) := by
  rw [Scanner.value]
  refine (returns_skip hs (by omega)).bind fun _ s₁ h₁ => ?_
  have hforward := h₁.forward
  rw [Parser.value, ← h₁.view]
  refine returns_more (fun hi => returns_look ?_) fun hi => ?_
  · have hread : Follows src s { s₁ with reads := s₁.i :: s₁.reads } (s₁.view src) :=
      ⟨h₁.sound.read hi, hforward, rfl⟩
    rw [if_neg (mt rest_eq_nil_iff.1 (not_le.2 hi))]
    simp only [sees_of_lt hi, decide_eq_true_eq, Bool.or_eq_true]
    split
    · exact (h.object hread.sound hi (by dsimp only; omega)).after hread
    · split
      · exact (h.array hread.sound hi (by dsimp only; omega)).after hread
      · split
        · refine (returns_jstr hread.sound hi (by dsimp only; omega)).bind fun t s₂ h₂ => .pure ?_
          exact ⟨congrArg Json.str h₂.1, hread.trans h₂.2.1⟩
        · split
          · exact (returns_boolean hread.sound).after hread
          · split
            · refine (returns_expect _ hread.sound).bind fun _ s₂ h₂ => .pure ⟨rfl, hread.trans h₂⟩
            · exact (returns_number N hread.sound (by dsimp only; omega)).after hread
  · rw [if_pos (rest_eq_nil_iff.2 hi)]
    exact reads_fail ⟨h₁.sound, hforward, rfl⟩ _

/-- `object` and `array` pass the opening character and look for the closing one. -/
theorem reads_open {close : Char} {j : Json} {loop : Scanner Json} {q : Parser → Json × Parser} {n : ℕ}
    (hs : s.Sound src) (hi : s.i < src.length) (hn : src.length - s.i ≤ n)
    (hloop : ∀ s', s'.Sound src → s.i < s'.i → Reads src loop s' (q (s'.view src))) :
    Reads src (do
        advance 1
        skip src n
        if ← sees src close then
          advance 1
          return j
        else loop) s
      (if (s.view src).advance.skip.sees close then (j, (s.view src).advance.skip.advance)
        else q (s.view src).advance.skip) := by
  refine returns_advance_one hs hi fun s₁ h₁ hi₁ => ?_
  refine (returns_skip h₁.sound (by omega)).bind fun _ s₂ h₂ => ?_
  have hforward₂ := h₂.forward
  rw [h₁.view] at h₂
  rw [← h₂.view]
  refine returns_sees h₂.sound (fun s₃ h₃ hi₃ hseen => ?_) fun s₃ h₃ hseen => ?_
  · rw [if_pos hseen]
    refine returns_advance_one h₃.sound (hi₃ ▸ lt_of_sees hseen) fun s₄ h₄ _ => .pure ⟨rfl, ?_⟩
    rw [h₃.view] at h₄
    exact ((h₁.trans h₂).trans h₃).trans h₄
  · rw [hseen, if_neg Bool.false_ne_true, ← h₃.view]
    have hforward₃ := h₃.forward
    exact (hloop s₃ h₃.sound (by omega)).after ((h₁.trans h₂).trans h₃)

/-- The end of a round of the loops of `object` and `array`. -/
theorem reads_next {close : Char} {round : ℕ} {j k : Json} {loop : Scanner Json} {q : Parser → Json × Parser} {n : ℕ}
    (hs : s.Sound src) (hround : round ≤ s.i) (hn : src.length - s.i < n)
    (hloop : ∀ s', s'.Sound src → s.i < s'.i → Reads src loop s' (q (s'.view src))) :
    Reads src (do
        skip src n
        if ← sees src ',' then
          advance 1
          modify fun s => { s with rounds := (round, s.i) :: s.rounds }
          loop
        else if ← sees src close then
          advance 1
          return j
        else
          fail
          return k) s
      (if (s.view src).skip.sees ',' then q (s.view src).skip.advance
        else if (s.view src).skip.sees close then (j, (s.view src).skip.advance) else (k, (s.view src).skip.fail)) := by
  refine (returns_skip hs hn).bind fun _ s₁ h₁ => ?_
  rw [← h₁.view]
  have hforward₁ := h₁.forward
  refine returns_sees h₁.sound (fun s₂ h₂ hi₂ hseen => ?_) fun s₂ h₂ hseen => ?_
  · rw [if_pos hseen]
    refine returns_advance_one h₂.sound (hi₂ ▸ lt_of_sees hseen) fun s₃ h₃ hi₃ => returns_modify ?_
    rw [h₂.view] at h₃
    have hround₃ : round < s₃.i := by omega
    have hrecorded : Follows src s₂ { s₃ with rounds := (round, s₃.i) :: s₃.rounds } (s₁.view src).advance :=
      ⟨{ h₃.sound with rounds := List.forall_mem_cons.2 ⟨hround₃, h₃.sound.rounds⟩ }, h₃.forward, h₃.view⟩
    rw [← hrecorded.view]
    exact (hloop _ hrecorded.sound (by dsimp only; omega)).after ((h₁.trans h₂).trans hrecorded)
  · rw [hseen, if_neg Bool.false_ne_true, ← h₂.view]
    refine returns_sees h₂.sound (fun s₃ h₃ hi₃ hseen => ?_) fun s₃ h₃ hseen => ?_
    · rw [if_pos hseen]
      refine returns_advance_one h₃.sound (hi₃ ▸ lt_of_sees hseen) fun s₄ h₄ _ => .pure ⟨rfl, ?_⟩
      rw [h₃.view] at h₄
      exact ((h₁.trans h₂).trans h₃).trans h₄
    · rw [hseen, if_neg Bool.false_ne_true]
      exact reads_fail ((h₁.trans h₂).trans h₃) k

theorem Scans.object_succ (h : Scans src N fuel) (hs : s.Sound src) (hi : s.i < src.length)
    (hfuel : 3 * (src.length - s.i) ≤ fuel + 1) :
    Reads src (Scanner.object src N (fuel + 1)) s (Parser.object N (fuel + 1) (s.view src)) := by
  rw [Scanner.object, Parser.object]
  refine returns_get (reads_open hs hi (by omega) fun s₁ hs₁ hi₁ => ?_)
  exact h.members [] hs₁ hi₁ (by omega)

theorem Scans.array_succ (h : Scans src N fuel) (hs : s.Sound src) (hi : s.i < src.length)
    (hfuel : 3 * (src.length - s.i) ≤ fuel + 1) :
    Reads src (Scanner.array src N (fuel + 1)) s (Parser.array N (fuel + 1) (s.view src)) := by
  rw [Scanner.array, Parser.array]
  refine returns_get (reads_open hs hi (by omega) fun s₁ hs₁ hi₁ => ?_)
  exact h.elements [] hs₁ hi₁ (by omega)

/-- A nested value is read from behind the start of what holds it. -/
theorem Scans.value_nested (h : Scans src N fuel) {start : ℕ} (hs : s.Sound src) (hstart : start < s.i)
    (hfuel : 3 * (src.length - s.i) + 1 ≤ fuel) {f : Json → Scanner Json} {q : Json × Parser}
    (hf : ∀ s', Follows src s s' (Parser.value N fuel (s.view src)).2 →
      Reads src (f (Parser.value N fuel (s.view src)).1) s' q) :
    Reads src (do
        modify fun s => { s with nested := (start, s.i) :: s.nested }
        let v ← Scanner.value src N fuel
        f v) s q := by
  refine returns_modify ?_
  have hnested : Follows src s { s with nested := (start, s.i) :: s.nested } (s.view src) :=
    ⟨{ hs with nested := List.forall_mem_cons.2 ⟨hstart, hs.nested⟩ }, le_rfl, rfl⟩
  refine (h.value hnested.sound hfuel).bind ?_
  rintro v s₁ ⟨rfl, h₁⟩
  exact (hf s₁ (hnested.trans h₁)).after (hnested.trans h₁)

theorem Scans.elements_succ (h : Scans src N fuel) {start : ℕ} (elems : List Json) (hs : s.Sound src)
    (hstart : start < s.i) (hfuel : 3 * (src.length - s.i) + 2 ≤ fuel + 1) :
    Reads src (Scanner.elements src N (fuel + 1) start elems) s
      (Parser.elements N (fuel + 1) elems (s.view src)) := by
  rw [Scanner.elements, Parser.elements]
  refine returns_get (returns_more (fun hi => ?_) fun hi => ?_)
  · rw [if_neg (mt rest_eq_nil_iff.1 (not_le.2 hi))]
    refine h.value_nested hs hstart (by omega) fun s₁ h₁ => ?_
    have hforward := h₁.forward
    dsimp only
    rw [← h₁.view]
    refine reads_next h₁.sound hforward (by omega) fun s₂ hs₂ hi₂ => ?_
    exact h.elements _ hs₂ (by omega) (by omega)
  · rw [if_pos (rest_eq_nil_iff.2 hi)]
    exact reads_fail (.refl hs) _

theorem Scans.members_succ (h : Scans src N fuel) {start : ℕ} (fields : List (Text × Json)) (hs : s.Sound src)
    (hstart : start < s.i) (hfuel : 3 * (src.length - s.i) + 2 ≤ fuel + 1) :
    Reads src (Scanner.members src N (fuel + 1) start fields) s
      (Parser.members N (fuel + 1) fields (s.view src)) := by
  rw [Scanner.members, Parser.members]
  refine returns_get (returns_more (fun hi => ?_) fun hi => ?_)
  · rw [if_neg (mt rest_eq_nil_iff.1 (not_le.2 hi))]
    refine (returns_skip hs (by omega)).bind fun _ s₁ h₁ => ?_
    have hforward₁ := h₁.forward
    rw [← h₁.view]
    refine returns_sees h₁.sound (fun s₂ h₂ hi₂ hquote => ?_) fun s₂ h₂ hquote => ?_
    · rw [hquote, if_neg Bool.false_ne_true.symm]
      refine (returns_jstr h₂.sound (hi₂ ▸ lt_of_sees hquote) (by omega)).bind ?_
      rintro k s₃ ⟨rfl, h₃, hi₃⟩
      refine (returns_skip h₃.sound (by omega)).bind fun _ s₄ h₄ => ?_
      have hforward₄ := h₄.forward
      rw [h₂.view] at h₃ ⊢
      rw [h₃.view] at h₄
      have h₁₄ := ((h₁.trans h₂).trans h₃).trans h₄
      dsimp only
      rw [← h₄.view]
      refine returns_sees h₄.sound (fun s₅ h₅ hi₅ hcolon => ?_) fun s₅ h₅ hcolon => ?_
      · rw [hcolon, if_neg Bool.false_ne_true.symm]
        refine returns_advance_one h₅.sound (hi₅ ▸ lt_of_sees hcolon) fun s₆ h₆ hi₆ => ?_
        rw [h₅.view] at h₆
        rw [← h₆.view]
        refine Reads.after ((h₁₄.trans h₅).trans h₆) ?_
        refine h.value_nested h₆.sound (by omega) (by omega) fun s₇ h₇ => ?_
        have hforward₇ := h₇.forward
        rw [← h₇.view]
        refine reads_next h₇.sound (by omega) (by omega) fun s₈ hs₈ hi₈ => ?_
        exact h.members _ hs₈ (by omega) (by omega)
      · rw [if_pos hcolon]
        exact reads_fail (h₁₄.trans h₅) _
    · rw [if_pos hquote]
      exact reads_fail (h₁.trans h₂) _
  · rw [if_pos (rest_eq_nil_iff.2 hi)]
    exact reads_fail (.refl hs) _

theorem scans (src : Text) (N : Numerals) (fuel : ℕ) : Scans src N fuel := by
  induction fuel with
  | zero => exact ⟨fun _ h => by omega, fun _ hi h => by omega, fun _ _ _ h => by omega, fun _ hi h => by omega,
      fun _ _ _ h => by omega⟩
  | succ fuel ih =>
    exact ⟨ih.value_succ, ih.object_succ, ih.members_succ, ih.array_succ, ih.elements_succ⟩

end

theorem returns_parseJson (N : Numerals) (ok : Bool) {fuel : ℕ} (hfuel : 3 * src.length + 1 ≤ fuel) :
    Returns (parseJson src N fuel) { ok := ok } fun j s =>
      (j, s.ok) = Net.parseJson N src ok ∧ s.Sound src ∧ (s.ok = true → s.i = src.length) := by
  have hstart : Sound src { ok := ok } :=
    ⟨Nat.zero_le _, List.forall_mem_nil _, List.forall_mem_nil _, List.forall_mem_nil _⟩
  refine ((scans src N fuel).value hstart (by dsimp only; omega)).bind ?_
  rintro v s₁ ⟨rfl, h₁⟩
  refine (returns_skip h₁.sound (by omega)).bind fun _ s₂ h₂ => returns_get ?_
  have hvalue : Parser.value N fuel (view src { ok := ok }) = Parser.value N (3 * src.length + 3) ⟨src, ok⟩ :=
    parseJson_fuel N src ok hfuel
  have hparsed : Net.parseJson N src ok =
      ((Parser.value N fuel (view src { ok := ok })).1, s₂.ok && (src.drop s₂.i).isEmpty) := by
    rw [h₁.view, hvalue] at h₂
    rw [hvalue, Net.parseJson, ← h₂.view]
    rfl
  rw [hparsed]
  have hwithin := h₂.sound.within
  split
  · next hne =>
    have hleft : (src.drop s₂.i).isEmpty = false := by
      rw [List.isEmpty_eq_false_iff]
      exact mt List.drop_eq_nil_iff.1 (by omega)
    rw [hleft, Bool.and_false]
    exact returns_fail (.pure ⟨rfl, h₂.sound.fail, fun hok => absurd hok Bool.false_ne_true⟩)
  · next heq =>
    have hend : s₂.i = src.length := not_not.1 heq
    rw [hend, List.drop_length, List.isEmpty_nil, Bool.and_true]
    exact .pure ⟨rfl, h₂.sound, fun _ => hend⟩

end Scanner

/-- On every text, whatever the mark, the reader returns, with the answer that
`Parser` describes; no character is read at or beyond the end; a round of a loop
that goes on ends behind where it began; a nested value begins behind the object
or array that holds it; and if the mark is still set, all of the text was
read. -/
theorem parseJson_terminates (N : Numerals) (src : Text) (ok : Bool) (more : ℕ) :
    ∃ j s, Scanner.parseJson src N (3 * src.length + 3 + more) { ok := ok } = some (j, s) ∧
      (j, s.ok) = parseJson N src ok ∧ (∀ k ∈ s.reads, k < src.length) ∧ (∀ r ∈ s.rounds, r.1 < r.2) ∧
      (∀ c ∈ s.nested, c.1 < c.2) ∧ s.i ≤ src.length ∧ (s.ok = true → s.i = src.length) := by
  have hfuel : 3 * src.length + 1 ≤ 3 * src.length + 3 + more := by omega
  obtain ⟨j, s, hrun, hanswer, hsound, hend⟩ := Scanner.returns_parseJson N ok hfuel
  exact ⟨j, s, hrun, hanswer, hsound.reads, hsound.rounds, hsound.nested, hsound.within, hend⟩

/-- An array that ends within its second element, an object. -/
theorem parseJson_terminates_cut :
    ∃ j s, Scanner.parseJson "[1,\x7b".toList ⟨fun _ => [], fun _ => 1⟩ 15 { ok := true } = some (j, s) ∧
      s.ok = false ∧ ∀ k ∈ s.reads, k < 4 := by
  obtain ⟨j, s, hrun, hanswer, hreads, -⟩ :=
    parseJson_terminates ⟨fun _ => [], fun _ => 1⟩ "[1,\x7b".toList true 0
  refine ⟨j, s, hrun, (congrArg Prod.snd hanswer).trans ?_, hreads⟩
  decide +kernel

end InferenceScheduler.Net
