/-
Messages as text (`src/json_util.hpp`): a tree, its writer and its reader.

The reader is handed the text from where it stands. It goes on after an error
with its mark cleared, as the source's does; where the source calls itself,
the model counts the calls down from a number that the text's length gives.
-/
import Mathlib.Algebra.Group.Nat.Defs
import Mathlib.Data.Char
import Mathlib.Data.List.Lex
import Mathlib.Data.Rat.Defs

namespace InferenceScheduler.Net

/-- A `std::string`: its characters, each of them a byte. -/
abbrev Text := List Char

/-! ## Trees -/

/-- The fields of an object are listed as `std::map` keeps them. -/
inductive Json
  | null
  | bool (b : Bool)
  | num (v : ℚ)
  | str (s : Text)
  | arr (elems : List Json)
  | obj (fields : List (Text × Json))

namespace Json

/-- A field set in a map that is kept in the order of its keys. -/
def setField (k : Text) (v : Json) : List (Text × Json) → List (Text × Json)
  | [] => [(k, v)]
  | f :: fs => if k < f.1 then (k, v) :: f :: fs else if k = f.1 then (k, v) :: fs else f :: setField k v fs

/-- A field set through `operator[]`, which is used on objects only. -/
def set (j : Json) (k : String) (v : Json) : Json :=
  match j with
  | obj fields => obj (setField k.toList v fields)
  | j => j

/-- An object whose fields are set one after the other. -/
def object (fields : List (String × Json)) : Json := fields.foldl (fun j f => j.set f.1 f.2) (obj [])

def get (j : Json) (k : String) : Option Json :=
  match j with
  | obj fields => fields.lookup k.toList
  | _ => none

def getstr (j : Json) (k : String) (dflt : Text := []) : Text :=
  match j.get k with
  | some (str s) => s
  | _ => dflt

def getnum (j : Json) (k : String) (dflt : ℚ := 0) : ℚ :=
  match j.get k with
  | some (num v) => v
  | _ => dflt

/-- The keys of every object are in order. -/
inductive Ordered : Json → Prop
  | null : Ordered null
  | bool (b : Bool) : Ordered (bool b)
  | num (v : ℚ) : Ordered (num v)
  | str (s : Text) : Ordered (str s)
  | arr {elems : List Json} (h : ∀ e ∈ elems, Ordered e) : Ordered (arr elems)
  | obj {fields : List (Text × Json)} (hkeys : fields.Pairwise fun f g => f.1 < g.1)
      (h : ∀ f ∈ fields, Ordered f.2) : Ordered (obj fields)

end Json

/-! ## Characters -/

def quote : Char := '\x22'

def backslash : Char := '\x5c'

def openBrace : Char := '\x7b'

def closeBrace : Char := '\x7d'

/-- `detail::ws`. -/
def ws (c : Char) : Bool := c = ' ' || c = '\t' || c = '\n' || c = '\r'

/-- What can stand in a number after its sign. -/
def numeral (c : Char) : Bool := c.isDigit || c = '.' || c = 'e' || c = 'E' || c = '+'

/-! ## Numbers -/

/-- How `ostream` prints a double and `strtod` reads one. -/
structure Numerals where
  print : ℚ → Text
  strtod : Text → ℚ

/-- An integer in plain decimal digits. -/
def decimal (n : ℤ) : Text := if n < 0 then '-' :: Nat.toDigits 10 n.natAbs else Nat.toDigits 10 n.natAbs

/-- Integers that a double holds are printed and read as plain digits. -/
def Numerals.Exact (N : Numerals) : Prop :=
  ∀ n : ℤ, n.natAbs < 2 ^ 53 → N.print n = decimal n ∧ N.strtod (decimal n) = n

/-! ## The writer -/

/-- A character of a string value. -/
def escape (c : Char) : Text := if c = quote ∨ c = backslash then [backslash, c] else [c]

/-- A comma before each but the first. -/
def comma (first : Bool) : Text := if first then [] else [',']

section dump

variable (N : Numerals)

mutual

def dumpJson : Json → Text
  | .null => "null".toList
  | .bool b => if b then "true".toList else "false".toList
  | .num v => N.print v
  | .str s => quote :: s.flatMap escape ++ [quote]
  | .arr elems => '[' :: dumpElems true elems ++ [']']
  | .obj fields => openBrace :: dumpFields true fields ++ [closeBrace]

def dumpElems (first : Bool) : List Json → Text
  | [] => []
  | e :: es => comma first ++ dumpJson e ++ dumpElems false es

def dumpFields (first : Bool) : List (Text × Json) → Text
  | [] => []
  | (k, v) :: fs => comma first ++ (quote :: k ++ [quote, ':']) ++ dumpJson v ++ dumpFields false fs

end

end dump

/-! ## The reader -/

/-- The text from where the reader stands, and its mark. -/
structure Parser where
  rest : Text
  ok : Bool

namespace Parser

def fail (p : Parser) : Parser := { p with ok := false }

def skip (p : Parser) : Parser := { p with rest := p.rest.dropWhile ws }

/-- `++i`. -/
def advance (p : Parser) : Parser := { p with rest := p.rest.tail }

/-- `i < src.size() && src[i] == c`. -/
def sees (p : Parser) (c : Char) : Bool := p.rest.head? = some c

/-- Stops before the first character that is not the expected one. -/
def expect : Text → Parser → Parser
  | [], p => p
  | c :: t, p => if p.sees c then expect t p.advance else p.fail

def unescape (e : Char) : Char :=
  if e = 'n' then '\n' else if e = 't' then '\t' else if e = 'r' then '\r'
  else if e = 'b' then '\x08' else if e = 'f' then '\x0c' else e

/-- The characters up to the closing quote, the text behind it, and whether there was one. -/
def jstrBody : Text → Text × Text × Bool
  | [] => ([], [], false)
  | c :: rest =>
    if c = quote then ([], rest, true)
    else if c = backslash then
      match rest with
      | [] => ([], [], false)
      | e :: rest =>
        let r := jstrBody rest
        (unescape e :: r.1, r.2)
    else
      let r := jstrBody rest
      (c :: r.1, r.2)

def jstr (p : Parser) : Text × Parser :=
  let r := jstrBody p.rest.tail
  (r.1, ⟨r.2.1, p.ok && r.2.2⟩)

def boolean (p : Parser) : Json × Parser :=
  if p.rest.take 4 = "true".toList then (.bool true, { p with rest := p.rest.drop 4 })
  else if p.rest.take 5 = "false".toList then (.bool false, { p with rest := p.rest.drop 5 })
  else (.bool false, p.fail)

section parse

variable (N : Numerals)

def number (p : Parser) : Json × Parser :=
  let sign : Text := if p.sees '-' then ['-'] else []
  let behind := p.rest.drop sign.length
  let token := sign ++ behind.takeWhile numeral
  if token = [] then (.num 0, p.fail)
  else (.num (N.strtod token), { p with rest := behind.dropWhile numeral })

mutual

def value : ℕ → Parser → Json × Parser
  | 0, p => (.null, p.fail)
  | fuel + 1, p =>
    let p := p.skip
    if p.rest = [] then (.null, p.fail)
    else if p.sees openBrace then object fuel p
    else if p.sees '[' then array fuel p
    else if p.sees quote then (.str p.jstr.1, p.jstr.2)
    else if p.sees 't' || p.sees 'f' then p.boolean
    else if p.sees 'n' then (.null, p.expect "null".toList)
    else p.number N

def object : ℕ → Parser → Json × Parser
  | 0, p => (.null, p.fail)
  | fuel + 1, p =>
    let p := p.advance.skip
    if p.sees closeBrace then (.obj [], p.advance) else members fuel [] p

/-- The loop of `object`, with the fields so far. -/
def members : ℕ → List (Text × Json) → Parser → Json × Parser
  | 0, _, p => (.null, p.fail)
  | fuel + 1, fields, p =>
    if p.rest = [] then (.obj [], p.fail)
    else if p.skip.sees quote = false then (.obj [], p.skip.fail)
    else
      let key := p.skip.jstr
      let p := key.2.skip
      if p.sees ':' = false then (.obj [], p.fail)
      else
        let v := value fuel p.advance
        let fields := Json.setField key.1 v.1 fields
        let p := v.2.skip
        if p.sees ',' then members fuel fields p.advance
        else if p.sees closeBrace then (.obj fields, p.advance)
        else (.obj [], p.fail)

def array : ℕ → Parser → Json × Parser
  | 0, p => (.null, p.fail)
  | fuel + 1, p =>
    let p := p.advance.skip
    if p.sees ']' then (.arr [], p.advance) else elements fuel [] p

/-- The loop of `array`, with the elements so far. -/
def elements : ℕ → List Json → Parser → Json × Parser
  | 0, _, p => (.null, p.fail)
  | fuel + 1, elems, p =>
    if p.rest = [] then (.arr elems, p.fail)
    else
      let v := value fuel p
      let elems := elems ++ [v.1]
      let p := v.2.skip
      if p.sees ',' then elements fuel elems p.advance
      else if p.sees ']' then (.arr elems, p.advance)
      else (.arr elems, p.fail)

end

end parse

end Parser

/-- The tree that was read, and the mark that the caller handed over. Each
call of the reader's functions needs a character of its own within three. -/
def parseJson (N : Numerals) (s : Text) (ok : Bool) : Json × Bool :=
  let v := Parser.value N (3 * s.length + 3) ⟨s, ok⟩
  let p := v.2.skip
  (v.1, p.ok && p.rest.isEmpty)

/-! ## Fields set and read -/

namespace Json

theorem lookup_cons_ite {α : Type} [BEq α] [LawfulBEq α] [DecidableEq α] (k : α) (f : α × Json) (fields : List (α × Json)) :
    (f :: fields).lookup k = if k = f.1 then some f.2 else fields.lookup k := by
  rw [List.lookup_cons]
  by_cases hk : k = f.1
  · rw [if_pos hk, beq_iff_eq.2 hk]
  · rw [if_neg hk, beq_eq_false_iff_ne.2 hk]

theorem lookup_setField (k k' : Text) (v : Json) (fields : List (Text × Json)) :
    (setField k v fields).lookup k' = if k' = k then some v else fields.lookup k' := by
  induction fields with
  | nil => exact lookup_cons_ite k' (k, v) []
  | cons f fields ih =>
    rw [setField]
    split
    · exact lookup_cons_ite k' (k, v) (f :: fields)
    · split
      · next heq =>
        rw [lookup_cons_ite, lookup_cons_ite, ← heq]
        split <;> rfl
      · next hne =>
        rw [lookup_cons_ite, lookup_cons_ite, ih]
        by_cases hk : k' = f.1
        · rw [if_pos hk, if_pos hk, if_neg (hk ▸ Ne.symm hne)]
        · rw [if_neg hk, if_neg hk]

theorem get_foldl_set (k : String) (fields : List (String × Json)) (acc : List (Text × Json)) :
    (fields.foldl (fun j f => j.set f.1 f.2) (obj acc)).get k =
      (fields.reverse.lookup k).or (acc.lookup k.toList) := by
  induction fields generalizing acc with
  | nil => rfl
  | cons f fields ih =>
    rw [List.foldl_cons, set, ih, lookup_setField, List.reverse_cons, List.lookup_append, Option.or_assoc]
    rw [lookup_cons_ite]
    simp only [String.toList_inj]
    by_cases hk : k = f.1
    · rw [if_pos hk, if_pos hk]
      rfl
    · rw [if_neg hk, if_neg hk]
      rfl

/-- The field set last is the one that is read. -/
theorem get_object (k : String) (fields : List (String × Json)) :
    (object fields).get k = fields.reverse.lookup k := by
  rw [object, get_foldl_set, List.lookup_nil, Option.or_none]

theorem lookup_of_mem {fields : List (String × Json)} (hkeys : (fields.map Prod.fst).Nodup) {f : String × Json}
    (hf : f ∈ fields) : fields.lookup f.1 = some f.2 := by
  induction fields with
  | nil => cases hf
  | cons g fields ih =>
    rw [List.map_cons, List.nodup_cons] at hkeys
    rw [lookup_cons_ite]
    rcases List.mem_cons.1 hf with rfl | hf
    · rw [if_pos rfl]
    · have hne : f.1 ≠ g.1 := by
        intro heq
        exact hkeys.1 (heq ▸ List.mem_map_of_mem hf)
      rw [if_neg hne, ih hkeys.2 hf]

theorem get_object_of_mem {fields : List (String × Json)} (hkeys : (fields.map Prod.fst).Nodup) {f : String × Json}
    (hf : f ∈ fields) : (object fields).get f.1 = some f.2 := by
  rw [get_object]
  refine lookup_of_mem ?_ (List.mem_reverse.2 hf)
  rw [List.map_reverse]
  exact (List.reverse_perm _).nodup_iff.2 hkeys

end Json

/-! ## What the reader keeps

Whatever the text, the fields of an object that is read are in the order of
their keys, and the reader never goes back. So the calls it can still make
are bounded by the text that is left, and `parseJson` counts enough of them. -/

namespace Parser

section keeps

variable {N : Numerals}

theorem mem_setField {k : Text} {v : Json} {fields : List (Text × Json)} {f : Text × Json}
    (h : f ∈ Json.setField k v fields) : f = (k, v) ∨ f ∈ fields := by
  induction fields with
  | nil => exact .inl (List.mem_singleton.1 h)
  | cons g fields ih =>
    rw [Json.setField] at h
    split at h
    · exact List.mem_cons.1 h
    · split at h
      · exact (List.mem_cons.1 h).imp_right (List.mem_cons_of_mem g)
      · rcases List.mem_cons.1 h with rfl | h
        · exact .inr List.mem_cons_self
        · exact (ih h).imp_right (List.mem_cons_of_mem g)

theorem setField_pairwise {k : Text} {v : Json} {fields : List (Text × Json)}
    (h : fields.Pairwise fun f g => f.1 < g.1) : (Json.setField k v fields).Pairwise fun f g => f.1 < g.1 := by
  induction fields with
  | nil => exact List.pairwise_singleton _ _
  | cons g fields ih =>
    obtain ⟨hg, hfields⟩ := List.pairwise_cons.1 h
    rw [Json.setField]
    split
    · next hlt =>
      refine List.pairwise_cons.2 ⟨?_, h⟩
      intro f hf
      rcases List.mem_cons.1 hf with rfl | hf
      · exact hlt
      · exact List.lt_trans hlt (hg f hf)
    · next hlt =>
      split
      · next heq =>
        refine List.pairwise_cons.2 ⟨?_, hfields⟩
        intro f hf
        rw [show k = g.1 from heq]
        exact hg f hf
      · next hne =>
        refine List.pairwise_cons.2 ⟨?_, ih hfields⟩
        intro f hf
        rcases mem_setField hf with rfl | hf
        · exact (lt_or_gt_of_ne hne).resolve_left hlt
        · exact hg f hf

/-- Every function of the reader answers a tree whose objects are in order. -/
theorem ordered_of_fuel (fuel : ℕ) :
    (∀ p, (value N fuel p).1.Ordered) ∧ (∀ p, (object N fuel p).1.Ordered) ∧
      (∀ fields p, fields.Pairwise (fun f g => f.1 < g.1) → (∀ f ∈ fields, f.2.Ordered) →
        (members N fuel fields p).1.Ordered) ∧
      (∀ p, (array N fuel p).1.Ordered) ∧
      ∀ elems p, (∀ e ∈ elems, e.Ordered) → (elements N fuel elems p).1.Ordered := by
  have hnone : (Json.obj []).Ordered := .obj .nil fun f hf => absurd hf List.not_mem_nil
  induction fuel with
  | zero => exact ⟨fun _ => .null, fun _ => .null, fun _ _ _ _ => .null, fun _ => .null, fun _ _ _ => .null⟩
  | succ fuel ih =>
    obtain ⟨hvalue, hobject, hmembers, harray, helements⟩ := ih
    refine ⟨?_, ?_, ?_, ?_, ?_⟩
    · intro p
      rw [value]
      split_ifs
      · exact .null
      · exact hobject _
      · exact harray _
      · exact .str _
      · rw [boolean]
        split_ifs <;> exact .bool _
      · exact .null
      · rw [number]
        split_ifs <;> exact .num _
    · intro p
      rw [object]
      split_ifs
      · exact hnone
      · exact hmembers [] _ .nil fun f hf => absurd hf List.not_mem_nil
    · intro fields p hkeys hfields
      rw [members]
      dsimp only
      have hnext : ∀ k v, v.Ordered → ∀ f ∈ Json.setField k v fields, f.2.Ordered := by
        intro k v hv f hf
        rcases mem_setField hf with rfl | hf
        · exact hv
        · exact hfields f hf
      split_ifs
      · exact hnone
      · exact hnone
      · exact hnone
      · exact hmembers _ _ (setField_pairwise hkeys) (hnext _ _ (hvalue _))
      · exact .obj (setField_pairwise hkeys) (hnext _ _ (hvalue _))
      · exact hnone
    · intro p
      rw [array]
      split_ifs
      · exact .arr fun e he => absurd he List.not_mem_nil
      · exact helements [] _ fun e he => absurd he List.not_mem_nil
    · intro elems p helems
      rw [elements]
      dsimp only
      have hnext : ∀ e ∈ elems ++ [(value N fuel p).1], e.Ordered := by
        intro e he
        rcases List.mem_append.1 he with he | he
        · exact helems e he
        · rw [List.mem_singleton.1 he]
          exact hvalue p
      split_ifs
      · exact .arr helems
      · exact helements _ _ hnext
      · exact .arr hnext
      · exact .arr hnext

theorem skip_length (p : Parser) : p.skip.rest.length ≤ p.rest.length := (List.dropWhile_sublist _).length_le

theorem advance_length (p : Parser) : p.advance.rest.length ≤ p.rest.length := (List.tail_sublist _).length_le

theorem advance_length_of_pos {p : Parser} (h : 0 < p.rest.length) : p.advance.rest.length + 1 = p.rest.length := by
  rw [advance, List.length_tail]
  omega

theorem sees_pos {p : Parser} {c : Char} (h : p.sees c = true) : 0 < p.rest.length := by
  obtain ⟨_ | ⟨d, t⟩, ok⟩ := p
  · simp [sees] at h
  · exact Nat.succ_pos _

theorem expect_length (t : Text) (p : Parser) : (p.expect t).rest.length ≤ p.rest.length := by
  induction t generalizing p with
  | nil => exact le_refl _
  | cons c t ih =>
    rw [expect]
    split
    · exact (ih _).trans p.advance_length
    · exact le_refl _

theorem jstrBody_length (t : Text) : (jstrBody t).2.1.length ≤ t.length := by
  fun_induction jstrBody t with
  | case1 => exact le_refl _
  | case2 rest => exact Nat.le_succ _
  | case3 => exact Nat.zero_le _
  | case4 _ e rest r ih => exact ih.trans (by simp only [List.length_cons]; omega)
  | case5 c rest _ _ r ih => exact ih.trans (Nat.le_succ _)

theorem jstr_length (p : Parser) : p.jstr.2.rest.length ≤ p.rest.length :=
  (jstrBody_length _).trans p.advance_length

theorem boolean_length (p : Parser) : p.boolean.2.rest.length ≤ p.rest.length := by
  rw [boolean]
  split_ifs
  · exact (List.drop_sublist _ _).length_le
  · exact (List.drop_sublist _ _).length_le
  · exact le_refl _

theorem number_length (p : Parser) : (p.number N).2.rest.length ≤ p.rest.length := by
  rw [number]
  split_ifs
  · exact le_refl _
  · exact ((List.dropWhile_sublist _).trans (List.drop_sublist _ _)).length_le
  · exact le_refl _
  · exact ((List.dropWhile_sublist _).trans (List.drop_sublist _ _)).length_le

/-- No function of the reader goes back in the text. -/
theorem rest_of_fuel (fuel : ℕ) :
    (∀ p, (value N fuel p).2.rest.length ≤ p.rest.length) ∧
      (∀ p, (object N fuel p).2.rest.length ≤ p.rest.length) ∧
      (∀ fields p, (members N fuel fields p).2.rest.length ≤ p.rest.length) ∧
      (∀ p, (array N fuel p).2.rest.length ≤ p.rest.length) ∧
      ∀ elems p, (elements N fuel elems p).2.rest.length ≤ p.rest.length := by
  induction fuel with
  | zero => exact ⟨fun _ => le_refl _, fun _ => le_refl _, fun _ _ => le_refl _, fun _ => le_refl _, fun _ _ => le_refl _⟩
  | succ fuel ih =>
    obtain ⟨hvalue, hobject, hmembers, harray, helements⟩ := ih
    refine ⟨?_, ?_, ?_, ?_, ?_⟩
    · intro p
      have hskip := p.skip_length
      rw [value]
      split_ifs
      · exact hskip
      · exact (hobject _).trans hskip
      · exact (harray _).trans hskip
      · exact (jstr_length _).trans hskip
      · exact (boolean_length _).trans hskip
      · exact (expect_length _ _).trans hskip
      · exact (number_length _).trans hskip
    · intro p
      have hskip := p.advance.skip_length.trans p.advance_length
      rw [object]
      split_ifs
      · exact (advance_length _).trans hskip
      · exact (hmembers _ _).trans hskip
    · intro fields p
      have hkey := ((skip_length _).trans p.skip.jstr_length).trans p.skip_length
      have hbehind := ((skip_length _).trans (hvalue p.skip.jstr.2.skip.advance)).trans ((advance_length _).trans hkey)
      rw [members]
      dsimp only
      split_ifs
      · exact le_refl _
      · exact p.skip_length
      · exact hkey
      · exact (hmembers _ _).trans ((advance_length _).trans hbehind)
      · exact (advance_length _).trans hbehind
      · exact hbehind
    · intro p
      have hskip := p.advance.skip_length.trans p.advance_length
      rw [array]
      split_ifs
      · exact (advance_length _).trans hskip
      · exact (helements _ _).trans hskip
    · intro elems p
      have hbehind := (skip_length _).trans (hvalue p)
      rw [elements]
      dsimp only
      split_ifs
      · exact le_refl _
      · exact (helements _ _).trans ((advance_length _).trans hbehind)
      · exact (advance_length _).trans hbehind
      · exact hbehind

/-- Two counts that suffice for the text that is left give the same answer. -/
theorem fuel_enough (f g : ℕ) :
    (∀ p, 3 * p.rest.length + 1 ≤ f → 3 * p.rest.length + 1 ≤ g → value N f p = value N g p) ∧
      (∀ p, 0 < p.rest.length → 3 * p.rest.length ≤ f → 3 * p.rest.length ≤ g → object N f p = object N g p) ∧
      (∀ fields p, 3 * p.rest.length + 2 ≤ f → 3 * p.rest.length + 2 ≤ g →
        members N f fields p = members N g fields p) ∧
      (∀ p, 0 < p.rest.length → 3 * p.rest.length ≤ f → 3 * p.rest.length ≤ g → array N f p = array N g p) ∧
      ∀ elems p, 3 * p.rest.length + 2 ≤ f → 3 * p.rest.length + 2 ≤ g →
        elements N f elems p = elements N g elems p := by
  induction f generalizing g with
  | zero => exact ⟨by omega, by omega, by omega, by omega, by omega⟩
  | succ f ih =>
    cases g with
    | zero => exact ⟨by omega, by omega, by omega, by omega, by omega⟩
    | succ g =>
      obtain ⟨hvalue, hobject, hmembers, harray, helements⟩ := ih g
      obtain ⟨hrest, -, -, -, -⟩ := rest_of_fuel (N := N) g
      refine ⟨?_, ?_, ?_, ?_, ?_⟩
      · intro p hf hg
        have hskip := p.skip_length
        rw [value, value]
        split_ifs with h1 h2 h3
        · rfl
        · exact hobject _ (sees_pos h2) (by omega) (by omega)
        · exact harray _ (sees_pos h3) (by omega) (by omega)
        all_goals rfl
      · intro p hpos hf hg
        have hskip := p.advance.skip_length
        have hadvance := advance_length_of_pos hpos
        rw [object, object]
        split_ifs
        · rfl
        · exact hmembers _ _ (by omega) (by omega)
      · intro fields p hf hg
        have hkey := ((skip_length _).trans p.skip.jstr_length).trans p.skip_length
        have hbefore := (advance_length _).trans hkey
        have hbehind := ((skip_length _).trans (hrest p.skip.jstr.2.skip.advance)).trans hbefore
        rw [members, members]
        dsimp only
        rw [hvalue _ (by omega) (by omega)]
        split_ifs with h1 h2 h3 h4
        · rfl
        · rfl
        · rfl
        · have hcomma := advance_length_of_pos (sees_pos h4)
          exact hmembers _ _ (by omega) (by omega)
        all_goals rfl
      · intro p hpos hf hg
        have hskip := p.advance.skip_length
        have hadvance := advance_length_of_pos hpos
        rw [array, array]
        split_ifs
        · rfl
        · exact helements _ _ (by omega) (by omega)
      · intro elems p hf hg
        have hbehind := (skip_length _).trans (hrest p)
        rw [elements, elements]
        dsimp only
        rw [hvalue _ (by omega) (by omega)]
        split_ifs with h1 h2
        · rfl
        · have hcomma := advance_length_of_pos (sees_pos h2)
          exact helements _ _ (by omega) (by omega)
        all_goals rfl

end keeps

end Parser

/-- Counting further makes no difference to what is read. -/
theorem parseJson_fuel (N : Numerals) (s : Text) (ok : Bool) {fuel : ℕ} (h : 3 * s.length + 1 ≤ fuel) :
    Parser.value N fuel ⟨s, ok⟩ = Parser.value N (3 * s.length + 3) ⟨s, ok⟩ :=
  (Parser.fuel_enough _ _).1 _ h (Nat.add_le_add_left (by decide) _)

theorem parseJson_ordered (N : Numerals) (s : Text) (ok : Bool) : (parseJson N s ok).1.Ordered :=
  (Parser.ordered_of_fuel _).1 _

end InferenceScheduler.Net
