/-
The numbers of a message (`src/json_util.hpp`, `dump_json` and
`Parser::number`).

`dump_json` prints a double through a stream: a sign, digits, a fraction, and
from a small or a large magnitude on an exponent with its sign. The reader
takes a minus sign only as the first character of a number, so it stops in
front of the sign of a negative exponent. A document (`Doc`) is any text with
numbers of that form, laid out with white space or without; it is accepted
exactly if no exponent in it is negative.
-/
import InferenceScheduler.JsonRoundTrip
import Mathlib.Data.List.DropRight

namespace InferenceScheduler.Net

/-! ## The texts of numbers -/

/-- Decimal digits, at least one. -/
structure Digits where
  text : Text
  nonempty : text ≠ []
  digits : ∀ c ∈ text, c.isDigit = true

/-- What is printed for a finite number. -/
structure NumberText where
  negative : Bool
  whole : Digits
  fraction : Option Digits
  /-- Whether the exponent is negative, and its digits. -/
  exponent : Option (Bool × Digits)

namespace NumberText

def sign (t : NumberText) : Text := if t.negative then ['-'] else []

def fractionText (t : NumberText) : Text :=
  match t.fraction with
  | none => []
  | some d => '.' :: d.text

def exponentText (t : NumberText) : Text :=
  match t.exponent with
  | none => []
  | some (negative, d) => 'e' :: (if negative then '-' else '+') :: d.text

def text (t : NumberText) : Text := t.sign ++ (t.whole.text ++ t.fractionText ++ t.exponentText)

/-- Whether the number is printed with a negative exponent. -/
def small (t : NumberText) : Bool := t.exponent.any (·.1)

end NumberText

/-! ## What the reader takes of a number -/

theorem Digits.numeral (d : Digits) : ∀ c ∈ d.text, Net.numeral c = true :=
  fun c hc => Parser.numeral_of_isDigit (d.digits c hc)

namespace NumberText

theorem fractionText_numeral (t : NumberText) : ∀ c ∈ t.fractionText, numeral c = true := by
  intro c hc
  rw [fractionText] at hc
  split at hc
  · cases hc
  · next d _ =>
    rcases List.mem_cons.1 hc with rfl | hc
    · decide
    · exact d.numeral c hc

theorem exponentText_numeral {t : NumberText} (h : t.small = false) : ∀ c ∈ t.exponentText, numeral c = true := by
  intro c hc
  rw [exponentText] at hc
  split at hc
  · cases hc
  · next negative d hexp =>
    rw [small, hexp, Option.any_some] at h
    obtain rfl : negative = false := h
    rw [if_neg Bool.false_ne_true] at hc
    rcases List.mem_cons.1 hc with rfl | hc
    · decide
    rcases List.mem_cons.1 hc with rfl | hc
    · decide
    · exact d.numeral c hc

/-- A number without a negative exponent has no minus sign behind its first character. -/
theorem body_numeral {t : NumberText} (h : t.small = false) :
    ∀ c ∈ t.whole.text ++ t.fractionText ++ t.exponentText, numeral c = true := by
  intro c hc
  rcases List.mem_append.1 hc with hc | hc
  · rcases List.mem_append.1 hc with hc | hc
    · exact t.whole.numeral c hc
    · exact t.fractionText_numeral c hc
  · exact exponentText_numeral h c hc

/-- One with a negative exponent has a minus sign behind what the reader takes for the number. -/
theorem body_small {t : NumberText} (h : t.small = true) : ∃ front back,
    t.whole.text ++ t.fractionText ++ t.exponentText = front ++ '-' :: back ∧ front ≠ [] ∧
      ∀ c ∈ front, numeral c = true := by
  rw [small, Option.any_eq_true] at h
  obtain ⟨⟨negative, d⟩, hexp, hneg⟩ := h
  obtain rfl : negative = true := hneg
  refine ⟨t.whole.text ++ t.fractionText ++ ['e'], d.text, ?_, by simp, ?_⟩
  · simp [exponentText, hexp]
  · intro c hc
    rcases List.mem_append.1 hc with hc | hc
    · rcases List.mem_append.1 hc with hc | hc
      · exact t.whole.numeral c hc
      · exact t.fractionText_numeral c hc
    · rw [List.mem_singleton.1 hc]
      decide

theorem text_cons (t : NumberText) : ∃ c rest, t.text = c :: rest ∧ Parser.Signed c := by
  rw [text, sign]
  split
  · exact ⟨'-', _, rfl, .inl rfl⟩
  · cases hw : t.whole.text with
    | nil => exact absurd hw t.whole.nonempty
    | cons c rest => exact ⟨c, _, rfl, .inr (t.whole.digits c (hw ▸ List.mem_cons_self))⟩

end NumberText

namespace Parser

variable {N : Numerals}

/-- The reader takes a sign and the characters of a number behind it. -/
theorem number_front (negative : Bool) {front rest : Text} (hfront : ∀ c ∈ front, numeral c = true)
    (hne : front ≠ []) (hrest : Stops rest) (ok : Bool) :
    (number N ⟨(if negative then ['-'] else []) ++ (front ++ rest), ok⟩).2 = ⟨rest, ok⟩ := by
  obtain ⟨htake, hdrop⟩ := takeWhile_stops hfront hrest
  cases negative with
  | true => simp [number, htake, hdrop]
  | false =>
    cases front with
    | nil => exact absurd rfl hne
    | cons c front =>
      have hminus : c ≠ '-' := by
        rintro rfl
        exact absurd (hfront '-' List.mem_cons_self) (by decide)
      rw [List.cons_append] at htake hdrop
      simp [number, hminus, htake, hdrop]

theorem number_text {t : NumberText} (h : t.small = false) {rest : Text} (hrest : Stops rest) (ok : Bool) :
    (number N ⟨t.text ++ rest, ok⟩).2 = ⟨rest, ok⟩ := by
  have hne : t.whole.text ++ t.fractionText ++ t.exponentText ≠ [] := by
    simp [t.whole.nonempty]
  rw [NumberText.text, List.append_assoc]
  exact number_front t.negative (NumberText.body_numeral h) hne hrest ok

/-- In front of a negative exponent the reader stops. -/
theorem number_small {t : NumberText} (h : t.small = true) (rest : Text) (ok : Bool) :
    ∃ back, (number N ⟨t.text ++ rest, ok⟩).2 = ⟨'-' :: (back ++ rest), ok⟩ := by
  obtain ⟨front, back, hbody, hne, hfront⟩ := NumberText.body_small h
  refine ⟨back, ?_⟩
  rw [NumberText.text, List.append_assoc, hbody, List.append_assoc, List.cons_append]
  refine number_front t.negative hfront hne ?_ ok
  rintro c ⟨rfl⟩
  decide

/-- `Parser::number` consumes exactly the text of a number, unless it has a
negative exponent. -/
theorem number_consumes_iff (t : NumberText) {rest : Text} (hrest : Stops rest) (ok : Bool) :
    (number N ⟨t.text ++ rest, ok⟩).2 = ⟨rest, ok⟩ ↔ t.small = false := by
  refine ⟨fun heq => ?_, fun h => number_text h hrest ok⟩
  by_contra hsmall
  obtain ⟨back, hback⟩ := number_small (N := N) (Bool.of_not_eq_false hsmall) rest ok
  rw [hback] at heq
  have hlength := congrArg (fun p => p.rest.length) heq
  simp at hlength
  omega

end Parser

/-! ## Documents -/

/-- White space. -/
structure Blank where
  text : Text
  blank : ∀ c ∈ text, ws c = true

def noBlank : Blank := ⟨[], fun _ hc => nomatch hc⟩

/-- A character of a string as it stands in a document, or one behind a backslash. -/
inductive StringPart
  | plain (c : Char) (hquote : c ≠ quote) (hback : c ≠ backslash)
  | escaped (c : Char)

def StringPart.text : StringPart → Text
  | .plain c _ _ => [c]
  | .escaped c => [backslash, c]

/-- A character as the writer puts it into a string. -/
def StringPart.of (c : Char) : StringPart :=
  if h : c = quote ∨ c = backslash then .escaped c else .plain c (fun hc => h (.inl hc)) fun hc => h (.inr hc)

theorem StringPart.text_of (c : Char) : (StringPart.of c).text = escape c := by
  rw [of, escape]
  split <;> rfl

/-- A key of an object, with the white space before and behind it. -/
structure Key where
  before : Blank
  parts : List StringPart
  after : Blank

/-- A document, as it is laid out. White space stands around a value, at the
beginning of an array or an object, and around a key. -/
inductive Doc
  | null
  | bool (b : Bool)
  | num (t : NumberText)
  | str (parts : List StringPart)
  | arr (gap : Blank) (elems : List Doc)
  | obj (gap : Blank) (fields : List (Key × Doc))
  | spaced (before : Blank) (d : Doc) (after : Blank)

/-- A string with its quotes. -/
def quoted (parts : List StringPart) : Text := quote :: (parts.flatMap (·.text) ++ [quote])

def Key.text (k : Key) : Text := k.before.text ++ quoted k.parts ++ k.after.text

namespace Doc

mutual

def text : Doc → Text
  | .null => "null".toList
  | .bool b => if b then "true".toList else "false".toList
  | .num t => t.text
  | .str parts => quoted parts
  | .arr gap elems => '[' :: (gap.text ++ elemsText true elems ++ [']'])
  | .obj gap fields => openBrace :: (gap.text ++ fieldsText true fields ++ [closeBrace])
  | .spaced before d after => before.text ++ text d ++ after.text

def elemsText (first : Bool) : List Doc → Text
  | [] => []
  | e :: es => comma first ++ text e ++ elemsText false es

def fieldsText (first : Bool) : List (Key × Doc) → Text
  | [] => []
  | (k, d) :: fs => comma first ++ k.text ++ ':' :: text d ++ fieldsText false fs

end

mutual

/-- The numbers of a document. -/
def numbers : Doc → List NumberText
  | .null => []
  | .bool _ => []
  | .num t => [t]
  | .str _ => []
  | .arr _ elems => elemsNumbers elems
  | .obj _ fields => fieldsNumbers fields
  | .spaced _ d _ => numbers d

def elemsNumbers : List Doc → List NumberText
  | [] => []
  | e :: es => numbers e ++ elemsNumbers es

def fieldsNumbers : List (Key × Doc) → List NumberText
  | [] => []
  | (_, d) :: fs => numbers d ++ fieldsNumbers fs

end

theorem text_null : null.text = "null".toList := rfl

theorem text_bool (b : Bool) : (bool b).text = if b then "true".toList else "false".toList := rfl

theorem text_num (t : NumberText) : (num t).text = t.text := rfl

theorem text_str (parts : List StringPart) : (str parts).text = quoted parts := rfl

theorem text_arr (gap : Blank) (elems : List Doc) :
    (arr gap elems).text = '[' :: (gap.text ++ elemsText true elems ++ [']']) := rfl

theorem text_obj (gap : Blank) (fields : List (Key × Doc)) :
    (obj gap fields).text = openBrace :: (gap.text ++ fieldsText true fields ++ [closeBrace]) := rfl

theorem text_spaced (before : Blank) (d : Doc) (after : Blank) :
    (spaced before d after).text = before.text ++ d.text ++ after.text := rfl

theorem elemsText_nil (first : Bool) : elemsText first [] = [] := rfl

theorem elemsText_cons (first : Bool) (e : Doc) (es : List Doc) :
    elemsText first (e :: es) = comma first ++ e.text ++ elemsText false es := rfl

theorem fieldsText_nil (first : Bool) : fieldsText first [] = [] := rfl

theorem fieldsText_cons (first : Bool) (f : Key × Doc) (fs : List (Key × Doc)) :
    fieldsText first (f :: fs) = comma first ++ f.1.text ++ ':' :: f.2.text ++ fieldsText false fs := rfl

theorem elemsNumbers_cons (e : Doc) (es : List Doc) : elemsNumbers (e :: es) = e.numbers ++ elemsNumbers es := rfl

theorem fieldsNumbers_cons (f : Key × Doc) (fs : List (Key × Doc)) :
    fieldsNumbers (f :: fs) = f.2.numbers ++ fieldsNumbers fs := rfl

/-- No number is printed with a negative exponent. -/
def large (d : Doc) : Bool := d.numbers.all (!·.small)

/-- What holds of a document if it holds of its parts. -/
@[elab_as_elim] theorem induct {P : Doc → Prop} (null : P .null) (bool : ∀ b, P (.bool b)) (num : ∀ t, P (.num t))
    (str : ∀ parts, P (.str parts)) (arr : ∀ gap elems, (∀ e ∈ elems, P e) → P (.arr gap elems))
    (obj : ∀ gap fields, (∀ f ∈ fields, P f.2) → P (.obj gap fields))
    (spaced : ∀ before d after, P d → P (.spaced before d after)) : ∀ d, P d
  | .null => null
  | .bool b => bool b
  | .num t => num t
  | .str parts => str parts
  | .arr gap elems => arr gap elems fun e _ => induct null bool num str arr obj spaced e
  | .obj gap fields => obj gap fields fun f hf => by
      have : sizeOf f.2 < sizeOf fields := by
        have hmem := List.sizeOf_lt_of_mem hf
        obtain ⟨k, d⟩ := f
        simp only [Prod.mk.sizeOf_spec] at hmem ⊢
        omega
      exact induct null bool num str arr obj spaced f.2
  | .spaced before d after => spaced before d after (induct null bool num str arr obj spaced d)

theorem large_arr (gap : Blank) (elems : List Doc) : (arr gap elems).large = elems.all large := by
  have hall : ∀ es : List Doc, (elemsNumbers es).all (!·.small) = es.all large := by
    intro es
    induction es with
    | nil => rfl
    | cons e es ih => rw [elemsNumbers_cons, List.all_append, ih, List.all_cons, large]
  exact hall elems

theorem large_obj (gap : Blank) (fields : List (Key × Doc)) : (obj gap fields).large = fields.all (·.2.large) := by
  have hall : ∀ fs : List (Key × Doc), (fieldsNumbers fs).all (!·.small) = fs.all (·.2.large) := by
    intro fs
    induction fs with
    | nil => rfl
    | cons f fs ih => rw [fieldsNumbers_cons, List.all_append, ih, List.all_cons, large]
  exact hall fields

end Doc

/-! ## What the writer puts down is a document -/

/-- No key of an object needs an escape. -/
inductive CleanKeys : Json → Prop
  | null : CleanKeys .null
  | bool (b : Bool) : CleanKeys (.bool b)
  | num (v : ℚ) : CleanKeys (.num v)
  | str (s : Text) : CleanKeys (.str s)
  | arr {elems : List Json} (h : ∀ e ∈ elems, CleanKeys e) : CleanKeys (.arr elems)
  | obj {fields : List (Text × Json)} (hkeys : ∀ f ∈ fields, Parser.Clean f.1) (h : ∀ f ∈ fields, CleanKeys f.2) :
      CleanKeys (.obj fields)

section writer

variable (print : ℚ → NumberText)

mutual

/-- The document of a tree, with numbers printed in the form given. -/
def docOf : Json → Doc
  | .null => .null
  | .bool b => .bool b
  | .num v => .num (print v)
  | .str s => .str (s.map .of)
  | .arr elems => .arr noBlank (docsOf elems)
  | .obj fields => .obj noBlank (fieldsOf fields)

def docsOf : List Json → List Doc
  | [] => []
  | e :: es => docOf e :: docsOf es

def fieldsOf : List (Text × Json) → List (Key × Doc)
  | [] => []
  | (k, v) :: fs => (⟨noBlank, k.map .of, noBlank⟩, docOf v) :: fieldsOf fs

end

theorem quoted_of (s : Text) : quoted (s.map .of) = quote :: (s.flatMap escape ++ [quote]) := by
  rw [quoted, List.flatMap_map]
  simp only [StringPart.text_of]

theorem docsOf_cons (e : Json) (es : List Json) : docsOf print (e :: es) = docOf print e :: docsOf print es := rfl

theorem fieldsOf_cons (f : Text × Json) (fs : List (Text × Json)) : fieldsOf print (f :: fs) =
    (⟨noBlank, f.1.map .of, noBlank⟩, docOf print f.2) :: fieldsOf print fs := rfl

variable {print}

theorem elemsText_docsOf {N : Numerals} {es : List Json} (h : ∀ e ∈ es, (docOf print e).text = dumpJson N e) (first : Bool) :
    Doc.elemsText first (docsOf print es) = dumpElems N first es := by
  induction es generalizing first with
  | nil => rfl
  | cons e es ih =>
    rw [docsOf_cons, Doc.elemsText_cons, dumpElems, h e List.mem_cons_self, ih fun d hd => h d (List.mem_cons_of_mem e hd)]

theorem fieldsText_fieldsOf {N : Numerals} {fs : List (Text × Json)} (hkeys : ∀ f ∈ fs, Parser.Clean f.1)
    (h : ∀ f ∈ fs, (docOf print f.2).text = dumpJson N f.2) (first : Bool) :
    Doc.fieldsText first (fieldsOf print fs) = dumpFields N first fs := by
  induction fs generalizing first with
  | nil => rfl
  | cons f fs ih =>
    have hkey : (Key.mk noBlank (f.1.map .of) noBlank).text = quote :: f.1 ++ [quote] := by
      simp [Key.text, noBlank, quoted_of, (hkeys f List.mem_cons_self).flatMap_escape]
    rw [fieldsOf_cons, Doc.fieldsText_cons, dumpFields, hkey, h f List.mem_cons_self,
      ih (fun d hd => hkeys d (List.mem_cons_of_mem f hd)) fun d hd => h d (List.mem_cons_of_mem f hd)]
    simp

theorem text_docOf {N : Numerals} (hprint : ∀ v, N.print v = (print v).text) {j : Json} (h : CleanKeys j) :
    (docOf print j).text = dumpJson N j := by
  induction h with
  | null => rfl
  | bool b => rfl
  | num v => exact (hprint v).symm
  | str s =>
    rw [dumpJson, List.cons_append, ← quoted_of]
    rfl
  | arr _ ih =>
    rw [dumpJson, ← elemsText_docsOf ih]
    rfl
  | obj hkeys _ ih =>
    rw [dumpJson, ← fieldsText_fieldsOf hkeys ih]
    rfl

end writer

/-! ## What the reader makes of a document -/

namespace Parser

theorem skip_blank (b : Blank) (rest : Text) (ok : Bool) : skip ⟨b.text ++ rest, ok⟩ = skip ⟨rest, ok⟩ := by
  rw [skip, skip, List.dropWhile_append_of_pos b.blank]

theorem skip_skip (p : Parser) : p.skip.skip = p.skip :=
  congrArg (fun t => Parser.mk t p.ok) (List.dropWhile_idempotent ws p.rest)

theorem stops_blank (b : Blank) {rest : Text} (h : Stops rest) : Stops (b.text ++ rest) := by
  cases hb : b.text with
  | nil => exact h
  | cons c t =>
    rintro d ⟨rfl⟩
    have hws := b.blank c (hb ▸ List.mem_cons_self)
    simp only [ws, Bool.or_eq_true, decide_eq_true_eq] at hws
    rcases hws with ((rfl | rfl) | rfl) | rfl <;> decide

theorem jstrBody_parts (parts : List StringPart) (rest : Text) :
    (jstrBody (parts.flatMap (·.text) ++ quote :: rest)).2 = (rest, true) := by
  induction parts with
  | nil => rw [List.flatMap_nil, List.nil_append, jstrBody_quote]
  | cons part parts ih =>
    rw [List.flatMap_cons, List.append_assoc]
    cases part with
    | plain c hquote hback =>
      rw [StringPart.text, List.singleton_append, jstrBody_char hquote hback]
      exact ih
    | escaped c =>
      rw [StringPart.text, List.cons_append, List.singleton_append, jstrBody_escaped]
      exact ih

theorem jstr_quoted (parts : List StringPart) (rest : Text) (ok : Bool) :
    (jstr ⟨quoted parts ++ rest, ok⟩).2 = ⟨rest, ok⟩ := by
  have hbody := jstrBody_parts parts rest
  simp [jstr, quoted, hbody]

section

variable {N : Numerals}

/-- A value is what it is behind white space. -/
theorem value_of_skip {p q : Parser} (h : p.skip = q.skip) (fuel : ℕ) : value N (fuel + 1) p = value N (fuel + 1) q := by
  rw [value, value, h]

variable (N) in
/-- The reader takes the text of a document and nothing behind it but white
space. -/
def Taken (d : Doc) : Prop :=
  ∀ (fuel : ℕ) (rest : Text) (ok : Bool), 3 * (d.text ++ rest).length + 1 ≤ fuel → Stops rest →
    (value N fuel ⟨d.text ++ rest, ok⟩).2.skip = skip ⟨rest, ok⟩

variable (N) in
/-- The reader fails in a document, or stops in front of a minus sign. -/
def Spoilt (d : Doc) : Prop :=
  ∀ (fuel : ℕ) (rest : Text) (ok : Bool), 3 * (d.text ++ rest).length + 1 ≤ fuel → Stops rest →
    (value N fuel ⟨d.text ++ rest, ok⟩).2.ok = false ∨ (value N fuel ⟨d.text ++ rest, ok⟩).2.skip.sees '-' = true

theorem value_num (t : NumberText) (fuel : ℕ) (rest : Text) (ok : Bool) :
    value N (fuel + 1) ⟨t.text ++ rest, ok⟩ = number N ⟨t.text ++ rest, ok⟩ := by
  obtain ⟨c, s, hcons, hc⟩ := t.text_cons
  rw [hcons, List.cons_append, value_signed hc]

theorem taken_num {t : NumberText} (h : t.small = false) : Taken N (.num t) := by
  intro fuel rest ok hfuel hstops
  obtain ⟨fuel, rfl⟩ : ∃ n, fuel = n + 1 := ⟨fuel - 1, by omega⟩
  rw [Doc.text_num, value_num, number_text h hstops]

theorem spoilt_num {t : NumberText} (h : t.small = true) : Spoilt N (.num t) := by
  intro fuel rest ok hfuel _
  obtain ⟨fuel, rfl⟩ : ∃ n, fuel = n + 1 := ⟨fuel - 1, by omega⟩
  obtain ⟨back, hnumber⟩ := number_small (N := N) h rest ok
  right
  rw [Doc.text_num, value_num, hnumber, skip_cons (by decide), sees_cons, decide_eq_true rfl]

theorem spoilt_spaced {before after : Blank} {d : Doc} (h : Spoilt N d) : Spoilt N (.spaced before d after) := by
  intro fuel rest ok hfuel hstops
  obtain ⟨fuel, rfl⟩ : ∃ n, fuel = n + 1 := ⟨fuel - 1, by omega⟩
  rw [Doc.text_spaced, List.append_assoc, List.append_assoc] at *
  rw [value_of_skip (skip_blank before _ ok)]
  simp only [List.length_append] at hfuel
  exact h _ _ ok (by simp only [List.length_append]; omega) (stops_blank after hstops)

theorem taken_spaced {before after : Blank} {d : Doc} (h : Taken N d) : Taken N (.spaced before d after) := by
  intro fuel rest ok hfuel hstops
  obtain ⟨fuel, rfl⟩ : ∃ n, fuel = n + 1 := ⟨fuel - 1, by omega⟩
  rw [Doc.text_spaced, List.append_assoc, List.append_assoc] at *
  rw [value_of_skip (skip_blank before _ ok)]
  simp only [List.length_append] at hfuel
  rw [h _ _ ok (by simp only [List.length_append]; omega) (stops_blank after hstops), skip_blank]

/-- What stands first in a document behind its white space. -/
theorem skip_text (d : Doc) (rest : Text) (ok : Bool) :
    ∃ c t, skip ⟨d.text ++ rest, ok⟩ = ⟨c :: t, ok⟩ ∧ c ≠ ']' := by
  induction d using Doc.induct generalizing rest with
  | null => exact ⟨'n', _, skip_cons (by decide) _ _, by decide⟩
  | bool b =>
    cases b with
    | true => exact ⟨'t', _, skip_cons (by decide) _ _, by decide⟩
    | false => exact ⟨'f', _, skip_cons (by decide) _ _, by decide⟩
  | num t =>
    obtain ⟨c, s, hcons, hc⟩ := t.text_cons
    rw [Doc.text_num, hcons, List.cons_append]
    exact ⟨c, _, skip_cons hc.not_ws _ _, hc.ne (by decide) (by decide)⟩
  | str parts => exact ⟨quote, _, skip_cons (by decide) _ _, by decide⟩
  | arr gap elems _ => exact ⟨'[', _, skip_cons (by decide) _ _, by decide⟩
  | obj gap fields _ => exact ⟨openBrace, _, skip_cons (by decide) _ _, by decide⟩
  | spaced before d after ih =>
    rw [Doc.text_spaced, List.append_assoc, List.append_assoc, skip_blank]
    exact ih _

/-! A mark that is cleared stays cleared. -/

theorem expect_ok {p : Parser} (h : p.ok = false) (t : Text) : (p.expect t).ok = false := by
  induction t generalizing p with
  | nil => exact h
  | cons c t ih =>
    rw [expect]
    split
    · exact ih h
    · rfl

theorem ok_of_fuel (fuel : ℕ) :
    (∀ p : Parser, p.ok = false → (value N fuel p).2.ok = false) ∧
      (∀ p : Parser, p.ok = false → (object N fuel p).2.ok = false) ∧
      (∀ fields (p : Parser), p.ok = false → (members N fuel fields p).2.ok = false) ∧
      (∀ p : Parser, p.ok = false → (array N fuel p).2.ok = false) ∧
      ∀ elems (p : Parser), p.ok = false → (elements N fuel elems p).2.ok = false := by
  induction fuel with
  | zero => exact ⟨fun _ _ => rfl, fun _ _ => rfl, fun _ _ _ => rfl, fun _ _ => rfl, fun _ _ _ => rfl⟩
  | succ fuel ih =>
    obtain ⟨hvalue, hobject, hmembers, harray, helements⟩ := ih
    refine ⟨?_, ?_, ?_, ?_, ?_⟩
    · intro p h
      rw [value]
      split_ifs
      · rfl
      · exact hobject _ h
      · exact harray _ h
      · simp [jstr, skip, h]
      · rw [boolean]
        split_ifs
        · exact h
        · exact h
        · rfl
      · exact expect_ok (p := p.skip) h _
      · rw [number]
        split_ifs <;> first | rfl | exact h
    · intro p h
      rw [object]
      split_ifs
      · exact h
      · exact hmembers _ _ h
    · intro fields p h
      have hkey : p.skip.jstr.2.ok = false := by simp [jstr, skip, h]
      have hfield := hvalue p.skip.jstr.2.skip.advance hkey
      rw [members]
      dsimp only
      split_ifs
      · rfl
      · rfl
      · rfl
      · exact hmembers _ _ hfield
      · exact hfield
      · rfl
    · intro p h
      rw [array]
      split_ifs
      · exact h
      · exact helements _ _ h
    · intro elems p h
      have helem := hvalue p h
      rw [elements]
      dsimp only
      split_ifs
      · rfl
      · exact helements _ _ helem
      · exact helem
      · rfl

/-! Arrays and objects: the loops go through the parts that can be read, and
fail at the first one that cannot. -/

theorem sees_ne {p : Parser} {c d : Char} (h : p.sees c = true) (hne : c ≠ d) : ¬p.sees d = true := by
  rw [sees, decide_eq_true_eq] at h ⊢
  rw [h, Option.some.injEq]
  exact hne

theorem stops_comma (t : Text) : Stops (',' :: t) := by
  rintro c ⟨rfl⟩
  decide

theorem stops_elems (es : List Doc) (rest : Text) : Stops (Doc.elemsText false es ++ ']' :: rest) := by
  cases es with
  | nil =>
    rintro c ⟨rfl⟩
    decide
  | cons e es => exact stops_comma _

theorem elemsText_true (e : Doc) (es : List Doc) (rest : Text) :
    Doc.elemsText true (e :: es) ++ rest = e.text ++ (Doc.elemsText false es ++ rest) := by
  rw [Doc.elemsText_cons, comma, if_pos rfl, List.nil_append, List.append_assoc]

theorem elemsText_false (e : Doc) (es : List Doc) : Doc.elemsText false (e :: es) = ',' :: Doc.elemsText true (e :: es) :=
  rfl

/-- The loop of `array` behind an element that is taken. -/
theorem elements_next {e : Doc} (h : Taken N e) (es : List Doc) (acc : List Json) {fuel : ℕ} (rest : Text) (ok : Bool)
    (hfuel : 3 * (Doc.elemsText true (e :: es) ++ ']' :: rest).length + 1 ≤ fuel) :
    ∃ acc', (elements N (fuel + 1) acc ⟨Doc.elemsText true (e :: es) ++ ']' :: rest, ok⟩).2 =
      if es.isEmpty then ⟨rest, ok⟩ else (elements N fuel acc' ⟨Doc.elemsText true es ++ ']' :: rest, ok⟩).2 := by
  rw [elemsText_true] at hfuel ⊢
  have hvalue := h fuel _ ok hfuel (stops_elems es rest)
  refine ⟨acc ++ [(value N fuel ⟨e.text ++ (Doc.elemsText false es ++ ']' :: rest), ok⟩).1], ?_⟩
  rw [elements, if_neg (by simp)]
  dsimp only
  rw [hvalue]
  cases es with
  | nil => simp [Doc.elemsText_nil, skip_cons (c := ']') (by decide)]
  | cons e' es' => simp [elemsText_false, skip_cons (c := ',') (by decide)]

theorem elements_taken {es : List Doc} (hne : es ≠ []) (h : ∀ e ∈ es, Taken N e) (acc : List Json) {fuel : ℕ}
    (rest : Text) (ok : Bool) (hfuel : 3 * (Doc.elemsText true es ++ ']' :: rest).length + 2 ≤ fuel) :
    (elements N fuel acc ⟨Doc.elemsText true es ++ ']' :: rest, ok⟩).2 = ⟨rest, ok⟩ := by
  induction es generalizing acc fuel with
  | nil => exact absurd rfl hne
  | cons e es ih =>
    obtain ⟨fuel, rfl⟩ : ∃ n, fuel = n + 1 := ⟨fuel - 1, by omega⟩
    obtain ⟨acc', hnext⟩ := elements_next (h e List.mem_cons_self) es acc rest ok (Nat.le_of_succ_le_succ hfuel)
    rw [hnext]
    split
    · rfl
    · next hes =>
      obtain ⟨e', es', rfl⟩ := List.exists_cons_of_ne_nil (fun hnil => hes (List.isEmpty_iff.2 hnil))
      rw [elemsText_true, elemsText_false, List.length_append, List.cons_append, List.length_cons] at hfuel
      exact ih (List.cons_ne_nil _ _) (fun d hd => h d (List.mem_cons_of_mem e hd)) acc' (by omega)

theorem elements_spoilt {es : List Doc} (hbad : ∃ e ∈ es, e.large = false)
    (htaken : ∀ e ∈ es, e.large = true → Taken N e) (hspoilt : ∀ e ∈ es, e.large = false → Spoilt N e)
    (acc : List Json) {fuel : ℕ} (rest : Text) (ok : Bool)
    (hfuel : 3 * (Doc.elemsText true es ++ ']' :: rest).length + 2 ≤ fuel) :
    (elements N fuel acc ⟨Doc.elemsText true es ++ ']' :: rest, ok⟩).2.ok = false := by
  induction es generalizing acc fuel with
  | nil =>
    obtain ⟨e, he, _⟩ := hbad
    cases he
  | cons e es ih =>
    obtain ⟨fuel, rfl⟩ : ∃ n, fuel = n + 1 := ⟨fuel - 1, by omega⟩
    cases hlarge : e.large with
    | true =>
      -- The element in front of the one that spoils the array is read, and the loop goes on.
      obtain ⟨acc', hnext⟩ := elements_next (htaken e List.mem_cons_self hlarge) es acc rest ok
        (Nat.le_of_succ_le_succ hfuel)
      have hbad' : ∃ d ∈ es, d.large = false := by
        obtain ⟨d, hd, hdl⟩ := hbad
        rcases List.mem_cons.1 hd with rfl | hd
        · rw [hlarge] at hdl
          cases hdl
        · exact ⟨d, hd, hdl⟩
      obtain ⟨e', es', rfl⟩ := List.exists_cons_of_ne_nil (List.ne_nil_of_mem hbad'.choose_spec.1)
      rw [hnext, if_neg (by simp)]
      rw [elemsText_true, elemsText_false, List.length_append, List.cons_append, List.length_cons] at hfuel
      exact ih hbad' (fun d hd => htaken d (List.mem_cons_of_mem e hd))
        (fun d hd => hspoilt d (List.mem_cons_of_mem e hd)) acc' (by omega)
    | false =>
      rw [elemsText_true] at hfuel ⊢
      have hvalue := hspoilt e List.mem_cons_self hlarge fuel _ ok (by omega) (stops_elems es rest)
      rw [elements, if_neg (by simp)]
      dsimp only
      rcases hvalue with hfail | hminus
      · split_ifs
        · exact (ok_of_fuel _).2.2.2.2 _ _ hfail
        · exact hfail
        · rfl
      · rw [if_neg (sees_ne hminus (by decide)), if_neg (sees_ne hminus (by decide))]
        rfl

theorem stops_fields (fs : List (Key × Doc)) (rest : Text) : Stops (Doc.fieldsText false fs ++ closeBrace :: rest) := by
  cases fs with
  | nil =>
    rintro c ⟨rfl⟩
    decide
  | cons f fs => exact stops_comma _

theorem fieldsText_true (f : Key × Doc) (fs : List (Key × Doc)) (rest : Text) :
    Doc.fieldsText true (f :: fs) ++ rest = f.1.text ++ ':' :: (f.2.text ++ (Doc.fieldsText false fs ++ rest)) := by
  simp only [Doc.fieldsText_cons, comma, if_true, List.nil_append, List.append_assoc, List.cons_append]

theorem fieldsText_false (f : Key × Doc) (fs : List (Key × Doc)) :
    Doc.fieldsText false (f :: fs) = ',' :: Doc.fieldsText true (f :: fs) := by
  simp only [Doc.fieldsText_cons, comma, Bool.false_eq_true, if_false, if_true, List.nil_append, List.append_assoc,
    List.cons_append]

/-- A key is read up to the colon behind it. -/
theorem skip_key (k : Key) (rest : Text) (ok : Bool) :
    (skip ⟨k.text ++ ':' :: rest, ok⟩).sees quote = true ∧
      (skip ⟨k.text ++ ':' :: rest, ok⟩).jstr.2.skip = ⟨':' :: rest, ok⟩ := by
  have hskip : skip ⟨k.text ++ ':' :: rest, ok⟩ = ⟨quoted k.parts ++ (k.after.text ++ ':' :: rest), ok⟩ := by
    rw [Key.text, List.append_assoc, List.append_assoc, skip_blank]
    exact skip_cons (by decide) _ _
  rw [hskip]
  refine ⟨by simp [quoted], ?_⟩
  rw [jstr_quoted, skip_blank, skip_cons (by decide)]

/-- The loop of `object` at a field, up to what stands behind its value. -/
theorem members_field (f : Key × Doc) (fs : List (Key × Doc)) (acc : List (Text × Json)) (fuel : ℕ) (rest : Text)
    (ok : Bool) {v : Json × Parser}
    (hv : value N fuel ⟨f.2.text ++ (Doc.fieldsText false fs ++ closeBrace :: rest), ok⟩ = v) : ∃ acc',
      members N (fuel + 1) acc ⟨Doc.fieldsText true (f :: fs) ++ closeBrace :: rest, ok⟩ =
        if v.2.skip.sees ',' then members N fuel acc' v.2.skip.advance
        else if v.2.skip.sees closeBrace then (.obj acc', v.2.skip.advance)
        else (.obj [], v.2.skip.fail) := by
  rw [fieldsText_true]
  generalize hbehind : f.2.text ++ (Doc.fieldsText false fs ++ closeBrace :: rest) = behind at hv
  obtain ⟨hquote, hcolon⟩ := skip_key f.1 behind ok
  refine ⟨Json.setField (skip ⟨f.1.text ++ ':' :: behind, ok⟩).jstr.1 v.1 acc, ?_⟩
  rw [members, if_neg (by simp), if_neg (by rw [hquote]; decide)]
  dsimp only
  rw [hcolon, if_neg (by simp), advance_cons, hv]

theorem members_next {f : Key × Doc} (h : Taken N f.2) (fs : List (Key × Doc)) (acc : List (Text × Json)) {fuel : ℕ}
    (rest : Text) (ok : Bool) (hfuel : 3 * (Doc.fieldsText true (f :: fs) ++ closeBrace :: rest).length + 1 ≤ fuel) :
    ∃ acc', (members N (fuel + 1) acc ⟨Doc.fieldsText true (f :: fs) ++ closeBrace :: rest, ok⟩).2 =
      if fs.isEmpty then ⟨rest, ok⟩
      else (members N fuel acc' ⟨Doc.fieldsText true fs ++ closeBrace :: rest, ok⟩).2 := by
  obtain ⟨acc', hfield⟩ := members_field (N := N) f fs acc fuel rest ok rfl
  rw [fieldsText_true, List.length_append, List.length_cons] at hfuel
  have hvalue := h fuel _ ok (by omega) (stops_fields fs rest)
  refine ⟨acc', ?_⟩
  rw [hfield, hvalue]
  cases fs with
  | nil => simp [Doc.fieldsText_nil, skip_cons (c := closeBrace) (by decide), show closeBrace ≠ ',' by decide]
  | cons f' fs' => simp [fieldsText_false, skip_cons (c := ',') (by decide)]

theorem members_taken {fs : List (Key × Doc)} (hne : fs ≠ []) (h : ∀ f ∈ fs, Taken N f.2) (acc : List (Text × Json))
    {fuel : ℕ} (rest : Text) (ok : Bool)
    (hfuel : 3 * (Doc.fieldsText true fs ++ closeBrace :: rest).length + 2 ≤ fuel) :
    (members N fuel acc ⟨Doc.fieldsText true fs ++ closeBrace :: rest, ok⟩).2 = ⟨rest, ok⟩ := by
  induction fs generalizing acc fuel with
  | nil => exact absurd rfl hne
  | cons f fs ih =>
    obtain ⟨fuel, rfl⟩ : ∃ n, fuel = n + 1 := ⟨fuel - 1, by omega⟩
    obtain ⟨acc', hnext⟩ := members_next (h f List.mem_cons_self) fs acc rest ok (Nat.le_of_succ_le_succ hfuel)
    rw [hnext]
    split
    · rfl
    · next hfs =>
      obtain ⟨f', fs', rfl⟩ := List.exists_cons_of_ne_nil (fun hnil => hfs (List.isEmpty_iff.2 hnil))
      refine ih (List.cons_ne_nil _ _) (fun d hd => h d (List.mem_cons_of_mem f hd)) acc' ?_
      rw [fieldsText_true, fieldsText_false] at hfuel
      simp only [List.length_append, List.length_cons] at hfuel ⊢
      omega

theorem members_spoilt {fs : List (Key × Doc)} (hbad : ∃ f ∈ fs, f.2.large = false)
    (htaken : ∀ f ∈ fs, f.2.large = true → Taken N f.2) (hspoilt : ∀ f ∈ fs, f.2.large = false → Spoilt N f.2)
    (acc : List (Text × Json)) {fuel : ℕ} (rest : Text) (ok : Bool)
    (hfuel : 3 * (Doc.fieldsText true fs ++ closeBrace :: rest).length + 2 ≤ fuel) :
    (members N fuel acc ⟨Doc.fieldsText true fs ++ closeBrace :: rest, ok⟩).2.ok = false := by
  induction fs generalizing acc fuel with
  | nil =>
    obtain ⟨f, hf, _⟩ := hbad
    cases hf
  | cons f fs ih =>
    obtain ⟨fuel, rfl⟩ : ∃ n, fuel = n + 1 := ⟨fuel - 1, by omega⟩
    cases hlarge : f.2.large with
    | true =>
      obtain ⟨acc', hnext⟩ := members_next (htaken f List.mem_cons_self hlarge) fs acc rest ok
        (Nat.le_of_succ_le_succ hfuel)
      have hbad' : ∃ g ∈ fs, g.2.large = false := by
        obtain ⟨g, hg, hgl⟩ := hbad
        rcases List.mem_cons.1 hg with rfl | hg
        · rw [hlarge] at hgl
          cases hgl
        · exact ⟨g, hg, hgl⟩
      obtain ⟨f', fs', rfl⟩ := List.exists_cons_of_ne_nil (List.ne_nil_of_mem hbad'.choose_spec.1)
      rw [hnext, if_neg (by simp)]
      refine ih hbad' (fun d hd => htaken d (List.mem_cons_of_mem f hd))
        (fun d hd => hspoilt d (List.mem_cons_of_mem f hd)) acc' ?_
      rw [fieldsText_true, fieldsText_false] at hfuel
      simp only [List.length_append, List.length_cons] at hfuel ⊢
      omega
    | false =>
      obtain ⟨acc', hfield⟩ := members_field (N := N) f fs acc fuel rest ok rfl
      rw [fieldsText_true, List.length_append, List.length_cons] at hfuel
      have hvalue := hspoilt f List.mem_cons_self hlarge fuel _ ok (by omega) (stops_fields fs rest)
      rw [hfield]
      rcases hvalue with hfail | hminus
      · split_ifs
        · exact (ok_of_fuel _).2.2.1 _ _ hfail
        · exact hfail
        · rfl
      · rw [if_neg (sees_ne hminus (by decide)), if_neg (sees_ne hminus (by decide))]
        rfl

/-- The loops start behind white space, if there is something there. -/
theorem elements_skip {p : Parser} (h : p.skip.rest ≠ []) (acc : List Json) (fuel : ℕ) :
    elements N (fuel + 2) acc p.skip = elements N (fuel + 2) acc p := by
  have hrest : p.rest ≠ [] := by
    intro hnil
    rw [skip, hnil] at h
    exact h rfl
  rw [elements, elements, if_neg h, if_neg hrest, value_of_skip p.skip_skip]

theorem members_skip {p : Parser} (h : p.skip.rest ≠ []) (acc : List (Text × Json)) (fuel : ℕ) :
    members N (fuel + 1) acc p.skip = members N (fuel + 1) acc p := by
  have hrest : p.rest ≠ [] := by
    intro hnil
    rw [skip, hnil] at h
    exact h rfl
  rw [members, members, if_neg h, if_neg hrest, p.skip_skip]

/-- An array with elements is read by the loop. -/
theorem value_arr {es : List Doc} (hne : es ≠ []) (gap : Blank) (fuel : ℕ) (rest : Text) (ok : Bool) :
    value N (fuel + 4) ⟨(Doc.arr gap es).text ++ rest, ok⟩ =
      elements N (fuel + 2) [] ⟨Doc.elemsText true es ++ ']' :: rest, ok⟩ := by
  obtain ⟨e, es, rfl⟩ := List.exists_cons_of_ne_nil hne
  have htext : (Doc.arr gap (e :: es)).text ++ rest =
      '[' :: (gap.text ++ (Doc.elemsText true (e :: es) ++ ']' :: rest)) := by
    simp [Doc.text_arr]
  obtain ⟨c, t, hskip, hclose⟩ := skip_text e (Doc.elemsText false es ++ ']' :: rest) ok
  rw [← elemsText_true] at hskip
  rw [htext, value_array, array, advance_cons, skip_blank, if_neg (by rw [hskip, sees_cons]; simpa using hclose)]
  exact elements_skip (by rw [hskip]; exact List.cons_ne_nil _ _) [] fuel

theorem value_obj {fs : List (Key × Doc)} (hne : fs ≠ []) (gap : Blank) (fuel : ℕ) (rest : Text) (ok : Bool) :
    value N (fuel + 3) ⟨(Doc.obj gap fs).text ++ rest, ok⟩ =
      members N (fuel + 1) [] ⟨Doc.fieldsText true fs ++ closeBrace :: rest, ok⟩ := by
  obtain ⟨f, fs, rfl⟩ := List.exists_cons_of_ne_nil hne
  have htext : (Doc.obj gap (f :: fs)).text ++ rest =
      openBrace :: (gap.text ++ (Doc.fieldsText true (f :: fs) ++ closeBrace :: rest)) := by
    simp [Doc.text_obj]
  have hquote := (skip_key f.1 (f.2.text ++ (Doc.fieldsText false fs ++ closeBrace :: rest)) ok).1
  rw [← fieldsText_true] at hquote
  rw [htext, value_object, object, advance_cons, skip_blank, if_neg (sees_ne hquote (by decide))]
  exact members_skip (List.ne_nil_of_length_pos (sees_pos hquote)) [] fuel

theorem taken_arr {es : List Doc} (h : ∀ e ∈ es, Taken N e) (gap : Blank) : Taken N (.arr gap es) := by
  intro fuel rest ok hfuel _
  have hlength : ((Doc.arr gap es).text ++ rest).length =
      (gap.text.length + (Doc.elemsText true es ++ ']' :: rest).length) + 1 := by
    simp [Doc.text_arr]
  by_cases hne : es = []
  · subst hne
    obtain ⟨fuel, rfl⟩ : ∃ n, fuel = n + 2 := ⟨fuel - 2, by omega⟩
    have htext : (Doc.arr gap []).text ++ rest = '[' :: (gap.text ++ ']' :: rest) := by
      simp [Doc.text_arr, Doc.elemsText_nil]
    rw [htext, value_array, array, advance_cons, skip_blank, skip_cons (by decide)]
    rfl
  · obtain ⟨fuel, rfl⟩ : ∃ n, fuel = n + 4 := ⟨fuel - 4, by omega⟩
    rw [value_arr hne, elements_taken hne h [] rest ok (by omega)]

theorem taken_obj {fs : List (Key × Doc)} (h : ∀ f ∈ fs, Taken N f.2) (gap : Blank) : Taken N (.obj gap fs) := by
  intro fuel rest ok hfuel _
  have hlength : ((Doc.obj gap fs).text ++ rest).length =
      (gap.text.length + (Doc.fieldsText true fs ++ closeBrace :: rest).length) + 1 := by
    simp [Doc.text_obj]
  by_cases hne : fs = []
  · subst hne
    obtain ⟨fuel, rfl⟩ : ∃ n, fuel = n + 2 := ⟨fuel - 2, by omega⟩
    have htext : (Doc.obj gap []).text ++ rest = openBrace :: (gap.text ++ closeBrace :: rest) := by
      simp [Doc.text_obj, Doc.fieldsText_nil]
    rw [htext, value_object, object, advance_cons, skip_blank, skip_cons (by decide)]
    rfl
  · obtain ⟨fuel, rfl⟩ : ∃ n, fuel = n + 3 := ⟨fuel - 3, by omega⟩
    rw [value_obj hne, members_taken hne h [] rest ok (by omega)]

theorem spoilt_arr {es : List Doc} (hbad : ∃ e ∈ es, e.large = false) (htaken : ∀ e ∈ es, e.large = true → Taken N e)
    (hspoilt : ∀ e ∈ es, e.large = false → Spoilt N e) (gap : Blank) : Spoilt N (.arr gap es) := by
  intro fuel rest ok hfuel _
  have hlength : ((Doc.arr gap es).text ++ rest).length =
      (gap.text.length + (Doc.elemsText true es ++ ']' :: rest).length) + 1 := by
    simp [Doc.text_arr]
  have hne : es ≠ [] := List.ne_nil_of_mem hbad.choose_spec.1
  have hpos : 0 < (Doc.elemsText true es ++ ']' :: rest).length := List.length_pos_of_ne_nil (by simp)
  obtain ⟨fuel, rfl⟩ : ∃ n, fuel = n + 4 := ⟨fuel - 4, by omega⟩
  rw [value_arr hne]
  exact .inl (elements_spoilt hbad htaken hspoilt [] rest ok (by omega))

theorem spoilt_obj {fs : List (Key × Doc)} (hbad : ∃ f ∈ fs, f.2.large = false)
    (htaken : ∀ f ∈ fs, f.2.large = true → Taken N f.2) (hspoilt : ∀ f ∈ fs, f.2.large = false → Spoilt N f.2)
    (gap : Blank) : Spoilt N (.obj gap fs) := by
  intro fuel rest ok hfuel _
  have hlength : ((Doc.obj gap fs).text ++ rest).length =
      (gap.text.length + (Doc.fieldsText true fs ++ closeBrace :: rest).length) + 1 := by
    simp [Doc.text_obj]
  have hne : fs ≠ [] := List.ne_nil_of_mem hbad.choose_spec.1
  obtain ⟨fuel, rfl⟩ : ∃ n, fuel = n + 3 := ⟨fuel - 3, by omega⟩
  rw [value_obj hne]
  exact .inl (members_spoilt hbad htaken hspoilt [] rest ok (by omega))

/-- A document is taken as a whole, or spoilt by a negative exponent in it. -/
theorem taken_or_spoilt (d : Doc) : (d.large = true → Taken N d) ∧ (d.large = false → Spoilt N d) := by
  induction d using Doc.induct with
  | null =>
    refine ⟨fun _ fuel rest ok hfuel _ => ?_, fun h => absurd h.symm Bool.false_ne_true⟩
    obtain ⟨fuel, rfl⟩ : ∃ n, fuel = n + 1 := ⟨fuel - 1, by omega⟩
    simp [Doc.text_null, value, skip_cons (c := 'n') (by decide), expect, show 'n' ≠ openBrace by decide,
      show 'n' ≠ quote by decide]
  | bool b =>
    refine ⟨fun _ fuel rest ok hfuel _ => ?_, fun h => absurd h.symm Bool.false_ne_true⟩
    obtain ⟨fuel, rfl⟩ : ∃ n, fuel = n + 1 := ⟨fuel - 1, by omega⟩
    cases b with
    | true =>
      simp [Doc.text_bool, value, skip_cons (c := 't') (by decide), boolean, show 't' ≠ openBrace by decide,
        show 't' ≠ quote by decide]
    | false =>
      simp [Doc.text_bool, value, skip_cons (c := 'f') (by decide), boolean, show 'f' ≠ openBrace by decide,
        show 'f' ≠ quote by decide]
  | num t =>
    have hlarge : (Doc.num t).large = !t.small := by simp [Doc.large, Doc.numbers]
    rw [hlarge, Bool.not_eq_true', Bool.not_eq_false']
    exact ⟨taken_num, spoilt_num⟩
  | str parts =>
    refine ⟨fun _ fuel rest ok hfuel _ => ?_, fun h => absurd h.symm Bool.false_ne_true⟩
    obtain ⟨fuel, rfl⟩ : ∃ n, fuel = n + 1 := ⟨fuel - 1, by omega⟩
    have hstr := jstr_quoted parts rest ok
    rw [Doc.text_str]
    rw [quoted, List.cons_append] at hstr ⊢
    rw [value_string, hstr]
  | arr gap elems ih =>
    rw [Doc.large_arr]
    constructor
    · intro h
      exact taken_arr (fun e he => (ih e he).1 (List.all_eq_true.1 h e he)) gap
    · intro h
      obtain ⟨e, he, hlarge⟩ := List.all_eq_false.1 h
      exact spoilt_arr ⟨e, he, by simpa using hlarge⟩ (fun e he => (ih e he).1) (fun e he => (ih e he).2) gap
  | obj gap fields ih =>
    rw [Doc.large_obj]
    constructor
    · intro h
      exact taken_obj (fun f hf => (ih f hf).1 (List.all_eq_true.1 h f hf)) gap
    · intro h
      obtain ⟨f, hf, hlarge⟩ := List.all_eq_false.1 h
      exact spoilt_obj ⟨f, hf, by simpa using hlarge⟩ (fun f hf => (ih f hf).1) (fun f hf => (ih f hf).2) gap
  | spaced before d after ih => exact ⟨fun h => taken_spaced (ih.1 h), fun h => spoilt_spaced (ih.2 h)⟩

theorem parseJson_accepts_iff (d : Doc) : (parseJson N d.text true).2 = true ↔ d.large = true := by
  have hfuel : 3 * (d.text ++ []).length + 1 ≤ 3 * d.text.length + 3 := by simp
  have hstops : Stops [] := fun c hc => absurd hc (by simp)
  have hboth := taken_or_spoilt (N := N) d
  rw [parseJson]
  dsimp only
  cases hlarge : d.large with
  | true =>
    have htaken := hboth.1 hlarge _ [] true hfuel hstops
    rw [List.append_nil] at htaken
    rw [htaken]
    decide
  | false =>
    have hspoilt := hboth.2 hlarge _ [] true hfuel hstops
    rw [List.append_nil] at hspoilt
    refine iff_of_false (fun haccepted => ?_) (by decide)
    rw [Bool.and_eq_true, List.isEmpty_iff] at haccepted
    rcases hspoilt with hfail | hminus
    · exact Bool.false_ne_true (hfail.symm.trans haccepted.1)
    · exact absurd (sees_pos hminus) (by rw [haccepted.2]; decide)

end

end Parser

theorem Doc.large_iff (d : Doc) : d.large = true ↔ ∀ t ∈ d.numbers, t.small = false := by
  rw [large, List.all_eq_true]
  simp only [Bool.not_eq_true']

/-- **A number is read as it was printed, unless it has a negative exponent**:
whatever stands behind it, the reader takes exactly its text; a document is
accepted if and only if none of its numbers has one, and what the writer puts
down for a tree is such a document. -/
theorem numbers_read_iff (N : Numerals) :
    (∀ (t : NumberText) (rest : Text) (ok : Bool), Parser.Stops rest →
      ((Parser.number N ⟨t.text ++ rest, ok⟩).2 = ⟨rest, ok⟩ ↔ t.small = false)) ∧
    (∀ d : Doc, (parseJson N d.text true).2 = true ↔ ∀ t ∈ d.numbers, t.small = false) ∧
    ∀ (print : ℚ → NumberText) (j : Json), (∀ v, N.print v = (print v).text) → CleanKeys j →
      ((parseJson N (dumpJson N j) true).2 = true ↔ ∀ t ∈ (docOf print j).numbers, t.small = false) := by
  refine ⟨fun t rest ok hrest => Parser.number_consumes_iff t hrest ok, fun d => ?_, fun print j hprint hj => ?_⟩
  · rw [Parser.parseJson_accepts_iff, d.large_iff]
  · rw [← text_docOf hprint hj, Parser.parseJson_accepts_iff, Doc.large_iff]

/-- The digits of a number. -/
def digitsOf (n : ℕ) : Digits := ⟨Nat.toDigits 10 n, Nat.toDigits_ne_nil, fun _ => Parser.isDigit_decimal⟩

/-- An integer in plain digits. -/
def integerText (n : ℤ) : NumberText := ⟨n < 0, digitsOf n.natAbs, none, none⟩

theorem text_integerText (n : ℤ) : (integerText n).text = decimal n := by
  by_cases hneg : n < 0 <;> simp [integerText, NumberText.text, NumberText.sign, NumberText.fractionText,
    NumberText.exponentText, decimal, digitsOf, hneg]

/-- A large number in an array, with a space behind the comma, and a message
with an integer. -/
theorem numbers_read_iff_large :
    let t : NumberText := ⟨true, digitsOf 12, some (digitsOf 5), some (false, digitsOf 20)⟩
    let space : Blank := ⟨[' '], List.forall_mem_singleton.2 rfl⟩
    let message : Json := .obj [("units".toList, .num (-12 : ℤ))]
    (Parser.number plainNumerals ⟨t.text ++ ", 1]".toList, true⟩).2 = ⟨", 1]".toList, true⟩ ∧
      (parseJson plainNumerals (Doc.arr noBlank [.num t, .spaced space (.num t) noBlank]).text true).2 = true ∧
      (parseJson plainNumerals (dumpJson plainNumerals message) true).2 = true := by
  intro t space message
  obtain ⟨hnumber, hdoc, htree⟩ := numbers_read_iff plainNumerals
  refine ⟨?_, ?_, ?_⟩
  · exact (hnumber t ", 1]".toList true (by rintro c ⟨rfl⟩; decide)).2 rfl
  · refine (hdoc _).2 ?_
    simp only [Doc.numbers, Doc.elemsNumbers, List.cons_append, List.nil_append, List.forall_mem_cons]
    exact ⟨rfl, rfl, fun _ h => nomatch h⟩
  · refine (htree (fun v => integerText v.num) message (fun v => (text_integerText v.num).symm) ?_).2 ?_
    · refine .obj ?_ ?_
      · simp only [List.forall_mem_cons, List.not_mem_nil, false_implies, implies_true, and_true]
        decide
      · simp only [List.forall_mem_cons, List.not_mem_nil, false_implies, implies_true, and_true]
        exact .num _
    · simp only [message, docOf, fieldsOf, Doc.numbers, Doc.fieldsNumbers, List.append_nil, List.forall_mem_singleton]
      rfl

/-- The cost 0.00001, as it is printed with 20 digits. -/
def smallCost : NumberText :=
  ⟨false, digitsOf 1, some ⟨"0000000000000000818".toList, by decide, List.all_eq_true.1 rfl⟩,
    some (true, ⟨"05".toList, by decide, List.all_eq_true.1 rfl⟩)⟩

/-- A message with a small cost is refused: the reader stops behind the `e`. -/
theorem small_cost_refused :
    let cost : Key := ⟨noBlank, "cost".toList.map .of, noBlank⟩
    (Parser.number plainNumerals ⟨smallCost.text ++ [closeBrace], true⟩).2.rest = "-05\x7d".toList ∧
      (parseJson plainNumerals (Doc.obj noBlank [(cost, .num smallCost)]).text true).2 = false := by
  decide +kernel

end InferenceScheduler.Net
