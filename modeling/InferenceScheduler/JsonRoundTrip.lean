/-
What `dumpJson` puts down is read back by `parseJson` as the same tree, if no
key needs an escape and the numbers can be read in one piece, as integers that
a double holds can.

The statement that carries the induction is `Parser.Reads`: the reader takes
exactly the text of a tree off whatever stands there, provided that what is
behind it cannot be read on as part of a number.
-/
import InferenceScheduler.Json

namespace InferenceScheduler.Net

/-! ## Strings and numbers read back -/

namespace Parser

theorem jstrBody_quote (rest : Text) : jstrBody (quote :: rest) = ([], rest, true) := by
  rw [jstrBody.eq_def]
  exact if_pos rfl

theorem jstrBody_escaped (e : Char) (rest : Text) :
    jstrBody (backslash :: e :: rest) = (unescape e :: (jstrBody rest).1, (jstrBody rest).2) := by
  rw [jstrBody.eq_def]
  exact (if_neg (by decide)).trans (if_pos rfl)

theorem jstrBody_char {c : Char} (hquote : c ≠ quote) (hback : c ≠ backslash) (rest : Text) :
    jstrBody (c :: rest) = (c :: (jstrBody rest).1, (jstrBody rest).2) := by
  rw [jstrBody.eq_def]
  exact (if_neg hquote).trans (if_neg hback)

/-- What the writer escapes is what the reader leaves as it is behind a backslash. -/
theorem jstrBody_escape (s rest : Text) : jstrBody (s.flatMap escape ++ quote :: rest) = (s, rest, true) := by
  induction s with
  | nil => exact jstrBody_quote rest
  | cons c s ih =>
    rw [List.flatMap_cons, List.append_assoc, escape]
    split
    · next hc =>
      have hback : unescape c = c := by
        rcases hc with rfl | rfl
        · rfl
        · rfl
      rw [List.cons_append, List.singleton_append, jstrBody_escaped, hback, ih]
    · next hc =>
      rw [not_or] at hc
      rw [List.singleton_append, jstrBody_char hc.1 hc.2, ih]

/-- A key that needs no escapes: neither a quote nor a backslash is in it. -/
def Clean (k : Text) : Prop := ∀ c ∈ k, c ≠ quote ∧ c ≠ backslash

instance (k : Text) : Decidable (Clean k) := List.decidableBAll (fun c => c ≠ quote ∧ c ≠ backslash) k

theorem Clean.flatMap_escape {k : Text} (h : Clean k) : k.flatMap escape = k := by
  have hsame : ∀ c ∈ k, escape c = [c] := fun c hc => if_neg (not_or.2 (h c hc))
  rw [List.flatMap_congr hsame, List.flatMap_singleton']

theorem jstr_key {k rest : Text} (h : Clean k) (ok : Bool) :
    jstr ⟨quote :: (k ++ quote :: rest), ok⟩ = (k, ⟨rest, ok⟩) := by
  have hbody := jstrBody_escape k rest
  rw [h.flatMap_escape] at hbody
  simp [jstr, hbody]

/-- The text cannot be read on as part of a number. -/
def Stops (rest : Text) : Prop := ∀ c ∈ rest.head?, numeral c = false

theorem numeral_of_isDigit {c : Char} (h : c.isDigit = true) : numeral c = true := by
  simp [numeral, h]

theorem takeWhile_stops {t rest : Text} (ht : ∀ c ∈ t, numeral c = true) (hrest : Stops rest) :
    (t ++ rest).takeWhile numeral = t ∧ (t ++ rest).dropWhile numeral = rest := by
  rw [List.takeWhile_append_of_pos ht, List.dropWhile_append_of_pos ht]
  cases rest with
  | nil => exact ⟨List.append_nil t, rfl⟩
  | cons c rest =>
    have hc : numeral c = false := hrest c rfl
    simp [List.takeWhile, List.dropWhile, hc]

@[simp] theorem sees_cons (c d : Char) (t : Text) (ok : Bool) : sees ⟨c :: t, ok⟩ d = decide (c = d) := by
  simp [sees]

@[simp] theorem advance_cons (c : Char) (t : Text) (ok : Bool) : advance ⟨c :: t, ok⟩ = ⟨t, ok⟩ := rfl

theorem skip_cons {c : Char} (hc : ws c = false) (t : Text) (ok : Bool) : skip ⟨c :: t, ok⟩ = ⟨c :: t, ok⟩ := by
  simp [skip, hc]

section roundtrip

variable {N : Numerals}

/-- How a number starts: not like any other value, nor like what stands between values. -/
def Signed (c : Char) : Prop := c = '-' ∨ c.isDigit = true

theorem Signed.ne {c d : Char} (h : Signed c) (hminus : d ≠ '-') (hdigit : d.isDigit = false) : c ≠ d := by
  rintro rfl
  rcases h with h | h
  · exact hminus h
  · exact Bool.false_ne_true (hdigit.symm.trans h)

theorem Signed.not_ws {c : Char} (h : Signed c) : ws c = false := by
  simp [ws, h.ne (d := ' ') (by decide) (by decide), h.ne (d := '\t') (by decide) (by decide),
    h.ne (d := '\n') (by decide) (by decide), h.ne (d := '\r') (by decide) (by decide)]

theorem value_signed {c : Char} (h : Signed c) (fuel : ℕ) (t : Text) (ok : Bool) :
    value N (fuel + 1) ⟨c :: t, ok⟩ = number N ⟨c :: t, ok⟩ := by
  simp [value, skip_cons h.not_ws, h.ne (d := openBrace) (by decide) (by decide),
    h.ne (d := '[') (by decide) (by decide), h.ne (d := quote) (by decide) (by decide),
    h.ne (d := 't') (by decide) (by decide), h.ne (d := 'f') (by decide) (by decide),
    h.ne (d := 'n') (by decide) (by decide)]

theorem isDigit_decimal {n : ℕ} {c : Char} (h : c ∈ Nat.toDigits 10 n) : c.isDigit = true :=
  Nat.isDigit_of_mem_toDigits (by decide) (by decide) h

variable (N) in
/-- The number is put down as characters that the reader takes for one number, and for this one. -/
def Legible (v : ℚ) : Prop :=
  ∃ c t, N.print v = c :: t ∧ Signed c ∧ (∀ d ∈ t, numeral d = true) ∧ N.strtod (c :: t) = v

theorem legible_int (hN : N.Exact) {n : ℤ} (hn : n.natAbs < 2 ^ 53) : Legible N n := by
  obtain ⟨hprint, hread⟩ := hN n hn
  have hdigits : ∀ c ∈ Nat.toDigits 10 n.natAbs, c.isDigit = true := fun c hc => isDigit_decimal hc
  by_cases hneg : n < 0
  · rw [decimal, if_pos hneg] at hprint hread
    exact ⟨_, _, hprint, .inl rfl, fun c hc => numeral_of_isDigit (hdigits c hc), hread⟩
  · rw [decimal, if_neg hneg] at hprint hread
    cases hcons : Nat.toDigits 10 n.natAbs with
    | nil => exact absurd hcons Nat.toDigits_ne_nil
    | cons c t =>
      rw [hcons] at hprint hread hdigits
      exact ⟨c, t, hprint, .inr (hdigits c List.mem_cons_self),
        fun d hd => numeral_of_isDigit (hdigits d (List.mem_cons_of_mem c hd)), hread⟩

theorem number_legible {v : ℚ} (h : Legible N v) {rest : Text} (hrest : Stops rest) (ok : Bool) :
    number N ⟨N.print v ++ rest, ok⟩ = (.num v, ⟨rest, ok⟩) := by
  obtain ⟨c, t, hprint, hc, ht, hread⟩ := h
  rw [hprint]
  by_cases hminus : c = '-'
  · subst hminus
    obtain ⟨htake, hdrop⟩ := takeWhile_stops ht hrest
    simp [number, htake, hdrop, hread]
  · have hall : ∀ d ∈ c :: t, numeral d = true :=
      List.forall_mem_cons.2 ⟨numeral_of_isDigit (hc.resolve_left hminus), ht⟩
    obtain ⟨htake, hdrop⟩ := takeWhile_stops hall hrest
    rw [List.cons_append] at htake hdrop ⊢
    simp [number, hminus, htake, hdrop, hread]

/-! ## Trees read back -/

/-- Trees that survive the way: no key needs an escape, and the numbers are
integers that a double holds. -/
inductive Portable : Json → Prop
  | null : Portable .null
  | bool (b : Bool) : Portable (.bool b)
  | num (n : ℤ) (h : n.natAbs < 2 ^ 53) : Portable (.num n)
  | str (s : Text) : Portable (.str s)
  | arr {elems : List Json} (h : ∀ e ∈ elems, Portable e) : Portable (.arr elems)
  | obj {fields : List (Text × Json)} (hkeys : ∀ f ∈ fields, Clean f.1) (h : ∀ f ∈ fields, Portable f.2) :
      Portable (.obj fields)

variable (N) in
/-- The same with any number that can be read in one piece. -/
inductive Readable : Json → Prop
  | null : Readable .null
  | bool (b : Bool) : Readable (.bool b)
  | num {v : ℚ} (h : Legible N v) : Readable (.num v)
  | str (s : Text) : Readable (.str s)
  | arr {elems : List Json} (h : ∀ e ∈ elems, Readable e) : Readable (.arr elems)
  | obj {fields : List (Text × Json)} (hkeys : ∀ f ∈ fields, Clean f.1) (h : ∀ f ∈ fields, Readable f.2) :
      Readable (.obj fields)

theorem Portable.readable (hN : N.Exact) {j : Json} (h : Portable j) : Readable N j := by
  induction h with
  | null => exact .null
  | bool b => exact .bool b
  | num n hn => exact .num (legible_int hN hn)
  | str s => exact .str s
  | arr _ ih => exact .arr ih
  | obj hkeys _ ih => exact .obj hkeys ih

theorem Readable.dump_cons {j : Json} (h : Readable N j) :
    ∃ c t, dumpJson N j = c :: t ∧ ws c = false ∧ c ≠ ']' := by
  cases h with
  | null => exact ⟨'n', _, rfl, by decide, by decide⟩
  | bool b =>
    cases b with
    | true => exact ⟨'t', _, rfl, by decide, by decide⟩
    | false => exact ⟨'f', _, rfl, by decide, by decide⟩
  | num h =>
    obtain ⟨c, t, hcons, hc, _⟩ := h
    exact ⟨c, t, hcons, hc.not_ws, hc.ne (by decide) (by decide)⟩
  | str s => exact ⟨quote, _, rfl, by decide, by decide⟩
  | arr h => exact ⟨'[', _, rfl, by decide, by decide⟩
  | obj hkeys h => exact ⟨openBrace, _, rfl, by decide, by decide⟩

theorem setField_append {k : Text} (v : Json) {fields : List (Text × Json)} (h : ∀ f ∈ fields, f.1 < k) :
    Json.setField k v fields = fields ++ [(k, v)] := by
  induction fields with
  | nil => rfl
  | cons f fields ih =>
    have hf : f.1 < k := h f List.mem_cons_self
    have hne : k ≠ f.1 := by
      intro heq
      rw [heq] at hf
      exact List.lt_irrefl _ hf
    rw [Json.setField, if_neg (List.lt_asymm hf), if_neg hne, ih fun g hg => h g (List.mem_cons_of_mem f hg)]
    rfl

variable (N) in
/-- The reader takes exactly the text of a tree, whatever stands behind it. -/
def Reads (j : Json) : Prop :=
  ∀ (fuel : ℕ) (rest : Text) (ok : Bool), 3 * (dumpJson N j).length ≤ fuel → Stops rest →
    value N fuel ⟨dumpJson N j ++ rest, ok⟩ = (j, ⟨rest, ok⟩)

theorem dumpElems_false (e : Json) (es : List Json) :
    dumpElems N false (e :: es) = ',' :: dumpElems N true (e :: es) := rfl

/-- The rest of an array is read after the elements before it. -/
theorem elements_dump {es : List Json} (hne : es ≠ []) (hreads : ∀ e ∈ es, Reads N e) (acc : List Json) {fuel : ℕ}
    (hfuel : 3 * (dumpElems N true es).length + 1 ≤ fuel) (rest : Text) (ok : Bool) :
    elements N fuel acc ⟨dumpElems N true es ++ ']' :: rest, ok⟩ = (.arr (acc ++ es), ⟨rest, ok⟩) := by
  induction es generalizing acc fuel with
  | nil => exact absurd rfl hne
  | cons e es ih =>
    obtain ⟨fuel, rfl⟩ : ∃ n, fuel = n + 1 := ⟨fuel - 1, by omega⟩
    have htext : dumpElems N true (e :: es) = dumpJson N e ++ dumpElems N false es := rfl
    rw [htext, List.length_append] at hfuel
    have hvalue := hreads e List.mem_cons_self fuel (dumpElems N false es ++ ']' :: rest) ok (by omega)
    rw [htext, List.append_assoc, elements, if_neg (by simp)]
    cases es with
    | nil =>
      rw [hvalue (by rintro c ⟨rfl⟩; decide)]
      simp [dumpElems, skip_cons (c := ']') (by decide)]
    | cons e' es' =>
      rw [dumpElems_false, List.length_cons] at hfuel
      rw [hvalue (by rintro c ⟨rfl⟩; decide), dumpElems_false]
      have hle : 3 * (dumpElems N true (e' :: es')).length + 1 ≤ fuel := by omega
      have hrest := ih (List.cons_ne_nil _ _) (fun d hd => hreads d (List.mem_cons_of_mem e hd)) (acc ++ [e]) hle
      simp [skip_cons (c := ',') (by decide), hrest]

theorem dumpFields_false (f : Text × Json) (fs : List (Text × Json)) :
    dumpFields N false (f :: fs) = ',' :: dumpFields N true (f :: fs) := rfl

theorem dumpFields_true (f : Text × Json) (fs : List (Text × Json)) :
    dumpFields N true (f :: fs) = quote :: (f.1 ++ quote :: ':' :: (dumpJson N f.2 ++ dumpFields N false fs)) := by
  simp [dumpFields, comma]

/-- The rest of an object is read after the fields before it, whose keys are smaller. -/
theorem members_dump {fs : List (Text × Json)} (hne : fs ≠ []) (hclean : ∀ f ∈ fs, Clean f.1)
    (hreads : ∀ f ∈ fs, Reads N f.2) {acc : List (Text × Json)}
    (hkeys : (acc ++ fs).Pairwise fun f g => f.1 < g.1) {fuel : ℕ}
    (hfuel : 3 * (dumpFields N true fs).length + 1 ≤ fuel) (rest : Text) (ok : Bool) :
    members N fuel acc ⟨dumpFields N true fs ++ closeBrace :: rest, ok⟩ = (.obj (acc ++ fs), ⟨rest, ok⟩) := by
  induction fs generalizing acc fuel with
  | nil => exact absurd rfl hne
  | cons f fs ih =>
    obtain ⟨fuel, rfl⟩ : ∃ n, fuel = n + 1 := ⟨fuel - 1, by omega⟩
    rw [dumpFields_true] at hfuel ⊢
    simp only [List.length_append, List.length_cons] at hfuel
    have hvalue := hreads f List.mem_cons_self fuel (dumpFields N false fs ++ closeBrace :: rest) ok (by omega)
    have hset : Json.setField f.1 f.2 acc = acc ++ [f] :=
      setField_append f.2 fun g hg => (List.pairwise_append.1 hkeys).2.2 g hg f List.mem_cons_self
    simp only [List.cons_append, List.append_assoc]
    rw [members, if_neg (List.cons_ne_nil _ _), skip_cons (by decide), jstr_key (hclean f List.mem_cons_self)]
    simp only [sees_cons, decide_true, Bool.true_eq_false, if_false, skip_cons (c := ':') (by decide), advance_cons]
    cases fs with
    | nil =>
      rw [hvalue (by rintro c ⟨rfl⟩; decide)]
      simp [dumpFields, skip_cons (c := closeBrace) (by decide), hset, show closeBrace ≠ ',' by decide]
    | cons g gs =>
      rw [dumpFields_false, List.length_cons] at hfuel
      rw [hvalue (by rintro c ⟨rfl⟩; decide), dumpFields_false]
      have hle : 3 * (dumpFields N true (g :: gs)).length + 1 ≤ fuel := by omega
      have hlater : ((acc ++ [f]) ++ g :: gs).Pairwise fun f g => f.1 < g.1 := by simpa using hkeys
      have hrest := ih (List.cons_ne_nil _ _) (fun d hd => hclean d (List.mem_cons_of_mem f hd))
        (fun d hd => hreads d (List.mem_cons_of_mem f hd)) hlater hle
      simp [skip_cons (c := ',') (by decide), hset, hrest]

/-! What a value is, by its first character. -/

theorem value_array (fuel : ℕ) (t : Text) (ok : Bool) :
    value N (fuel + 1) ⟨'[' :: t, ok⟩ = array N fuel ⟨'[' :: t, ok⟩ := by
  simp [value, skip_cons (c := '[') (by decide), show '[' ≠ openBrace by decide]

theorem array_elements {c : Char} (hws : ws c = false) (hclose : c ≠ ']') (fuel : ℕ) (t : Text) (ok : Bool) :
    array N (fuel + 1) ⟨'[' :: c :: t, ok⟩ = elements N fuel [] ⟨c :: t, ok⟩ := by
  simp [array, skip_cons hws, hclose]

theorem value_object (fuel : ℕ) (t : Text) (ok : Bool) :
    value N (fuel + 1) ⟨openBrace :: t, ok⟩ = object N fuel ⟨openBrace :: t, ok⟩ := by
  simp [value, skip_cons (c := openBrace) (by decide)]

theorem object_members (fuel : ℕ) (t : Text) (ok : Bool) :
    object N (fuel + 1) ⟨openBrace :: quote :: t, ok⟩ = members N fuel [] ⟨quote :: t, ok⟩ := by
  simp [object, skip_cons (c := quote) (by decide), show quote ≠ closeBrace by decide]

theorem value_string (fuel : ℕ) (t : Text) (ok : Bool) :
    value N (fuel + 1) ⟨quote :: t, ok⟩ = (.str (jstr ⟨quote :: t, ok⟩).1, (jstr ⟨quote :: t, ok⟩).2) := by
  simp [value, skip_cons (c := quote) (by decide), show quote ≠ openBrace by decide, show quote ≠ '[' by decide]

theorem reads_arr {es : List Json} (hreadable : ∀ e ∈ es, Readable N e)
    (hreads : ∀ e ∈ es, Reads N e) : Reads N (.arr es) := by
  intro fuel rest ok hfuel hstops
  rw [dumpJson, List.cons_append, List.length_cons, List.length_append, List.length_singleton] at hfuel
  obtain ⟨fuel, rfl⟩ : ∃ n, fuel = n + 2 := ⟨fuel - 2, by omega⟩
  have htext : dumpJson N (.arr es) ++ rest = '[' :: (dumpElems N true es ++ ']' :: rest) := by simp [dumpJson]
  rw [htext, value_array]
  cases es with
  | nil => simp [dumpElems, array, skip_cons (c := ']') (by decide)]
  | cons e es =>
    obtain ⟨c, t, hcons, hws, hclose⟩ := (hreadable e List.mem_cons_self).dump_cons
    have hstart : dumpElems N true (e :: es) = c :: (t ++ dumpElems N false es) := by
      simp [dumpElems, comma, hcons]
    have hle : 3 * (dumpElems N true (e :: es)).length + 1 ≤ fuel := by omega
    have hloop := elements_dump (List.cons_ne_nil e es) hreads [] hle rest ok
    rw [hstart, List.cons_append] at hloop ⊢
    rw [array_elements hws hclose, hloop, List.nil_append]

theorem reads_obj {fs : List (Text × Json)} (hclean : ∀ f ∈ fs, Clean f.1)
    (hkeys : fs.Pairwise fun f g => f.1 < g.1) (hreads : ∀ f ∈ fs, Reads N f.2) : Reads N (.obj fs) := by
  intro fuel rest ok hfuel hstops
  rw [dumpJson, List.cons_append, List.length_cons, List.length_append, List.length_singleton] at hfuel
  obtain ⟨fuel, rfl⟩ : ∃ n, fuel = n + 2 := ⟨fuel - 2, by omega⟩
  have htext : dumpJson N (.obj fs) ++ rest = openBrace :: (dumpFields N true fs ++ closeBrace :: rest) := by
    simp [dumpJson]
  rw [htext, value_object]
  cases fs with
  | nil => simp [dumpFields, object, skip_cons (c := closeBrace) (by decide)]
  | cons f fs =>
    have hle : 3 * (dumpFields N true (f :: fs)).length + 1 ≤ fuel := by omega
    have hkeys' : ([] ++ f :: fs : List (Text × Json)).Pairwise fun f g => f.1 < g.1 := hkeys
    have hloop := members_dump (List.cons_ne_nil f fs) hclean hreads hkeys' hle rest ok
    rw [dumpFields_true, List.cons_append] at hloop ⊢
    rw [object_members, hloop, List.nil_append]

/-- **The reader takes back what the writer puts down.** -/
theorem Readable.reads {j : Json} (h : Readable N j) (hordered : j.Ordered) : Reads N j := by
  induction h with
  | null =>
    intro fuel rest ok hfuel hstops
    obtain ⟨fuel, rfl⟩ : ∃ n, fuel = n + 1 := ⟨fuel - 1, by simp [dumpJson] at hfuel; omega⟩
    simp [dumpJson, value, skip_cons (c := 'n') (by decide), expect, show 'n' ≠ openBrace by decide,
      show 'n' ≠ quote by decide]
  | bool b =>
    intro fuel rest ok hfuel hstops
    obtain ⟨fuel, rfl⟩ : ∃ n, fuel = n + 1 := ⟨fuel - 1, by cases b <;> simp [dumpJson] at hfuel <;> omega⟩
    cases b with
    | true =>
      simp [dumpJson, value, skip_cons (c := 't') (by decide), boolean, show 't' ≠ openBrace by decide,
        show 't' ≠ quote by decide]
    | false =>
      simp [dumpJson, value, skip_cons (c := 'f') (by decide), boolean, show 'f' ≠ openBrace by decide,
        show 'f' ≠ quote by decide]
  | num h =>
    intro fuel rest ok hfuel hstops
    have hnumber := number_legible h hstops ok
    obtain ⟨c, t, hcons, hc, _⟩ := h
    rw [dumpJson, hcons, List.length_cons] at hfuel
    obtain ⟨fuel, rfl⟩ : ∃ n, fuel = n + 1 := ⟨fuel - 1, by omega⟩
    rw [hcons, List.cons_append] at hnumber
    rw [dumpJson, hcons, List.cons_append, value_signed hc, hnumber]
  | str s =>
    intro fuel rest ok hfuel hstops
    obtain ⟨fuel, rfl⟩ : ∃ n, fuel = n + 1 := ⟨fuel - 1, by simp [dumpJson] at hfuel; omega⟩
    simp [dumpJson, value_string, jstr, jstrBody_escape]
  | arr h ih =>
    cases hordered with
    | arr hchildren => exact reads_arr h fun e he => ih e he (hchildren e he)
  | obj hclean h ih =>
    cases hordered with
    | obj hkeys hchildren => exact reads_obj hclean hkeys fun f hf => ih f hf (hchildren f hf)

theorem ordered_set {j v : Json} (h : j.Ordered) (k : String) (hv : v.Ordered) : (j.set k v).Ordered := by
  cases h with
  | @obj fields hkeys hfields =>
    refine .obj (setField_pairwise hkeys) fun f hf => ?_
    rcases mem_setField hf with rfl | hf
    · exact hv
    · exact hfields f hf
  | null => exact .null
  | bool b => exact .bool b
  | num v => exact .num v
  | str s => exact .str s
  | arr h => exact .arr h

theorem Readable.set {j v : Json} {k : String} (h : Readable N j) (hk : Clean k.toList) (hv : Readable N v) :
    Readable N (j.set k v) := by
  cases h with
  | @obj fields hkeys hfields =>
    refine .obj (fun f hf => ?_) fun f hf => ?_ <;> rcases mem_setField hf with rfl | hf
    · exact hk
    · exact hkeys f hf
    · exact hv
    · exact hfields f hf
  | null => exact .null
  | bool b => exact .bool b
  | num h => exact .num h
  | str s => exact .str s
  | arr h => exact .arr h

theorem ordered_object {fields : List (String × Json)} (h : ∀ f ∈ fields, f.2.Ordered) :
    (Json.object fields).Ordered :=
  List.foldlRecOn fields _ (.obj .nil (by simp)) fun _ hj f hf => ordered_set hj f.1 (h f hf)

theorem readable_object {fields : List (String × Json)} (hkeys : ∀ f ∈ fields, Clean f.1.toList)
    (h : ∀ f ∈ fields, Readable N f.2) : Readable N (Json.object fields) :=
  List.foldlRecOn fields _ (.obj (by simp) (by simp)) fun _ hj f hf => hj.set (hkeys f hf) (h f hf)

theorem Readable.parse {j : Json} (h : Readable N j) (hordered : j.Ordered) :
    parseJson N (dumpJson N j) true = (j, true) := by
  have hread := h.reads hordered (3 * (dumpJson N j).length + 3) [] true (by omega) fun c hc => absurd hc (by simp)
  rw [List.append_nil] at hread
  rw [parseJson, hread]
  rfl

end roundtrip

end Parser

/-- **A message read is the message written**, for trees of any depth: string
values are any bytes, keys are without quotes and backslashes, and numbers are
integers that a double holds. -/
theorem parseJson_dumpJson (N : Numerals) (hN : N.Exact) {j : Json} (hordered : j.Ordered)
    (hportable : Parser.Portable j) : parseJson N (dumpJson N j) true = (j, true) :=
  (hportable.readable hN).parse hordered

/-- Integers printed and read in plain digits. -/
def plainNumerals : Numerals where
  print q := decimal q.num
  strtod t :=
    let n : ℤ := if t.head? = some '-' then -Nat.ofDigitChars 10 t.tail 0 else Nat.ofDigitChars 10 t 0
    n

theorem plainNumerals_exact : plainNumerals.Exact := by
  intro n _
  refine ⟨congrArg decimal (Rat.num_intCast n), ?_⟩
  by_cases hneg : n < 0
  · have hval : -((n.natAbs : ℕ) : ℤ) = n := by omega
    rw [decimal, if_pos hneg]
    simp only [plainNumerals, List.head?_cons, if_true, List.tail_cons, Nat.ofDigitChars_ten_toDigits]
    exact congrArg Int.cast hval
  · have hval : ((n.natAbs : ℕ) : ℤ) = n := by omega
    have hhead : (Nat.toDigits 10 n.natAbs).head? ≠ some '-' := by
      intro hc
      exact absurd (Parser.isDigit_decimal (List.mem_of_head? hc)) (by decide)
    rw [decimal, if_neg hneg]
    simp only [plainNumerals, hhead, if_false, Nat.ofDigitChars_ten_toDigits]
    exact congrArg Int.cast hval

/-- A message with a quote in a value and a number in an array. -/
def sampleMessage : Json :=
  .obj [("op".toList, .str "say \x22hi\x22\n".toList), ("units".toList, .arr [.num (-12 : ℤ), .null, .bool true])]

theorem parseJson_dumpJson_sample :
    parseJson plainNumerals (dumpJson plainNumerals sampleMessage) true = (sampleMessage, true) := by
  refine parseJson_dumpJson plainNumerals plainNumerals_exact ?_ ?_
  · refine .obj (by simp; decide) ?_
    simp only [List.forall_mem_cons, List.not_mem_nil, false_implies, implies_true, and_true]
    refine ⟨.str _, .arr ?_⟩
    simp only [List.forall_mem_cons, List.not_mem_nil, false_implies, implies_true, and_true]
    exact ⟨.num _, .null, .bool _⟩
  · refine .obj ?_ ?_
    · simp only [List.forall_mem_cons, List.not_mem_nil, false_implies, implies_true, and_true]
      decide
    · simp only [List.forall_mem_cons, List.not_mem_nil, false_implies, implies_true, and_true]
      refine ⟨.str _, .arr ?_⟩
      simp only [List.forall_mem_cons, List.not_mem_nil, false_implies, implies_true, and_true]
      exact ⟨.num _ (by decide), .null, .bool _⟩

end InferenceScheduler.Net
