/-
Submit messages (`src/protocol.hpp`, the client's `submit` and the submit
branch of the coordinator's `handle_one`): a specification as a message, and
the specification that is read from it.

Ids go as decimal text, all other numbers as doubles, which hold the integers
below 2^53. The two field lists agree but for one: `spec_to_json` writes a
deadline, as the time it is away from the epoch of the clock, and
`spec_from_json` does not read it.
-/
import InferenceScheduler.Akin
import InferenceScheduler.Frozen
import InferenceScheduler.Image
import InferenceScheduler.JsonRoundTrip
import Mathlib.Data.List.TakeWhile

namespace InferenceScheduler.Net

/-! ## Numbers -/

/-- A natural number to 53 significant bits, ties to even. -/
def roundNat (n : ℕ) : ℕ :=
  let e := n.log2 - 52
  let q := n / 2 ^ e
  let r := n % 2 ^ e
  (if 2 ^ e < 2 * r ∨ 2 * r = 2 ^ e ∧ q % 2 = 1 then q + 1 else q) * 2 ^ e

/-- `static_cast<double>` of a 64-bit integer. -/
def toDouble (n : ℤ) : ℚ := ((n.sign * roundNat n.natAbs : ℤ) : ℚ)

/-- A double cast to an integer: towards zero. -/
def truncate (v : ℚ) : ℤ := v.num.tdiv v.den

/-- Integers that a double holds. -/
def Small (n : ℤ) : Prop := n.natAbs < 2 ^ 53

instance (n : ℤ) : Decidable (Small n) := inferInstanceAs (Decidable (_ < _))

theorem roundNat_of_lt {n : ℕ} (h : n < 2 ^ 53) : roundNat n = n := by
  have he : n.log2 - 52 = 0 := by
    rcases Nat.eq_zero_or_pos n with rfl | hn
    · rfl
    · have := (Nat.log2_lt hn.ne').2 h
      omega
  simp [roundNat, he, Nat.mod_one]

theorem toDouble_of_small {n : ℤ} (h : Small n) : toDouble n = n := by
  rw [toDouble, roundNat_of_lt h, Int.sign_mul_natAbs]

@[simp] theorem truncate_intCast (n : ℤ) : truncate n = n := by simp [truncate]

theorem truncate_toDouble {n : ℤ} (h : Small n) : truncate (toDouble n) = n := by
  rw [toDouble_of_small h, truncate_intCast]

/-! ## Ids -/

/-- `std::isspace`. -/
def isSpace (c : Char) : Bool := c = ' ' || c = '\t' || c = '\n' || c = '\x0b' || c = '\x0c' || c = '\r'

/-- `strtoull` to the base 10: a sign is taken, and what is too large becomes
the largest value. -/
def strtoull (t : Text) : UInt64 :=
  let t := t.dropWhile isSpace
  let signed := t.head? = some '-' ∨ t.head? = some '+'
  let n := Nat.ofDigitChars 10 ((if signed then t.tail else t).takeWhile Char.isDigit) 0
  if 2 ^ 64 ≤ n then UInt64.ofNat (2 ^ 64 - 1)
  else if t.head? = some '-' then -UInt64.ofNat n else UInt64.ofNat n

/-- `id_json`. -/
def idJson (v : UInt64) : Json := .str (Nat.toDigits 10 v.toNat)

/-- `num_u64`. A number out of range is undefined in the source. -/
def numU64 (j : Json) (k : String) (dflt : UInt64 := 0) : UInt64 :=
  match j.get k with
  | some (.str s) => strtoull s
  | some (.num v) => UInt64.ofInt (truncate v)
  | _ => dflt

theorem isSpace_of_isDigit {c : Char} (h : c.isDigit = true) : isSpace c = false := by
  rw [Bool.eq_false_iff]
  intro hspace
  simp only [isSpace, Bool.or_eq_true, decide_eq_true_eq] at hspace
  rcases hspace with ((((rfl | rfl) | rfl) | rfl) | rfl) | rfl <;> exact absurd h (by decide)

theorem strtoull_toDigits (v : UInt64) : strtoull (Nat.toDigits 10 v.toNat) = v := by
  have hdigits : ∀ c ∈ Nat.toDigits 10 v.toNat, c.isDigit = true := fun c hc => Parser.isDigit_decimal hc
  have hspace : (Nat.toDigits 10 v.toNat).dropWhile isSpace = Nat.toDigits 10 v.toNat := by
    refine List.dropWhile_eq_self_iff.2 fun hl hspace => ?_
    exact Bool.false_ne_true ((isSpace_of_isDigit (hdigits _ (List.getElem_mem hl))).symm.trans hspace)
  have htake : (Nat.toDigits 10 v.toNat).takeWhile Char.isDigit = Nat.toDigits 10 v.toNat :=
    List.takeWhile_eq_self_iff.2 hdigits
  have hsign : ∀ c, c.isDigit = false → (Nat.toDigits 10 v.toNat).head? ≠ some c := by
    intro c hc hhead
    exact Bool.false_ne_true (hc.symm.trans (hdigits c (List.mem_of_head? hhead)))
  simp only [strtoull, hspace, hsign '-' (by decide), hsign '+' (by decide), or_self, if_false, htake,
    Nat.ofDigitChars_ten_toDigits, if_neg (Nat.not_le.2 v.toNat_lt), UInt64.ofNat_toNat]

/-! ## Specifications -/

/-- A deadline as it is written: in milliseconds from the epoch of the clock,
and −1 when there is none. -/
def deadlineMs (s : RequestSpec) : ℤ := if s.deadline.valid then s.deadline.remaining 0 else -1

/-- The fields `spec_to_json` sets, in its order. -/
def specFields (s : RequestSpec) : List (String × Json) :=
  [("kind", .str "spec".toList),
   ("tenant", idJson s.tenant.value),
   ("session", idJson s.session.value),
   ("sequence", idJson s.sequence.value),
   ("model", idJson s.model.value),
   ("revision", idJson s.revision.value),
   ("adapter", idJson s.adapter.value),
   ("phase", .num (phaseInt s.phase)),
   ("priority", .num (priorityInt s.priority)),
   ("latency", .num (latencyInt s.latencyClass)),
   ("tin", .num (toDouble s.tokens.input)),
   ("tout", .num (toDouble s.tokens.output)),
   ("tdec", .num (toDouble s.tokens.decoded)),
   ("cost", .num s.demand.costUnits),
   ("mem", .num (toDouble s.estimatedMemoryBytes)),
   ("deadline_ms", .num (toDouble (deadlineMs s))),
   ("maxbatch", .num (toDouble s.maxBatchSize)),
   ("payload", .str s.payload.toList)]

/-- `spec_to_json`. -/
def specToJson (s : RequestSpec) : Json := .object (specFields s)

/-- `spec_from_json`. -/
def specFromJson (j : Json) : RequestSpec where
  tenant := ⟨numU64 j "tenant"⟩
  session := ⟨numU64 j "session"⟩
  sequence := ⟨numU64 j "sequence"⟩
  model := ⟨numU64 j "model"⟩
  revision := ⟨numU64 j "revision"⟩
  adapter := ⟨numU64 j "adapter"⟩
  phase := .ofInt (truncate (j.getnum "phase" 1))
  priority := .ofInt (truncate (j.getnum "priority" 2))
  latencyClass := .ofInt (truncate (j.getnum "latency" 2))
  tokens :=
    { input := truncate (j.getnum "tin" 0)
      output := truncate (j.getnum "tout" 0)
      decoded := truncate (j.getnum "tdec" 0) }
  demand := { costUnits := j.getnum "cost" 1 }
  estimatedMemoryBytes := truncate (j.getnum "mem" 0)
  maxBatchSize := truncate (j.getnum "maxbatch" 0)
  payload := String.ofList (j.getstr "payload")

/-- The message of the client's `submit`. -/
def submitMessage (s : RequestSpec) : Json := (specToJson s).set "op" (.str "submit".toList)

/-- The integers of a specification are such that a double holds them. -/
@[mk_iff] structure SmallSpec (s : RequestSpec) : Prop where
  phase : Small (phaseInt s.phase)
  priority : Small (priorityInt s.priority)
  latencyClass : Small (latencyInt s.latencyClass)
  input : Small s.tokens.input
  output : Small s.tokens.output
  decoded : Small s.tokens.decoded
  memory : Small s.estimatedMemoryBytes
  batch : Small s.maxBatchSize
  deadline : Small (deadlineMs s)

instance (s : RequestSpec) : Decidable (SmallSpec s) := decidable_of_iff _ (smallSpec_iff s).symm

theorem numU64_of_get {j : Json} {k : String} {v : UInt64} (h : j.get k = some (idJson v)) : numU64 j k = v := by
  simp only [numU64, h, idJson, strtoull_toDigits]

theorem getnum_of_get {j : Json} {k : String} {v dflt : ℚ} (h : j.get k = some (.num v)) : j.getnum k dflt = v := by
  simp only [Json.getnum, h]

theorem getstr_of_get {j : Json} {k : String} {t dflt : Text} (h : j.get k = some (.str t)) :
    j.getstr k dflt = t := by
  simp only [Json.getstr, h]

/-- A tree that has the fields of a specification. -/
def Bears (s : RequestSpec) (j : Json) : Prop := ∀ f ∈ specFields s, j.get f.1 = some f.2

theorem bears_specToJson (s : RequestSpec) : Bears s (specToJson s) := by
  intro f hf
  refine Json.get_object_of_mem ?_ hf
  simp only [specFields, List.map_cons, List.map_nil]
  decide

/-- **Every field but the deadline is read as it was written.** -/
theorem specFromJson_of_bears {s : RequestSpec} {j : Json} (h : SmallSpec s) (hj : Bears s j) :
    specFromJson j = { s.carried with deadline := {} } := by
  simp only [Bears, specFields, List.forall_mem_cons, List.not_mem_nil, false_implies, implies_true, and_true] at hj
  obtain ⟨-, htenant, hsession, hsequence, hmodel, hrevision, hadapter, hphase, hpriority, hlatency, htin, htout, htdec,
    hcost, hmem, -, hbatch, hpayload⟩ := hj
  simp only [specFromJson, numU64_of_get htenant, numU64_of_get hsession, numU64_of_get hsequence,
    numU64_of_get hmodel, numU64_of_get hrevision, numU64_of_get hadapter, getnum_of_get hphase,
    getnum_of_get hpriority, getnum_of_get hlatency, getnum_of_get htin, getnum_of_get htout, getnum_of_get htdec,
    getnum_of_get hcost, getnum_of_get hmem, getnum_of_get hbatch, getstr_of_get hpayload, truncate_intCast,
    truncate_toDouble h.input, truncate_toDouble h.output, truncate_toDouble h.decoded, truncate_toDouble h.memory,
    truncate_toDouble h.batch, RequestPhase.ofInt_phaseInt, PriorityClass.ofInt_priorityInt,
    LatencyClass.ofInt_latencyInt, String.ofList_toList]
  rfl

/-- So a specification is read as it was written exactly if it has none. -/
theorem specFromJson_restores_iff {s : RequestSpec} {j : Json} (h : SmallSpec s) (hj : Bears s j) :
    specFromJson j = s.carried ↔ s.deadline.valid = false := by
  rw [specFromJson_of_bears h hj]
  constructor
  · intro heq
    have hnone : ({} : Deadline) = s.deadline := congrArg RequestSpec.deadline heq
    rw [← hnone]
    rfl
  · intro hdeadline
    have hpoint : s.deadline.point = none := by simpa [Deadline.valid] using hdeadline
    have hnone : s.carried.deadline = {} := congrArg Deadline.mk hpoint
    rw [← hnone]

/-! ## The way of a submission -/

/-- `recv_json`: what cannot be read is null. -/
def recvJson (N : Numerals) (text : Text) : Json :=
  let r := parseJson N text true
  if r.2 then r.1 else .null

def decisionInt : AdmissionDecision → ℤ
  | .admitted => 0
  | .defer => 1
  | .reject => 2

/-- The coordinator's answer to a submission. -/
def submitAck : Result AdmissionOutput → Json
  | .ok ad => .object [("op", .str "submit_ack".toList), ("decision", .num (decisionInt ad.decision)),
      ("reason", .str ad.reasonCode.toList), ("request_id", idJson ad.requestId.value),
      ("attempt", idJson ad.attemptId.value), ("generation", idJson ad.generation.value)]
  | .error e => .object [("op", .str "submit_ack".toList), ("decision", .num (decisionInt .reject)),
      ("reason", .str e.message.toList), ("request_id", .num 0)]

/-- What `handle_one` does with the text of a submission, and nothing if it is
not read as one. -/
def handleSubmit (N : Numerals) (s : Impl) (text : Text) : Option (Impl × Json) :=
  let req := recvJson N text
  if req.getstr "op" = "submit".toList then
    let ad := s.doSubmit (specFromJson req) none
    some (ad.1, submitAck ad.2)
  else none

theorem submitMessage_eq (s : RequestSpec) :
    submitMessage s = .object (specFields s ++ [("op", .str "submit".toList)]) := by
  simp only [submitMessage, specToJson, Json.object, List.foldl_append, List.foldl_cons, List.foldl_nil]

theorem get_submitMessage {s : RequestSpec} {f : String × Json}
    (hf : f ∈ specFields s ++ [("op", .str "submit".toList)]) : (submitMessage s).get f.1 = some f.2 := by
  rw [submitMessage_eq]
  refine Json.get_object_of_mem ?_ hf
  simp only [specFields, List.cons_append, List.nil_append, List.map_cons, List.map_nil]
  decide

theorem getstr_submitMessage (s : RequestSpec) : (submitMessage s).getstr "op" = "submit".toList := by
  have hmem : ("op", Json.str "submit".toList) ∈ specFields s ++ [("op", .str "submit".toList)] :=
    List.mem_append_right _ List.mem_cons_self
  have hget := get_submitMessage hmem
  exact getstr_of_get hget

/-- The text of a submission is read back, if that of its cost is. -/
theorem recvJson_submitMessage {N : Numerals} (hN : N.Exact) {s : RequestSpec} (h : SmallSpec s)
    (hcost : Parser.Legible N s.demand.costUnits) :
    recvJson N (dumpJson N (submitMessage s)) = submitMessage s := by
  have hordered : (submitMessage s).Ordered := by
    rw [submitMessage_eq]
    refine Parser.ordered_object ?_
    simp only [specFields, idJson, List.cons_append, List.nil_append, List.forall_mem_cons, List.not_mem_nil,
      false_implies, implies_true, and_true]
    repeat' constructor
  have hnum : ∀ {n : ℤ}, Small n → Parser.Readable N (.num (toDouble n)) := by
    intro n hn
    rw [toDouble_of_small hn]
    exact .num (Parser.legible_int hN hn)
  have hint : ∀ {n : ℤ}, Small n → Parser.Readable N (.num n) := fun hn => .num (Parser.legible_int hN hn)
  have hreadable : Parser.Readable N (submitMessage s) := by
    rw [submitMessage_eq]
    refine Parser.readable_object ?_ ?_ <;>
      simp only [specFields, idJson, List.cons_append, List.nil_append, List.forall_mem_cons, List.not_mem_nil,
        false_implies, implies_true, and_true]
    · decide
    · exact ⟨.str _, .str _, .str _, .str _, .str _, .str _, .str _, hint h.phase, hint h.priority,
        hint h.latencyClass, hnum h.input, hnum h.output, hnum h.decoded, .num hcost, hnum h.memory,
        hnum h.deadline, hnum h.batch, .str _, .str _⟩
  rw [recvJson, hreadable.parse hordered]
  rfl

/-- A cost printed with a negative exponent is not legible: the reader stops at the sign. -/
example :
    let N : Numerals :=
      { plainNumerals with
        print := fun q => if q = 1 / 100000 then "1.0000000000000000818e-05".toList else decimal q.num }
    let spec : RequestSpec := { plainSpec with demand := { costUnits := 1 / 100000 } }
    (parseJson N (dumpJson N (submitMessage spec)) true).2 = false := by
  decide +kernel

end InferenceScheduler.Net
