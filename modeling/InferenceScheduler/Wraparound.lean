/-
Runs long enough for the id counter to leave its half of an id.

A submission without an id of its own that admission defers draws one id and
stores nothing, so a run can draw any number of ids and be otherwise where it
was (`run_deferred`). From call `2^32` on the counter reaches into the salt,
and the ids the factory issues repeat.
-/
import InferenceScheduler.Simulation

namespace InferenceScheduler

open Machine

/-- The salts of `IdFactory::random_salt` have bit 31 set, so bit 63 of every
id is. -/
theorem IdFactory.issue_testBit {salt : UInt64} (h : (salt <<< 32).toNat.testBit 63 = true) (n : ℕ) :
    (issue salt n).toNat.testBit 63 = true := by
  rw [issue, UInt64.toNat_or, Nat.testBit_or, h, Bool.true_or]

namespace Impl

/-- The scheduler after `k` deferred submissions. -/
def deferred (s : Impl) (k : ℕ) : Impl :=
  { s with
    idFactory := { s.idFactory with counter := s.idFactory.counter + k }
    stats :=
      { s.stats with
        requestsSubmitted := s.stats.requestsSubmitted + k
        requestsDeferred := s.stats.requestsDeferred + k } }

theorem deferred_succ (s : Impl) (k : ℕ) : s.deferred (k + 1) = (s.deferred 1).deferred k := by
  simp only [deferred, Nat.add_assoc, Nat.add_comm 1 k]

section

variable {s : Impl} {spec : RequestSpec}

theorem next_deferred (hv : validateSpec spec = .ok ()) (hd : (s.makeAdmission spec s.now).1 = .defer) :
    scheduler.next s (.submit spec none) = s.deferred 1 := by
  -- Drawing the id changes nothing the decision reads.
  obtain ⟨reason, hr⟩ : ∃ reason, s.drawId.makeAdmission spec s.drawId.now = (.defer, reason) :=
    ⟨_, Prod.ext hd rfl⟩
  show (s.doSubmit spec none).1 = _
  simp only [doSubmit, hv, submitAs, hr]
  rfl

theorem run_deferred (hv : validateSpec spec = .ok ()) (hd : (s.makeAdmission spec s.now).1 = .defer) (k : ℕ) :
    scheduler.run s (List.replicate k (.submit spec none)) = s.deferred k := by
  induction k generalizing s with
  | zero => rfl
  | succ k ih =>
    rw [List.replicate_succ, run_cons, next_deferred hv hd, deferred_succ s k]
    exact ih (s := s.deferred 1) hd

theorem allowed_deferred {P : Impl → Op → Prop} (hv : validateSpec spec = .ok ())
    (hd : (s.makeAdmission spec s.now).1 = .defer) (hok : ∀ k, P (s.deferred k) (.submit spec none)) (k : ℕ) :
    scheduler.Allowed P s (List.replicate k (.submit spec none)) := by
  induction k generalizing s with
  | zero => trivial
  | succ k ih =>
    refine ⟨hok 0, ?_⟩
    rw [next_deferred hv hd]
    exact ih (s := s.deferred 1) hd fun j => deferred_succ s j ▸ hok (j + 1)

/-- No id the factory draws is in use, if the ids in use are all small. -/
theorem freshSubmit_deferred (hs : (s.idFactory.salt <<< 32).toNat.testBit 63 = true)
    (hsmall : ∀ r rec, s.requests.find r = some rec → rec.requestId.value.toNat.testBit 63 = false) (k : ℕ) :
    FreshSubmit (s.deferred k) (.submit spec none) := by
  show s.requests.find ⟨IdFactory.issue s.idFactory.salt (s.idFactory.counter + k + 1)⟩ = none
  cases hf : s.requests.find ⟨IdFactory.issue s.idFactory.salt (s.idFactory.counter + k + 1)⟩ with
  | none => rfl
  | some rec =>
    have hid := Keyed.key_of_find hf
    have hb := hsmall _ rec hf
    rw [show rec.requestId = _ from hid, IdFactory.issue_testBit hs] at hb
    exact absurd hb (by decide)

/-- A run with deferred submissions in the middle. -/
theorem allowed_around {P : Impl → Op → Prop} {fst lst : List Op} (k : ℕ) (hv : validateSpec spec = .ok ())
    (hd : ((scheduler.run s fst).makeAdmission spec (scheduler.run s fst).now).1 = .defer)
    (hfst : scheduler.Allowed P s fst) (hok : ∀ k, P ((scheduler.run s fst).deferred k) (.submit spec none))
    (hlst : scheduler.Allowed P ((scheduler.run s fst).deferred k) lst) :
    scheduler.Allowed P s (fst ++ (List.replicate k (.submit spec none) ++ lst)) := by
  rw [allowed_append, allowed_append, run_deferred hv hd]
  exact ⟨hfst, allowed_deferred hv hd hok k, hlst⟩

theorem run_around {fst : List Op} (k : ℕ) (hv : validateSpec spec = .ok ())
    (hd : ((scheduler.run s fst).makeAdmission spec (scheduler.run s fst).now).1 = .defer) (lst : List Op) :
    scheduler.run s (fst ++ (List.replicate k (.submit spec none) ++ lst)) =
      scheduler.run ((scheduler.run s fst).deferred k) lst := by
  rw [run_append, run_append, run_deferred hv hd]

end

end Impl

end InferenceScheduler
