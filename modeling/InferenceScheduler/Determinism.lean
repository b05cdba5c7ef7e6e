/-
Decisions do not depend on the order in which unordered containers are walked.

Expiry is the same in every order (`Akin.expireScan`). The seed is chosen
along the ordered set of flows. The candidates of a batch are sorted by an
order that separates any two requests, and of two workers with the same score
the one with the smaller id is taken, so neither can tell in which order they
were met. `plan_order_free`: planning takes states that are akin to states
that are akin, with the same outcome.
-/
import InferenceScheduler.Akin
import InferenceScheduler.Batching
import InferenceScheduler.Choice

namespace InferenceScheduler

namespace Akin

variable {s t : Impl}

theorem find (h : Akin .full s t) (id : RequestId) : s.requests.find id = t.requests.find id := by
  have hreq := h.requests id
  have hseen : RequestRecord.seen .full = fun rec => rec := rfl
  rwa [hseen, Option.map_id', Option.map_id'] at hreq

theorem specOf (h : Akin .full s t) (id : RequestId) : s.specOf id = t.specOf id := by
  rw [Impl.specOf, Impl.specOf, h.find]

/-! ## The seed -/

theorem popDead (h : Akin .full s t) (now : ClockTime) (es : List ReadyEntry) :
    (Impl.popDead now es s).1 = (Impl.popDead now es t).1 ∧
      Akin .full (Impl.popDead now es s).2 (Impl.popDead now es t).2 := by
  induction es generalizing s t with
  | nil => exact ⟨rfl, h⟩
  | cons e es ih =>
    rw [Impl.popDead, Impl.popDead, h.find]
    cases t.requests.find e.id with
    | none =>
      obtain ⟨hcount, hstate⟩ := ih h
      exact ⟨congrArg (· + 1) hcount, hstate⟩
    | some r =>
      dsimp only
      simp only [h.mem_queued]
      split_ifs
      · obtain ⟨hcount, hstate⟩ := ih h
        exact ⟨congrArg (· + 1) hcount, hstate⟩
      · obtain ⟨hcount, hstate⟩ := ih (h.expireRequest (.refl _ r))
        exact ⟨congrArg (· + 1) hcount, hstate⟩
      · exact ⟨rfl, h⟩

theorem setFlow (h : Akin .full s t) (k : FlowKey) (f : Flow) : Akin .full (s.setFlow k f) (t.setFlow k f) :=
  { h with flows := congrArg (·.insert k f) h.flows }

theorem deactivate (h : Akin .full s t) (k : FlowKey) : Akin .full (s.deactivate k) (t.deactivate k) :=
  { h with activeFlows := congrArg (·.erase k) h.activeFlows }

theorem pickStep (h : Akin .full s t) (now : ClockTime) (best : Option (FlowKey × ℚ)) (k : FlowKey) :
    Akin .full (Impl.pickStep now (s, best) k).1 (Impl.pickStep now (t, best) k).1 ∧
      (Impl.pickStep now (s, best) k).2 = (Impl.pickStep now (t, best) k).2 := by
  obtain ⟨hcount, hpopped⟩ := h.popDead now (t.ready.flow k).pending.entries
  rw [Impl.pickStep, Impl.pickStep]
  dsimp only
  rw [h.flow, hcount]
  set f : Flow := { t.ready.flow k with
    pending := (t.ready.flow k).pending.popN (Impl.popDead now (t.ready.flow k).pending.entries t).1 }
  have hset := hpopped.setFlow k f
  cases f.pending.top? with
  | none => exact ⟨hset.deactivate k, rfl⟩
  | some top =>
    dsimp only
    rw [hset.find, hset.cfg]
    cases best with
    | none => exact ⟨hset, rfl⟩
    | some b =>
      obtain ⟨best, bf⟩ := b
      dsimp only
      split_ifs <;> exact ⟨hset, rfl⟩

theorem foldl_pickStep (h : Akin .full s t) (now : ClockTime) (ks : List FlowKey) (best : Option (FlowKey × ℚ)) :
    Akin .full (ks.foldl (Impl.pickStep now) (s, best)).1 (ks.foldl (Impl.pickStep now) (t, best)).1 ∧
      (ks.foldl (Impl.pickStep now) (s, best)).2 = (ks.foldl (Impl.pickStep now) (t, best)).2 := by
  induction ks generalizing s t best with
  | nil => exact ⟨h, rfl⟩
  | cons k ks ih =>
    obtain ⟨hstate, hbest⟩ := h.pickStep now best k
    have hrest := ih hstate (Impl.pickStep now (s, best) k).2
    rw [List.foldl_cons, List.foldl_cons]
    rwa [show Impl.pickStep now (t, best) k =
      ((Impl.pickStep now (t, best) k).1, (Impl.pickStep now (s, best) k).2) by rw [hbest]]

theorem pickSeed (h : Akin .full s t) (now : ClockTime) :
    Akin .full (s.pickSeed now).1 (t.pickSeed now).1 ∧ (s.pickSeed now).2 = (t.pickSeed now).2 := by
  obtain ⟨hstate, hbest⟩ := h.foldl_pickStep now (t.ready.activeFlows.elems.insertionSort FlowKey.le) none
  rw [Impl.pickSeed, Impl.pickSeed, h.activeFlows, hbest]
  cases ((t.ready.activeFlows.elems.insertionSort FlowKey.le).foldl (Impl.pickStep now) (t, none)).2 with
  | none => exact ⟨hstate, rfl⟩
  | some b =>
    obtain ⟨best, bf⟩ := b
    exact ⟨hstate, by dsimp only; rw [hstate.flow]⟩

/-! ## The batch -/

theorem planMembers (h : Akin .full s t) (request : RequestId) (now : ClockTime) :
    s.planMembers request now = t.planMembers request now := by
  refine Impl.planMembers_congr h.cfg (fun id => by rw [h.find]) fun spec id => ?_
  have hbucket := Finset.ext_iff.1 (h.bucket (compatKey t.cfg spec)) id
  rw [Impl.mem_candidates, Impl.mem_candidates, h.cfg, h.mem_queued]
  simp only [Core.Waits, Impl.core, h.find, USet.mem_toFinset] at hbucket ⊢
  rw [hbucket]

/-! ## The worker -/

theorem selectWorker (h : Akin .full s t) (members : List RequestId) (cost : ℚ) (now : ClockTime) :
    (s.selectWorker members cost now).1 = (t.selectWorker members cost now).1 ∧
      (s.selectWorker members cost now).2.Perm (t.selectWorker members cost now).2 := by
  cases members with
  | nil => exact ⟨rfl, .refl _⟩
  | cons seed members =>
    have hscores : (s.scores seed cost now).Perm (t.scores seed cost now) := by
      rw [Impl.scores, Impl.scores, h.cfg, h.specOf]
      exact h.workers_perm.map _
    have hbest := foldl_betterScore_perm hscores (s.nodup_scores seed cost now)
    rw [Impl.scores, Impl.scores] at hscores hbest
    rw [Impl.selectWorker, Impl.selectWorker]
    rw [hbest]
    split
    · exact ⟨rfl, hscores⟩
    · exact ⟨rfl, hscores⟩

/-! ## The reservation -/

theorem accountFlow (h : Akin .full s t) (spec : RequestSpec) (cost : ℚ) :
    Akin .full { s with ready := s.ready.accountFlow spec cost } { t with ready := t.ready.accountFlow spec cost } :=
  { h with
    virtualTime := by simp only [Ready.accountFlow, h.flow, h.virtualTime]
    flows := by simp only [Ready.accountFlow, h.flow, h.flows] }

theorem reserveMember (h : Akin .full s t) (w : WorkerId) (bid : BatchId) (now : ClockTime) (id : RequestId) :
    Akin .full (s.reserveMember w bid now id) (t.reserveMember w bid now id) := by
  rw [Impl.reserveMember, Impl.reserveMember, h.find]
  cases t.requests.find id with
  | none => exact h
  | some m =>
    have htaken := ((h.dequeueRequest (.refl _ m)).accountFlow m.spec (max 1 m.spec.demand.costUnits)).put
      (.refl _ (m.reserve bid now))
    exact htaken.emitEvent _ _ _ _ _ _

theorem foldl_reserveMember (h : Akin .full s t) (w : WorkerId) (bid : BatchId) (now : ClockTime)
    (ids : List RequestId) :
    Akin .full (ids.foldl (Impl.reserveMember w bid now) s) (ids.foldl (Impl.reserveMember w bid now) t) := by
  induction ids generalizing s t with
  | nil => exact h
  | cons id ids ih => exact ih (h.reserveMember w bid now id)

theorem reservePool (h : Akin .full s t) (w : WorkerId) (bid : BatchId) (units : ℤ) (members : List RequestId) :
    Akin .full { s with pool := s.pool.reserve w bid units members }
      { t with pool := t.pool.reserve w bid units members } := by
  have hfind := h.workers w
  refine { h with reservedUnits := ?_, runningUnits := ?_, workers := ?_ }
  · simp only [Pool.reserve, hfind]
    split
    · exact h.reservedUnits
    · exact congrArg (· + units) h.reservedUnits
  · simp only [Pool.reserve, hfind]
    split
    · exact h.runningUnits
    · exact h.runningUnits
  · intro id
    simp only [Pool.reserve, hfind]
    split
    · exact h.workers id
    · simp only [Keyed.find_put, h.workers]

theorem reserveBatch (h : Akin .full s t) (wr : WorkerRecord) (members : List RequestId) (now : ClockTime) :
    Akin .full (s.reserveBatch wr members now).1 (t.reserveBatch wr members now).1 ∧
      (s.reserveBatch wr members now).2 = (t.reserveBatch wr members now).2 := by
  have hunits : s.batchUnits members = t.batchUnits members := by rw [Impl.batchUnits_congr (funext h.specOf)]
  have hids : s.idFactory.peek (t := .batch) = t.idFactory.peek := by rw [h.idFactory]
  have hpool := h.drawId.reservePool wr.id t.idFactory.peek (t.batchUnits members) members
  rw [Impl.reserveBatch, Impl.reserveBatch, hunits, hids]
  refine ⟨?_, rfl⟩
  exact (hpool.foldl_reserveMember wr.id t.idFactory.peek now members).onStats fun st =>
    { st with
      dispatches := st.dispatches + 1
      batchesFormed := if members.length > 1 then st.batchesFormed + 1 else st.batchesFormed
      batchMembers := st.batchMembers + members.length }

end Akin

/-! ## The plan -/

/-- The same outcome, up to the order in which the candidates are listed. -/
structure SameOutcome (a b : DispatchOutcome) : Prop where
  candidates : a.candidates.Perm b.candidates
  rest : { a with candidates := b.candidates } = b

/-- The same answer of a planning call, up to the order of the candidates. -/
inductive SamePlan : Result DispatchOutcome → Result DispatchOutcome → Prop
  | ok {a b : DispatchOutcome} (h : SameOutcome a b) : SamePlan (.ok a) (.ok b)
  | error (e : Error) : SamePlan (.error e) (.error e)

theorem SameOutcome.refl (a : DispatchOutcome) : SameOutcome a a := ⟨.refl _, rfl⟩

namespace Akin

variable {s t : Impl}

theorem planRunnable (h : Akin .full s t) (rec : RequestRecord) (now : ClockTime) (explain : Bool) :
    Akin .full (s.planRunnable rec now explain).1 (t.planRunnable rec now explain).1 ∧
      SameOutcome (s.planRunnable rec now explain).2 (t.planRunnable rec now explain).2 := by
  have hmembers := h.planMembers rec.requestId now
  have hspec : s.specOf = t.specOf := funext h.specOf
  obtain ⟨hchosen, hcandidates⟩ := h.selectWorker (t.planMembers rec.requestId now)
    (t.batchCost (t.planMembers rec.requestId now)) now
  rw [Impl.planRunnable, Impl.planRunnable, hmembers, Impl.batchUnits_congr hspec, Impl.batchCost_congr hspec, hchosen,
    h.workers]
  split
  · exact ⟨h, hcandidates, rfl⟩
  · split
    · exact ⟨h, hcandidates, rfl⟩
    · next wr _ =>
      split
      · exact ⟨h, hcandidates, rfl⟩
      · obtain ⟨hstate, hbatch⟩ := h.reserveBatch wr (t.planMembers rec.requestId now) now
        refine ⟨hstate, hcandidates, ?_⟩
        dsimp only
        rw [hbatch]

theorem doPlanDispatch (h : Akin .full s t) (request : RequestId) (explain : Bool) :
    Akin .full (s.doPlanDispatch request explain).1 (t.doPlanDispatch request explain).1 ∧
      SamePlan (s.doPlanDispatch request explain).2 (t.doPlanDispatch request explain).2 := by
  have hscan := h.expireScan t.now
  rw [Impl.doPlanDispatch, Impl.doPlanDispatch, h.now, hscan.find]
  split
  · exact ⟨hscan, .error _⟩
  · next rec _ =>
    split
    · exact ⟨hscan.expireRequest (.refl _ rec), .ok (.refl _)⟩
    · split
      · exact ⟨hscan, .ok (.refl _)⟩
      · obtain ⟨hstate, hout⟩ := hscan.planRunnable rec t.now explain
        exact ⟨hstate, .ok hout⟩

theorem doPlanNext (h : Akin .full s t) (explain : Bool) :
    Akin .full (s.doPlanNext explain).1 (t.doPlanNext explain).1 ∧
      SamePlan (s.doPlanNext explain).2 (t.doPlanNext explain).2 := by
  obtain ⟨hstate, hseed⟩ := (h.expireScan t.now).pickSeed t.now
  rw [Impl.doPlanNext, Impl.doPlanNext, Impl.planNextSeed, Impl.planNextSeed, h.now, hseed]
  split
  · exact ⟨hstate, .ok (.refl _)⟩
  · next id _ => exact hstate.doPlanDispatch id explain

end Akin

/-- **Planning does not see an iteration order.** Two states that hold the same
requests, workers, waiting set and compatibility buckets, in whatever orders
their tables list them, give one decision, worker, batch and reason, and end in
states that again differ in those orders and the event log only. -/
theorem plan_order_free {s t : Impl} (h : Akin .full s t) (explain : Bool) :
    (∀ request, SamePlan (s.doPlanDispatch request explain).2 (t.doPlanDispatch request explain).2 ∧
      Akin .full (s.doPlanDispatch request explain).1 (t.doPlanDispatch request explain).1) ∧
    SamePlan (s.doPlanNext explain).2 (t.doPlanNext explain).2 ∧
      Akin .full (s.doPlanNext explain).1 (t.doPlanNext explain).1 :=
  ⟨fun request => (h.doPlanDispatch request explain).symm, (h.doPlanNext explain).symm⟩

/-- Two workers listed in one order or the other, with a request waiting: the
plan is the same. -/
theorem plan_order_free_two_workers :
    let registered (l : List Op) := scheduler.run (Impl.init {} 0 0x80000001 none) l
    let s := registered
      [.registerWorker (plainWorker 1), .registerWorker (plainWorker 2), .submit plainSpec (some ⟨7⟩)]
    let workers := (registered [.registerWorker (plainWorker 2), .registerWorker (plainWorker 1)]).pool.workers
    let t : Impl := { s with pool := { s.pool with workers := workers } }
    s.pool.workers.records.map (·.id) ≠ t.pool.workers.records.map (·.id) ∧
      SamePlan (s.doPlanNext false).2 (t.doPlanNext false).2 := by
  intro registered s workers t
  have hworkers : s.pool.workers.records.Perm workers.records := List.Perm.swap _ _ _
  have hakin : Akin .full s t := { Akin.refl .full s with workers := Keyed.find_of_perm hworkers }
  exact ⟨by decide +kernel, (plan_order_free hakin false).2.1⟩

end InferenceScheduler
