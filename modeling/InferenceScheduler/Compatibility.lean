/-
Which requests share a batch. A bucket of `compat_` holds stored requests of
one compatibility key (`Bucketed`), so the members of a batch have the key of
its seed. The key tells requests apart by model, revision, adapter, latency
class and phase, up to one pair: it writes adapter 0 for "no adapter".
-/
import InferenceScheduler.Lapse
import InferenceScheduler.Image

namespace InferenceScheduler

open Machine

/-! ## Buckets hold requests of their key -/

/-- Every bucket holds stored requests of its key. -/
def Bucketed (c : Core) : Prop :=
  ∀ k r, r ∈ c.ready.bucket k → ∃ rec, c.requests.find r = some rec ∧ compatKey c.cfg rec.spec = k

theorem Core.act_spec {c : Core} {m : Move} {r : RequestId} {rec : RequestRecord} (hen : Enabled c m)
    (hf : c.requests.find r = some rec) : ∃ rec', (c.act m).requests.find r = some rec' ∧ rec'.spec = rec.spec := by
  obtain ⟨rec', hf', hrec⟩ := Core.act_find hen hf
  refine ⟨rec', hf', ?_⟩
  rcases hrec with rfl | hw
  · rfl
  · exact hw.spec

theorem Core.bucket_foldl_reserveMember (bid : BatchId) (ids : List RequestId) (c : Core) {k : CompatKey}
    {r : RequestId} (h : r ∈ (ids.foldl (Core.reserveMember bid) c).ready.bucket k) : r ∈ c.ready.bucket k := by
  induction ids generalizing c with
  | nil => exact h
  | cons id ids ih =>
    have hstep := ih (c.reserveMember bid id) h
    unfold Core.reserveMember at hstep
    split at hstep
    · exact hstep
    · next m _ => exact ((c.ready.mem_bucket_dequeue c.cfg m k r).1 hstep).1

/-- A reservation only takes requests out of the buckets. -/
theorem Core.bucket_act_reserve (c : Core) (wr : WorkerRecord) (members : List RequestId) {k : CompatKey}
    {r : RequestId} (h : r ∈ (c.act (.reserve wr members)).ready.bucket k) : r ∈ c.ready.bucket k :=
  Core.bucket_foldl_reserveMember c.ids.peek members { c with ids := c.ids.tick, pool := _ } h

namespace Bucketed

variable {c : Core}

/-- Buckets that only lose requests, over records that keep their specs. -/
theorem shrink {c' : Core} (h : Bucketed c) (hcfg : c'.cfg = c.cfg)
    (hspec : ∀ r rec, c.requests.find r = some rec → ∃ rec', c'.requests.find r = some rec' ∧ rec'.spec = rec.spec)
    (hsub : ∀ k r, r ∈ c'.ready.bucket k → r ∈ c.ready.bucket k) : Bucketed c' := by
  intro k r hr
  obtain ⟨rec, hf, hk⟩ := h k r (hsub k r hr)
  obtain ⟨rec', hf', hs⟩ := hspec r rec hf
  exact ⟨rec', hf', by rw [hcfg, hs]; exact hk⟩

theorem enqueue (h : Bucketed c) (new : RequestRecord)
    (hspec : ∀ old, c.requests.find new.requestId = some old → old.spec = new.spec) : Bucketed (c.enqueue new) := by
  intro k r hr
  rcases (c.ready.mem_bucket_enqueue c.cfg c.now new k r).1 hr with ⟨hk, rfl⟩ | hr
  · exact ⟨_, Keyed.find_put_self c.requests { new with state := .queued, queuedAt := c.now }, hk.symm⟩
  · obtain ⟨rec, hf, hk⟩ := h k r hr
    obtain ⟨rec', hf', hs⟩ := Core.spec_put { new with state := .queued, queuedAt := c.now } hspec hf
    exact ⟨rec', hf', by rw [hs]; exact hk⟩

theorem act {m : Move} (h : Bucketed c) (hen : Enabled c m) : Bucketed (c.act m) := by
  have hspec : ∀ r rec, c.requests.find r = some rec →
      ∃ rec', (c.act m).requests.find r = some rec' ∧ rec'.spec = rec.spec := fun _ _ hf => Core.act_spec hen hf
  have hframe : ∀ ids pool, Bucketed { c with ids := ids, pool := pool } := fun _ _ => h
  cases m with
  | advance | draw | pop | sleep | sweep | setWorker | dropWorker => exact h
  | refuse | start | finish | flag => exact h.shrink rfl hspec fun _ _ hr => hr
  | accept spec rid =>
    refine (hframe c.ids.tick.tick c.pool).enqueue
      (Impl.admittedRecord spec rid c.ids.peek c.ids.tick.peek c.now) fun old hold => ?_
    exact absurd (hen.symm.trans hold) (by simp)
  | expire rec => exact h.shrink rfl hspec fun k r hr => ((c.ready.mem_bucket_dequeue c.cfg rec k r).1 hr).1
  | reserve wr members =>
    exact h.shrink (c.act_reserve_frame wr members).1 hspec fun _ _ hr => c.bucket_act_reserve wr members hr
  | cancel rec asked w reason =>
    exact h.shrink rfl hspec fun k r hr => ((c.ready.mem_bucket_dequeue c.cfg _ k r).1 hr).1
  | retry rec r =>
    refine (hframe c.ids.tick.tick (c.pool.releaseMember r.worker rec)).enqueue
      ((c.pool.released r.worker (rec.noteFailure r)).retry c.ids.peek c.ids.tick.peek c.now) fun old hold => ?_
    have hid := c.pool.released_requestId r.worker (rec.noteFailure r)
    obtain rfl : rec = old := Option.some.inj (hen.1.symm.trans (hid ▸ hold))
    exact (c.pool.released_spec r.worker (rec.noteFailure r)).symm

theorem post {b : Book} {s : Impl} {op : Op} {e : Entry} (h : Bucketed b.core) (he : Posted s op b e) :
    Bucketed (b.act e).core := by
  cases e with
  | move m =>
    rw [show (b.act (.move m)).core = b.core.act m from b.move_core m]
    exact h.act he.1.1
  | turnAway | dismiss | settle => exact h
  | again rec spec =>
    refine enqueue (c := { b.core with ids := b.core.ids.tick.tick }) h rec fun old hold => ?_
    obtain rfl : rec = old := Option.some.inj (he.2.1.symm.trans hold)
    rfl

theorem run (cfg : SchedulerConfig) (now : ClockTime) (salt : UInt64) (epoch : Option SchedulerEpoch) (ops : List Op) :
    Bucketed (scheduler.run (Impl.init cfg now salt epoch) ops).core := by
  have hok : scheduler.Allowed (fun _ _ => True) (Impl.init cfg now salt epoch) ops :=
    allowed_of_forall fun _ _ _ => trivial
  refine books_invariant (I := fun b => Bucketed b.core) (fun _ _ _ _ _ he h => h.post he) ?_ hok
  intro k r hr
  exact absurd hr (USet.notMem_empty r)

end Bucketed

/-! ## What the key tells apart -/

/-- Two requests that may share a batch. -/
structure Shareable (cfg : SchedulerConfig) (a b : RequestSpec) : Prop where
  model : a.model = b.model
  revision : a.revision = b.revision
  adapter : a.adapter.valid = false ∧ b.adapter.valid = false ∨
    a.adapter.valid = true ∧ b.adapter.valid = true ∧ a.adapter = b.adapter
  latencyClass : a.latencyClass = b.latencyClass
  phase : cfg.batch.allowPhaseMix = false → a.phase = b.phase

/-- Two requests that agree in everything but the adapter, which for one is
adapter 0 and for the other none. -/
structure Confusable (cfg : SchedulerConfig) (a b : RequestSpec) : Prop where
  model : a.model = b.model
  revision : a.revision = b.revision
  zero : a.adapter.value = 0
  none : b.adapter.valid = false
  latencyClass : a.latencyClass = b.latencyClass
  phase : cfg.batch.allowPhaseMix = false → a.phase = b.phase

/-- The key separates requests that may not share a batch, adapter 0 and no
adapter apart. -/
theorem shareable_of_compatKey {cfg : SchedulerConfig} {a b : RequestSpec} (h : compatKey cfg a = compatKey cfg b)
    (hab : ¬Confusable cfg a b) (hba : ¬Confusable cfg b a) : Shareable cfg a b := by
  simp only [compatKey, CompatKey.mk.injEq] at h
  obtain ⟨hmodel, hrevision, hadapter, hphase, hlatency⟩ := h
  have hmodel : a.model = b.model := Id.ext_value hmodel
  have hrevision : a.revision = b.revision := Id.ext_value hrevision
  have hlatency : a.latencyClass = b.latencyClass :=
    Function.LeftInverse.injective LatencyClass.ofInt_latencyInt hlatency
  have hphase : cfg.batch.allowPhaseMix = false → a.phase = b.phase := by
    intro hmix
    rw [hmix] at hphase
    exact Function.LeftInverse.injective RequestPhase.ofInt_phaseInt hphase
  refine ⟨hmodel, hrevision, ?_, hlatency, hphase⟩
  cases ha : a.adapter.valid <;> cases hb : b.adapter.valid
  · exact .inl ⟨rfl, rfl⟩
  · rw [ha, hb] at hadapter
    exact absurd ⟨hmodel.symm, hrevision.symm, hadapter.symm, ha, hlatency.symm, fun h => (hphase h).symm⟩ hba
  · rw [ha, hb] at hadapter
    exact absurd ⟨hmodel, hrevision, hadapter, hb, hlatency, hphase⟩ hab
  · rw [ha, hb] at hadapter
    exact .inr ⟨rfl, rfl, Id.ext_value hadapter⟩

end InferenceScheduler
