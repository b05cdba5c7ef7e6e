/-
What a dispatch is answered with. A worker's slot has one result cell and one
flag for all handlers: a handler resets the flag before it sends its run
message, the slot's thread fills the cell for every `completed` message, and a
waiting handler takes what it finds.

While a slot serves one dispatch at a time, its handler finds the result of its
own batch; two at a time can be answered with the same one.
-/
import InferenceScheduler.Coordinator

namespace InferenceScheduler

open Machine

/-! ## What is under way on a slot -/

def WorkerThread.batches : WorkerThread → List BatchId
  | .receive | .stopped => []
  | .confirm m _ _ => [m.batchId]
  | .complete _ _ _ done => [done.batchId]

def WorkerMessage.batches : WorkerMessage → List BatchId
  | .completed m => [m.batchId]
  | .shutdown | .null | .other => []

/-- The batches sent to the worker whose results are not in the slot yet, the
one that comes next first. -/
def WorkerSlot.underWay (slot : WorkerSlot) : List BatchId :=
  slot.thread.batches ++ slot.inbox.flatMap WorkerMessage.batches ++ slot.unanswered.map RunMessage.batchId

/-- The slot a handler has reset and not read yet. -/
def Handler.uses (j : ℕ) : Handler → Bool
  | .reading _ k _ _ _ | .waiting _ k => k == j
  | .planned _ | .found _ _ | .finished => false

/-- The slot a handler knows. -/
def Handler.slot? : Handler → Option ℕ
  | .found _ j | .reading _ j _ _ _ | .waiting _ j => some j
  | .planned _ | .finished => none

/-- What a handler finds in the slot it uses. -/
def Handler.Finds (slot : WorkerSlot) : Handler → Prop
  | .reading _ _ _ _ _ => slot.underWay = [] ∧ slot.hasResult = false
  | .waiting out _ => slot.underWay = [out.batchId] ∧ slot.hasResult = false ∨
      slot.underWay = [] ∧ ∃ done, slot.result = some done ∧ done.batchId = out.batchId
  | .planned _ | .found _ _ | .finished => True

/-! ## Admissible steps -/

/-- What `worker_app` sends: for the run messages in the order in which they
came, one `completed` message each, under the batch id of the run message. -/
def Echoes (c : Coordinator) : CoordOp → Prop
  | .arrive j answers (.completed m) =>
    answers = some 0 ∧ ((c.workers[j]?.map (·.unanswered)).getD []).head?.map (·.batchId) = some m.batchId
  | .arrive _ answers _ => answers = none
  | _ => True

/-- The slot a handler resets with its next step. -/
def Handler.resets : Handler → Option ℕ
  | .found _ j => some j
  | _ => none

/-- A handler resets a slot while no handler uses it. -/
def Alone (c : Coordinator) : CoordOp → Prop
  | .handler i => ∀ j ∈ c.handlers[i]?.bind Handler.resets, ∀ h ∈ c.handlers, h.uses j = false
  | _ => True

instance (c : Coordinator) : (op : CoordOp) → Decidable (Echoes c op)
  | .arrive _ _ (.completed _) => inferInstanceAs (Decidable (_ ∧ _))
  | .arrive _ _ .shutdown | .arrive _ _ .null | .arrive _ _ .other => inferInstanceAs (Decidable (_ = _))
  | .register _ | .enter | .submit _ | .cancel _ | .complete _ | .rollEpoch | .dispatch _ _ | .handler _ | .thread _
  | .advance _ => .isTrue trivial

instance (c : Coordinator) : (op : CoordOp) → Decidable (Alone c op)
  | .handler i => inferInstanceAs (Decidable (∀ j ∈ c.handlers[i]?.bind Handler.resets, ∀ h ∈ c.handlers, _))
  | .register _ | .enter | .submit _ | .cancel _ | .complete _ | .rollEpoch | .dispatch _ _ | .thread _
  | .arrive _ _ _ | .advance _ => .isTrue trivial

/-! ## The invariant -/

/-- No handler uses a slot. -/
def Coordinator.Unused (c : Coordinator) (j : ℕ) : Prop :=
  ∀ (i : ℕ) (h : Handler), c.handlers[i]? = some h → h.uses j = false

/-- Each slot serves one handler at a time. -/
structure Served (c : Coordinator) : Prop where
  alone : ∀ (i i' : ℕ) (h h' : Handler) (j : ℕ), c.handlers[i]? = some h → c.handlers[i']? = some h' → h.uses j = true →
    h'.uses j = true → i = i'
  free : ∀ (j : ℕ) (slot : WorkerSlot), c.workers[j]? = some slot → c.Unused j → slot.underWay = []
  finds : ∀ (i : ℕ) (h : Handler) (j : ℕ) (slot : WorkerSlot), c.handlers[i]? = some h → h.uses j = true →
    c.workers[j]? = some slot → h.Finds slot
  placed : ∀ (i : ℕ) (h : Handler) (j : ℕ), c.handlers[i]? = some h → h.slot? = some j → j < c.workers.length
  known : ∀ w j, c.byWorker.lookup w = some j → j < c.workers.length
  joining : ∀ slot, c.joining = some slot → slot.underWay = []

theorem Handler.slot?_of_uses {h : Handler} {j : ℕ} (hu : h.uses j = true) : h.slot? = some j := by
  cases h with
  | reading | waiting => simpa [uses, slot?] using hu
  | planned | found | finished => cases hu

/-- Slots that are changed where no handler looks. -/
structure Alike (slot slot' : WorkerSlot) : Prop where
  underWay : slot'.underWay = slot.underWay
  hasResult : slot'.hasResult = slot.hasResult
  result : slot'.result = slot.result

theorem Handler.Finds.alike {h : Handler} {slot slot' : WorkerSlot} (hf : h.Finds slot) (ha : Alike slot slot') :
    h.Finds slot' := by
  obtain ⟨hu, hh, hr⟩ := ha
  cases h with
  | reading => exact ⟨hu.trans hf.1, hh.trans hf.2⟩
  | waiting => simpa only [Handler.Finds, hu, hh, hr] using hf
  | planned | found | finished => trivial

namespace Served

variable {c : Coordinator}

theorem onSlot {j : ℕ} {f : WorkerSlot → WorkerSlot} (h : Served c)
    (hf : ∀ slot, c.workers[j]? = some slot → Alike slot (f slot)) : Served (c.onSlot j f) := by
  -- Each slot is one from before, or alike.
  have hslot : ∀ (k : ℕ) slot', (c.onSlot j f).workers[k]? = some slot' →
      ∃ slot, c.workers[k]? = some slot ∧ Alike slot slot' := by
    intro k slot' hk
    rw [c.getElem?_onSlot] at hk
    split at hk
    · next hjk =>
      obtain ⟨slot, hs, rfl⟩ := Option.map_eq_some_iff.1 hk
      exact ⟨slot, hs, hf slot (hjk ▸ hs)⟩
    · exact ⟨slot', hk, rfl, rfl, rfl⟩
  refine ⟨h.alone, fun k slot' hk hfree => ?_, fun i g k slot' hi hu hk => ?_, ?_, ?_, h.joining⟩
  · obtain ⟨slot, hs, ha⟩ := hslot k slot' hk
    exact ha.underWay.trans (h.free k slot hs hfree)
  · obtain ⟨slot, hs, ha⟩ := hslot k slot' hk
    exact (h.finds i g k slot hi hu hs).alike ha
  · rw [c.length_onSlot]
    exact h.placed
  · rw [c.length_onSlot]
    exact h.known

/-- A handler goes on and uses what it used. -/
theorem setHandler {i : ℕ} {old new : Handler} (h : Served c) (hi : c.handlers[i]? = some old)
    (huses : ∀ j, new.uses j = old.uses j) (hfinds : ∀ slot, old.Finds slot → new.Finds slot)
    (hslot : ∀ j, new.slot? = some j → old.slot? = some j ∨ j < c.workers.length) : Served (c.setHandler i new) := by
  -- Each handler is one from before, or the one that went on.
  have hget : ∀ (k : ℕ) g, (c.setHandler i new).handlers[k]? = some g →
      ∃ g₀, c.handlers[k]? = some g₀ ∧ (∀ j, g.uses j = g₀.uses j) ∧ (∀ slot, g₀.Finds slot → g.Finds slot) ∧
        ∀ j, g.slot? = some j → g₀.slot? = some j ∨ j < c.workers.length := by
    intro k g hk
    rw [Coordinator.getElem?_setHandler hi] at hk
    split at hk
    · next hik =>
      subst hik
      cases hk
      exact ⟨old, hi, huses, hfinds, hslot⟩
    · exact ⟨g, hk, fun _ => rfl, fun _ hf => hf, fun _ => .inl⟩
  refine ⟨fun k k' g g' j hk hk' hg hg' => ?_, fun j slot hj hfree => ?_, fun k g j slot hk hg hj => ?_,
    fun k g j hk hg => ?_, h.known, h.joining⟩
  · obtain ⟨g₀, hk₀, hu, _⟩ := hget k g hk
    obtain ⟨g₀', hk₀', hu', _⟩ := hget k' g' hk'
    exact h.alone k k' g₀ g₀' j hk₀ hk₀' (hu j ▸ hg) (hu' j ▸ hg')
  · refine h.free j slot hj fun k g hk => ?_
    by_cases hik : i = k
    · subst hik
      obtain rfl : old = g := Option.some.inj (hi.symm.trans hk)
      rw [← huses]
      exact hfree i new (by rw [Coordinator.getElem?_setHandler hi, if_pos rfl])
    · exact hfree k g (by rw [Coordinator.getElem?_setHandler hi, if_neg hik, hk])
  · obtain ⟨g₀, hk₀, hu, hf, _⟩ := hget k g hk
    exact hf slot (h.finds k g₀ j slot hk₀ (hu j ▸ hg) hj)
  · obtain ⟨g₀, hk₀, _, _, hs⟩ := hget k g hk
    exact (hs j hg).elim (h.placed k g₀ j hk₀) id

/-- The one handler on a slot goes on, and the slot changes with it. -/
theorem exchange {i j : ℕ} {old new : Handler} {f : WorkerSlot → WorkerSlot} (h : Served c)
    (hi : c.handlers[i]? = some old) (hold : old.slot? = some j) (hnew : ∀ k, new.uses k = true → k = j)
    (hslot : ∀ k, new.slot? = some k → k = j)
    (hothers : ∀ k g, c.handlers[k]? = some g → k ≠ i → g.uses j = false)
    (hfinds : ∀ slot, c.workers[j]? = some slot → new.uses j = true → new.Finds (f slot))
    (hfree : ∀ slot, c.workers[j]? = some slot → new.uses j = false → (f slot).underWay = []) :
    Served ((c.onSlot j f).setHandler i new) := by
  have hi' : (c.onSlot j f).handlers[i]? = some old := hi
  have hget := Coordinator.getElem?_setHandler hi' new
  have hold' : ∀ k, old.uses k = true → k = j := fun k hu =>
    Option.some.inj ((Handler.slot?_of_uses hu).symm.trans hold)
  -- A handler on another slot is one from before.
  have hbefore : ∀ (k l : ℕ) g, ((c.onSlot j f).setHandler i new).handlers[k]? = some g → g.uses l = true →
      k = i ∧ l = j ∨ k ≠ i ∧ l ≠ j ∧ c.handlers[k]? = some g := by
    intro k l g hk hu
    rw [hget] at hk
    split at hk
    · next hik =>
      cases hk
      exact .inl ⟨hik.symm, hnew l hu⟩
    · next hik =>
      refine .inr ⟨Ne.symm hik, ?_, hk⟩
      rintro rfl
      rw [hothers k g hk (Ne.symm hik)] at hu
      cases hu
  have hlen : j < c.workers.length := h.placed i old j hi hold
  refine ⟨fun k k' g g' l hk hk' hu hu' => ?_, fun k slot' hk hunused => ?_, fun k g l slot' hk hu hl => ?_,
    fun k g l hk hl => ?_, ?_, h.joining⟩
  · rcases hbefore k l g hk hu with ⟨rfl, rfl⟩ | ⟨_, hne, hg⟩
    · rcases hbefore k' l g' hk' hu' with ⟨rfl, _⟩ | ⟨_, hne, _⟩
      · rfl
      · exact absurd rfl hne
    · rcases hbefore k' l g' hk' hu' with ⟨_, he⟩ | ⟨_, _, hg'⟩
      · exact absurd he hne
      · exact h.alone k k' g g' l hg hg' hu hu'
  · have hk' : (c.onSlot j f).workers[k]? = some slot' := hk
    rw [c.getElem?_onSlot] at hk'
    split at hk'
    · next hjk =>
      obtain ⟨slot, hs, rfl⟩ := Option.map_eq_some_iff.1 hk'
      subst hjk
      exact hfree slot hs (hunused i new (by rw [hget, if_pos rfl]))
    · next hjk =>
      refine h.free k slot' hk' fun l g hl => ?_
      by_cases hil : i = l
      · subst hil
        obtain rfl : old = g := Option.some.inj (hi.symm.trans hl)
        by_contra hu
        simp only [Bool.not_eq_false] at hu
        exact hjk (hold' k hu).symm
      · exact hunused l g (by rw [hget, if_neg hil]; exact hl)
  · have hl' : (c.onSlot j f).workers[l]? = some slot' := hl
    rw [c.getElem?_onSlot] at hl'
    rcases hbefore k l g hk hu with ⟨rfl, rfl⟩ | ⟨_, hne, hg⟩
    · rw [if_pos rfl] at hl'
      obtain ⟨slot, hs, rfl⟩ := Option.map_eq_some_iff.1 hl'
      rw [hget, if_pos rfl] at hk
      cases hk
      exact hfinds slot hs hu
    · rw [if_neg (Ne.symm hne)] at hl'
      exact h.finds k g l slot' hg hu hl'
  · show l < (c.onSlot j f).workers.length
    rw [c.length_onSlot]
    rw [hget] at hk
    split at hk
    · cases hk
      rw [hslot l hl]
      exact hlen
    · exact h.placed k g l hk hl
  · show ∀ w l, c.byWorker.lookup w = some l → l < (c.onSlot j f).workers.length
    rw [c.length_onSlot]
    exact h.known

/-- The other handlers of a slot in use. -/
theorem others {i j : ℕ} {old : Handler} (h : Served c) (hi : c.handlers[i]? = some old) (hu : old.uses j = true) :
    ∀ k g, c.handlers[k]? = some g → k ≠ i → g.uses j = false := by
  intro k g hk hne
  by_contra hg
  simp only [Bool.not_eq_false] at hg
  exact hne (h.alone k i g old j hk hi hg hu)

/-- A dispatch takes a slot no handler uses. -/
theorem reset {i j : ℕ} {out : DispatchOutcome} (h : Served c) (hi : c.handlers[i]? = some (.found out j))
    (hunused : c.Unused j) :
    Served ((c.onSlot j fun slot => { slot with hasResult := false }).setHandler i
      (.reading out j [] none out.batchMembers)) := by
  refine h.exchange hi rfl (fun k hu => ?_) (fun k hk => ?_) (fun k g hk _ => hunused k g hk) ?_ ?_
  · exact (beq_iff_eq.1 hu).symm
  · exact (Option.some.inj hk).symm
  · exact fun slot hs _ => ⟨h.free j slot hs hunused, rfl⟩
  · exact fun slot _ hu => absurd hu (by simp [Handler.uses])

/-- The run message is under way. -/
theorem send {i j : ℕ} {out : DispatchOutcome} {members : List RunMember} {half : Option RunMember} (h : Served c)
    (hi : c.handlers[i]? = some (.reading out j members half [])) :
    Served ((c.onSlot j fun slot => { slot with unanswered := slot.unanswered ++ [⟨out.batchId, members⟩] }).setHandler
      i (.waiting out j)) := by
  have hu : Handler.uses j (.reading out j members half []) = true := beq_self_eq_true j
  refine h.exchange hi rfl (fun k hu => ?_) (fun k hk => ?_) (h.others hi hu) (fun slot hs _ => ?_) ?_
  · exact (beq_iff_eq.1 hu).symm
  · exact (Option.some.inj hk).symm
  · obtain ⟨hnone, hres⟩ := h.finds i _ j slot hi hu hs
    refine .inl ⟨?_, hres⟩
    have happ : ({ slot with unanswered := slot.unanswered ++ [⟨out.batchId, members⟩] } : WorkerSlot).underWay =
        slot.underWay ++ [out.batchId] := by
      simp [WorkerSlot.underWay]
    rw [happ, hnone]
    rfl
  · exact fun slot _ hu => absurd hu (by simp [Handler.uses])

/-- The result is read, and the slot is free. -/
theorem answer {i j : ℕ} {out : DispatchOutcome} {slot : WorkerSlot} (h : Served c)
    (hi : c.handlers[i]? = some (.waiting out j)) (hj : c.workers[j]? = some slot) (hr : slot.hasResult = true) :
    Served (c.setHandler i .finished) := by
  have hu : Handler.uses j (.waiting out j) = true := beq_self_eq_true j
  have hfree : slot.underWay = [] := by
    rcases h.finds i _ j slot hi hu hj with ⟨_, hres⟩ | ⟨hnone, _⟩
    · rw [hr] at hres
      cases hres
    · exact hnone
  have hsame : c.setHandler i .finished = (c.onSlot j id).setHandler i .finished := by
    simp [Coordinator.onSlot, List.modify_id]
  rw [hsame]
  refine h.exchange hi rfl (by simp [Handler.uses]) (by simp [Handler.slot?]) (h.others hi hu)
    (fun _ _ hu => absurd hu (by simp [Handler.uses])) fun slot' hs _ => ?_
  obtain rfl : slot = slot' := Option.some.inj (hj.symm.trans hs)
  exact hfree

/-- The result of the one batch under way is in the slot. -/
theorem publish {j : ℕ} {slot : WorkerSlot} {m : Completed} {e : Option SchedulerEpoch} {done : DispatchDone}
    (h : Served c) (hj : c.workers[j]? = some slot) (ht : slot.thread = .complete m [] e done) :
    Served (c.onSlot j fun slot => { slot with result := some done, hasResult := true, thread := .receive }) := by
  have hway : slot.underWay = done.batchId ::
      ({ slot with result := some done, hasResult := true, thread := .receive } : WorkerSlot).underWay := by
    simp [WorkerSlot.underWay, WorkerThread.batches, ht]
  have hslot : ∀ (k : ℕ) slot', (c.onSlot j fun slot =>
      { slot with result := some done, hasResult := true, thread := .receive }).workers[k]? = some slot' →
      k = j ∧ slot' = { slot with result := some done, hasResult := true, thread := .receive } ∨
        c.workers[k]? = some slot' := by
    intro k slot' hk
    rw [c.getElem?_onSlot] at hk
    split at hk
    · next hjk =>
      subst hjk
      rw [hj] at hk
      exact .inl ⟨rfl, (Option.some.inj hk).symm⟩
    · exact .inr hk
  refine ⟨h.alone, fun k slot' hk hunused => ?_, fun i g k slot' hi hu hk => ?_, ?_, ?_, h.joining⟩
  · rcases hslot k slot' hk with ⟨rfl, rfl⟩ | hk
    · rw [h.free k slot hj hunused] at hway
      cases hway
    · exact h.free k slot' hk hunused
  · rcases hslot k slot' hk with ⟨rfl, rfl⟩ | hk
    · have hf := h.finds i g k slot hi hu hj
      cases g with
      | reading =>
        rw [hf.1] at hway
        cases hway
      | waiting out l =>
        rcases hf with ⟨hone, _⟩ | ⟨hnone, _⟩
        · rw [hone] at hway
          obtain ⟨hb, hrest⟩ := List.cons.inj hway
          exact .inr ⟨hrest.symm, done, rfl, hb.symm⟩
        · rw [hnone] at hway
          cases hway
      | planned | found | finished => cases hu
    · exact h.finds i g k slot' hi hu hk
  · rw [c.length_onSlot]
    exact h.placed
  · rw [c.length_onSlot]
    exact h.known

/-- A new slot has nothing under way, and no handler knows it. -/
theorem enter {slot : WorkerSlot} (h : Served c) (hj : c.joining = some slot) :
    Served
      { c with
        workers := c.workers ++ [slot]
        byWorker := c.byWorker.insert slot.worker c.workers.length
        joining := none } := by
  have hslot : ∀ (k : ℕ) slot', (c.workers ++ [slot])[k]? = some slot' →
      c.workers[k]? = some slot' ∨ k = c.workers.length ∧ slot' = slot := by
    intro k slot' hk
    rw [List.getElem?_append] at hk
    split at hk
    · exact .inl hk
    · have hk₀ : slot = slot' ∧ k - c.workers.length = 0 := by simpa [List.getElem?_singleton, and_comm] using hk
      exact .inr ⟨by omega, hk₀.1.symm⟩
  refine ⟨h.alone, fun k slot' hk hunused => ?_, fun i g k slot' hi hu hk => ?_, fun i g k hi hk => ?_,
    fun w k hk => ?_, by simp⟩
  · rcases hslot k slot' hk with hk | ⟨_, rfl⟩
    · exact h.free k slot' hk hunused
    · exact h.joining slot' hj
  · rcases hslot k slot' hk with hk | ⟨rfl, _⟩
    · exact h.finds i g k slot' hi hu hk
    · exact absurd (h.placed i g _ hi (Handler.slot?_of_uses hu)) (lt_irrefl _)
  · have := h.placed i g k hi hk
    simp only [List.length_append, List.length_singleton]
    omega
  · simp only [List.length_append, List.length_singleton]
    rw [Table.lookup_insert_eq] at hk
    split at hk
    · cases hk
      omega
    · have := h.known w k hk
      omega

/-- A plan adds a handler that knows no slot. -/
theorem plan {s : Impl} {out : DispatchOutcome} (h : Served c) :
    Served { c with sched := s, handlers := c.handlers ++ [.planned out] } := by
  have hget : ∀ (k : ℕ) g, (c.handlers ++ [.planned out])[k]? = some g →
      c.handlers[k]? = some g ∨ g = .planned out := by
    intro k g hk
    rw [List.getElem?_append] at hk
    split at hk
    · exact .inl hk
    · have hk₀ : Handler.planned out = g ∧ k - c.handlers.length = 0 := by
        simpa [List.getElem?_singleton, and_comm] using hk
      exact .inr hk₀.1.symm
  refine ⟨fun k k' g g' j hk hk' hu hu' => ?_, fun j slot hj hunused => ?_, fun k g j slot hk hu hj => ?_,
    fun k g j hk hg => ?_, h.known, h.joining⟩
  · rcases hget k g hk with hk | rfl
    · rcases hget k' g' hk' with hk' | rfl
      · exact h.alone k k' g g' j hk hk' hu hu'
      · cases hu'
    · cases hu
  · refine h.free j slot hj fun k g hk => hunused k g ?_
    have hlt := (List.getElem?_eq_some_iff.1 hk).1
    exact (List.getElem?_append_left hlt).trans hk
  · rcases hget k g hk with hk | rfl
    · exact h.finds k g j slot hk hu hj
    · trivial
  · rcases hget k g hk with hk | rfl
    · exact h.placed k g j hk hg
    · cases hg

end Served

/-- What arrives in answer to the first run message takes its place. -/
theorem alike_arrive {c : Coordinator} {j : ℕ} {answers : Option ℕ} {msg : WorkerMessage} {slot : WorkerSlot}
    (h : Echoes c (.arrive j answers msg)) (hj : c.workers[j]? = some slot) : Alike slot (slot.arrive answers msg) := by
  refine ⟨?_, rfl, rfl⟩
  cases msg with
  | completed m =>
    obtain ⟨rfl, hhead⟩ := h
    rw [hj] at hhead
    cases hun : slot.unanswered with
    | nil => simp [hun] at hhead
    | cons run rest =>
      have hb : run.batchId = m.batchId := by simpa [hun] using hhead
      simp [WorkerSlot.arrive, WorkerSlot.underWay, WorkerMessage.batches, hun, hb]
  | shutdown | null | other =>
    obtain rfl : answers = none := h
    simp [WorkerSlot.arrive, WorkerSlot.underWay, WorkerMessage.batches]

theorem Served.step {c : Coordinator} {op : CoordOp} (h : Served c) (hecho : Echoes c op) (halone : Alone c op) :
    Served (coordinator.next c op) := by
  have hstep := c.step_happens op
  show Served (c.step op).1
  generalize (c.step op).1 = c' at hstep ⊢
  generalize (c.step op).2 = eff at hstep
  -- A step of a thread that leaves what is under way as it is.
  have hthread : ∀ {j : ℕ} {slot : WorkerSlot} {t : WorkerThread} {s : Impl}, c.workers[j]? = some slot →
      t.batches = slot.thread.batches → Served ({ c with sched := s }.goto j t) := by
    intro j slot t s hj ht
    have hc : Served { c with sched := s } := ⟨h.alone, h.free, h.finds, h.placed, h.known, h.joining⟩
    refine hc.onSlot fun slot' hs => ⟨?_, rfl, rfl⟩
    obtain rfl : slot = slot' := Option.some.inj (hj.symm.trans hs)
    simp only [WorkerSlot.underWay, ht]
  cases hstep with
  | idle => exact h
  | register hj => exact ⟨h.alone, h.free, h.finds, h.placed, h.known, by rintro _ ⟨⟩; rfl⟩
  | enter hj => exact h.enter hj
  | submit | cancel | complete | rollEpoch | advance | turnDown =>
    exact ⟨h.alone, h.free, h.finds, h.placed, h.known, h.joining⟩
  | plan hout hd => exact h.plan
  | workerGone hi hw => exact h.setHandler hi (fun _ => rfl) (fun _ _ => trivial) (by simp [Handler.slot?])
  | find hi hw =>
    refine h.setHandler hi (fun _ => rfl) (fun _ _ => trivial) fun k hk => .inr ?_
    cases hk
    exact h.known _ _ hw
  | reset hi =>
    refine h.reset hi fun k g hk => ?_
    exact halone _ (by rw [hi]; rfl) g (List.mem_of_getElem? hk)
  | snapshot hi => exact h.setHandler hi (fun _ => rfl) (fun _ hf => hf) fun _ => .inl
  | spec hi => exact h.setHandler hi (fun _ => rfl) (fun _ hf => hf) fun _ => .inl
  | send hi => exact h.send hi
  | answer hi hj hr => exact h.answer hi hj hr
  | receive hj ht hin =>
    refine h.onSlot fun slot' hs => ⟨?_, rfl, rfl⟩
    obtain rfl := Option.some.inj (hj.symm.trans hs)
    simp [WorkerSlot.underWay, WorkerThread.batches, WorkerMessage.batches, ht, hin]
  | @skip _ _ msg _ _ hj ht hin hmsg hto =>
    refine h.onSlot fun slot' hs => ⟨?_, rfl, rfl⟩
    obtain rfl := Option.some.inj (hj.symm.trans hs)
    have hbatches : msg.batches = [] := by
      cases msg with
      | completed m => exact absurd rfl (hmsg m)
      | shutdown | null | other => rfl
    rcases hto with rfl | rfl <;> simp [WorkerSlot.underWay, WorkerThread.batches, ht, hin, hbatches]
  | turn hj ht => exact hthread hj (by rw [ht]; rfl)
  | stampStart hj ht => exact hthread hj (by rw [ht]; rfl)
  | confirm hj ht => exact hthread hj (by rw [ht]; rfl)
  | stampResult hj ht => exact hthread hj (by rw [ht]; rfl)
  | report hj ht => exact hthread hj (by rw [ht]; rfl)
  | publish hj ht => exact h.publish hj ht
  | arrive => exact h.onSlot fun slot hs => alike_arrive hecho hs

/-- A dispatch is answered with the result of its own batch. -/
def Effect.ownBatch : Effect → Bool
  | .answer out done => done.map (·.batchId) == some out.batchId
  | _ => true

theorem Served.ownBatch {c : Coordinator} {op : CoordOp} (h : Served c) : (c.step op).2.ownBatch = true := by
  have hstep := c.step_happens op
  generalize (c.step op).1 = c' at hstep
  generalize (c.step op).2 = eff at hstep ⊢
  cases hstep with
  | @answer i out j slot hi hj hr =>
    rcases h.finds i _ j slot hi (beq_self_eq_true j) hj with ⟨_, hres⟩ | ⟨_, done, hdone, hb⟩
    · rw [hr] at hres
      cases hres
    · simp [Effect.ownBatch, hdone, hb]
  | _ => rfl

/-- **Answers are not mixed up while a slot serves one dispatch at a time.** In
every run in which the workers answer as `worker_app` does and no slot is reset
between another handler's reset of it and that handler's read, each dispatch is
answered with the result of its own batch. -/
theorem answers_own_batch {s : Impl} {ops : List CoordOp}
    (hops : coordinator.Allowed (fun c op => Echoes c op ∧ Alone c op) { sched := s } ops) :
    ∀ e ∈ coordinator.trace { sched := s } ops, e.out.ownBatch = true := by
  intro e he
  obtain ⟨js, op, ks, rfl, rfl⟩ := exists_of_mem_trace he
  have hjs := (allowed_append.1 hops).1
  have hserved : Served (coordinator.run { sched := s } js) := by
    refine run_invariant (fun c op hop hc => hc.step hop.1 hop.2) ?_ hjs
    exact ⟨by simp, by simp, by simp, by simp, by simp, by simp⟩
  exact hserved.ownBatch

/-- Two dispatches to one worker, one after the other. -/
theorem answers_own_batch_in_turn :
    let ops : List (List CoordOp) := [
      [.register (plainRegister 3), .enter, .submit plainSpec, .dispatch ⟨0x8000000100000001⟩ false],
      List.replicate 5 (.handler 0),
      [.arrive 0 (some 0) (.completed ⟨⟨0x8000000100000004⟩, 8,
        [successOf 0x8000000100000001 0x8000000100000003 0x8000000100000002]⟩)],
      List.replicate 7 (.thread 0),
      [.handler 0, .submit plainSpec, .dispatch ⟨0x8000000100000005⟩ false],
      List.replicate 5 (.handler 1),
      [.arrive 0 (some 0) (.completed ⟨⟨0x8000000100000008⟩, 8,
        [successOf 0x8000000100000005 0x8000000100000007 0x8000000100000006]⟩)],
      List.replicate 7 (.thread 0),
      [.handler 1]]
    ∀ e ∈ coordinator.trace { sched := Impl.init {} 0 0x80000001 none } ops.flatten, e.out.ownBatch = true :=
  answers_own_batch (by decide +kernel)

/-- Two dispatches at once: both reset the slot and send their run messages,
and the second handler takes the result of the first batch. -/
theorem answers_mixed_up :
    let c : Coordinator := .start 0 0x80000001
    let ops : List (List CoordOp) := [
      [.register (plainRegister 3), .enter, .submit plainSpec, .dispatch ⟨0x8000000100000001⟩ false,
        .submit plainSpec, .dispatch ⟨0x8000000100000005⟩ false],
      List.replicate 5 (.handler 0),
      List.replicate 5 (.handler 1),
      [.arrive 0 (some 0) (.completed ⟨⟨0x8000000100000004⟩, 8,
        [successOf 0x8000000100000001 0x8000000100000003 0x8000000100000002]⟩)],
      List.replicate 7 (.thread 0),
      [.handler 1]]
    coordinator.Allowed Echoes c ops.flatten ∧ ∃ e ∈ coordinator.trace c ops.flatten, e.out.ownBatch = false := by
  decide +kernel

end InferenceScheduler
