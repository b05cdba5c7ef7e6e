/-
What an operation emits (`src/scheduler.cpp`, `emit_event`): events with
consecutive sequence numbers, appended to a log that keeps the last 65536. A
recovery emits nothing.
-/
import InferenceScheduler.Lib.Mailbox
import InferenceScheduler.Simulation
import InferenceScheduler.Tenancy

namespace InferenceScheduler

/-- The events `es` are emitted: what the log and the last number were, and
what they are. -/
structure Emitted (es : List SchedulerEvent) (log : List SchedulerEvent) (seq : ℕ) (log' : List SchedulerEvent)
    (seq' : ℕ) : Prop where
  count : seq' = seq + es.length
  numbers : es.map (·.sequence) = List.range' (seq + 1) es.length
  log : log' = es.foldl (fun l e => (l ++ [e]).trim 65536) log

namespace Emitted

theorem refl (log : List SchedulerEvent) (seq : ℕ) : Emitted [] log seq log seq := ⟨rfl, rfl, rfl⟩

theorem append {es es' log log' log'' : List SchedulerEvent} {seq seq' seq'' : ℕ} (h : Emitted es log seq log' seq')
    (h' : Emitted es' log' seq' log'' seq'') : Emitted (es ++ es') log seq log'' seq'' := by
  refine ⟨?_, ?_, ?_⟩
  · rw [h'.count, h.count, List.length_append, add_assoc]
  · rw [List.map_append, h.numbers, h'.numbers, h.count, List.length_append, add_right_comm, List.range'_append_1]
  · rw [h'.log, h.log, List.foldl_append]

end Emitted

/-- The events as they are logged when they are told one after the other. -/
def Account.events : Account → List Note → List SchedulerEvent
  | _, [] => []
  | a, n :: notes => a.event n :: (a.tell n).events notes

theorem Account.tell_emitted (a : Account) (n : Note) : Emitted [a.event n] a.log a.seq (a.tell n).log (a.tell n).seq :=
  ⟨rfl, rfl, rfl⟩

theorem Account.foldl_tell_emitted (notes : List Note) (a : Account) :
    Emitted (a.events notes) a.log a.seq (notes.foldl tell a).log (notes.foldl tell a).seq := by
  induction notes generalizing a with
  | nil => exact .refl _ _
  | cons n notes ih => exact (a.tell_emitted n).append (ih (a.tell n))

/-- The events of an effect. -/
def Account.said (a : Account) : Deed → List SchedulerEvent
  | .post e notes => (a.withBook (a.book.act e) (e.house a.homes)).events notes
  | .drain n => [a.event n]
  | .roll n => [{ a with epoch := a.epoch + 1 }.event n]

theorem Account.act_emitted (a : Account) (f : Deed) :
    Emitted (a.said f) a.log a.seq (a.act f).log (a.act f).seq := by
  cases f with
  | post e notes => exact foldl_tell_emitted notes (a.withBook (a.book.act e) (e.house a.homes))
  | drain n | roll n => exact ⟨rfl, rfl, rfl⟩

namespace Impl

/-- From `s` to `s'` some events are emitted. -/
def Emits (s s' : Impl) : Prop := ∃ es, Emitted es s.eventLog s.eventSeq s'.eventLog s'.eventSeq

/-- **Every operation emits**: consecutive numbers, onto the bounded log. -/
theorem step_emits (s : Impl) (op : Op) : Emits s (scheduler.next s op) := by
  refine (step_effects s op).invariant (I := fun a => ∃ es, Emitted es s.eventLog s.eventSeq a.log a.seq)
    (fun a f _ h => ?_) ⟨[], .refl _ _⟩
  obtain ⟨es, h⟩ := h
  exact ⟨es ++ a.said f, h.append (a.act_emitted f)⟩

theorem rebuildReady_voice (s : Impl) :
    s.rebuildReady.eventLog = s.eventLog ∧ s.rebuildReady.eventSeq = s.eventSeq := by
  have hfold : ∀ (recs : List RequestRecord) (s : Impl), (recs.foldl enqueueLocked s).eventLog = s.eventLog ∧
      (recs.foldl enqueueLocked s).eventSeq = s.eventSeq := by
    intro recs
    induction recs with
    | nil => exact fun _ => ⟨rfl, rfl⟩
    | cons rec recs ih => exact fun s => ih (s.enqueueLocked rec)
  exact hfold _ _

/-- A recovery emits nothing. -/
theorem doRecover_voice (s : Impl) (file : Option Binary.Bytes) :
    (s.doRecover file).1.eventLog = s.eventLog ∧ (s.doRecover file).1.eventSeq = s.eventSeq := by
  rcases s.doRecover_cases file with ⟨mode, heq⟩ | ⟨payload, img, _, _, ⟨heq, _⟩ | heq⟩
  · rw [heq]
    exact ⟨rfl, rfl⟩
  · rw [heq]
    exact ⟨rfl, rfl⟩
  · rw [heq]
    exact rebuildReady_voice _

theorem serve_emits (s : Impl) (op : ServiceOp) : Emits s (recoverable.next s op) := by
  cases op with
  | op op => exact s.step_emits op
  | recover file =>
    obtain ⟨hlog, hseq⟩ := s.doRecover_voice file
    exact ⟨[], hseq, rfl, hlog⟩

end Impl

end InferenceScheduler
