import OmegaDrive.Persistence.Batching
import OmegaDrive.Persistence.Liveness

set_option autoImplicit false

namespace OmegaDrive

namespace BatchWorker

variable {V : Type} [FloatText V]

def decision (worker : BatchWorker V) : WorkerEvent V → List Bool
  | .send _ => []
  | .work commit _ => if worker.phase = .decide then [commit] else []

def decided (worker : BatchWorker V) (events : List (WorkerEvent V)) : List Bool :=
  Steps.outputs step decision worker events

def onRecord (worker : BatchWorker V) : List (PersistenceCommand V) :=
  worker.committed.flatMap Batch.entries

def taken (worker : BatchWorker V) : List (PersistenceCommand V) :=
  worker.onRecord ++ worker.batchBuffer

theorem tracked_step (file : Bytes) (worker : BatchWorker V) (event : WorkerEvent V)
    (tracked : Tracked file worker) : Tracked file (worker.step event) := by
  cases event with
  | send command => exact ⟨by simp [step, ← tracked.accounted], tracked.written⟩
  | work commit io => exact tracked_work file worker tracked commit io

theorem taken_step (worker : BatchWorker V) (event : WorkerEvent V) :
    worker.taken <+: (worker.step event).taken := by
  cases event with
  | send command => exact List.prefix_refl _
  | work commit io =>
    simp only [step, work, taken, onRecord]
    repeat' split
    all_goals simp

theorem onRecord_step (worker : BatchWorker V) (event : WorkerEvent V) :
    worker.onRecord <+: (worker.step event).onRecord := by
  cases event with
  | send command => exact List.prefix_refl _
  | work commit io =>
    simp only [step, work, onRecord]
    repeat' split
    all_goals simp

theorem onRecord_run (worker : BatchWorker V) (events : List (WorkerEvent V)) :
    worker.onRecord <+: (Steps.run step worker events).onRecord := by
  induction events generalizing worker with
  | nil => exact List.prefix_refl _
  | cons event events ih => exact (worker.onRecord_step event).trans (ih _)

/-- A decision is only taken on commands that the batch has collected. -/
def Collected (commands : List (PersistenceCommand V)) (worker : BatchWorker V) : Prop :=
  commands <+: worker.sent ∧ (worker.phase = .decide → commands <+: worker.taken)

-- A batch on its way to the file is there by the next decision.
def Committing (commands : List (PersistenceCommand V)) (worker : BatchWorker V) : Prop :=
  commands <+: worker.taken ∧
    (worker.phase = .drain ∨ worker.phase = .decide → commands <+: worker.onRecord)

theorem collected_step (file : Bytes) (commands : List (PersistenceCommand V))
    (worker : BatchWorker V) (event : WorkerEvent V) (tracked : Tracked file worker)
    (collected : Collected commands worker) : Collected commands (worker.step event) := by
  refine ⟨collected.1.trans ?_, fun decides => ?_⟩
  · rw [sent_step]
    exact List.prefix_append _ _
  · by_cases already : worker.phase = .decide
    · exact (collected.2 already).trans (worker.taken_step event)
    · -- Only a drained queue leads to a decision.
      cases event with
      | send command => exact absurd decides already
      | work commit io =>
        have all := tracked.accounted
        simp only [step, work] at decides ⊢
        cases phase : worker.phase with
        | drain =>
          simp only [phase] at decides ⊢
          cases queue : worker.queue with
          | nil =>
            rw [queue, List.append_nil] at all
            simp only [queue] at decides ⊢
            split
            next empty => simp [empty, phase] at decides
            next => exact collected.1.trans (by rw [taken, onRecord, all])
          | cons command queue =>
            simp [queue] at decides
        | decide => exact absurd phase already
        | write => cases io <;> simp [phase] at decides
        | sync => cases io <;> simp [phase] at decides
        | clear => simp [phase] at decides

theorem committing_step (commands : List (PersistenceCommand V)) (worker : BatchWorker V)
    (event : WorkerEvent V) (committing : Committing commands worker) :
    Committing commands (worker.step event) := by
  refine ⟨committing.1.trans (worker.taken_step event), fun back => ?_⟩
  by_cases already : worker.phase = .drain ∨ worker.phase = .decide
  · exact (committing.2 already).trans (worker.onRecord_step event)
  · cases event with
    | send command => exact absurd back already
    | work commit io =>
      simp only [step, work] at back ⊢
      cases phase : worker.phase with
      | drain => exact absurd (.inl phase) already
      | decide => exact absurd (.inr phase) already
      | write => cases io <;> simp [phase] at back
      | sync => cases io <;> simp [phase] at back
      | clear =>
        have batch := committing.1
        simpa [onRecord, taken] using batch

omit [FloatText V] in
theorem decision_eq (worker : BatchWorker V) (event : WorkerEvent V) :
    worker.decision event = [] ∨ worker.phase = .decide ∧
      ∃ commit io, event = .work commit io ∧ worker.decision event = [commit] := by
  cases event with
  | send command => exact .inl rfl
  | work commit io =>
    by_cases decides : worker.phase = .decide
    · exact .inr ⟨decides, commit, io, rfl, if_pos decides⟩
    · exact .inl (if_neg decides)

theorem committing_run (commands : List (PersistenceCommand V)) (worker : BatchWorker V)
    (events : List (WorkerEvent V)) (committing : Committing commands worker)
    (again : worker.decided events ≠ []) :
    commands <+: (Steps.run step worker events).onRecord := by
  induction events generalizing worker with
  | nil => exact absurd rfl again
  | cons event events ih =>
    obtain none | ⟨decides, -⟩ := worker.decision_eq event
    · rw [decided, Steps.outputs, none] at again
      exact ih _ (committing_step commands worker event committing) again
    · exact (committing.2 (.inr decides)).trans (worker.onRecord_run (event :: events))

theorem commit_recorded (file : Bytes) (commands : List (PersistenceCommand V))
    (worker : BatchWorker V) (events : List (WorkerEvent V)) (tracked : Tracked file worker)
    (collected : Collected commands worker) (commits : true ∈ (worker.decided events).dropLast) :
    commands <+: (Steps.run step worker events).onRecord := by
  induction events generalizing worker with
  | nil => simp [decided, Steps.outputs] at commits
  | cons event events ih =>
    have later := ih (worker.step event) (tracked_step file worker event tracked)
      (collected_step file commands worker event tracked collected)
    rw [decided, Steps.outputs, ← decided] at commits
    obtain none | ⟨decides, commit, io, rfl, one⟩ := worker.decision_eq event
    · rw [none] at commits
      exact later commits
    · have again : decided (worker.step (.work commit io)) events ≠ [] := by
        intro last
        simp [one, last] at commits
      rw [one, List.singleton_append, List.dropLast_cons_of_ne_nil again, List.mem_cons] at commits
      obtain rfl | waits := commits
      · apply committing_run commands _ events _ again
        refine ⟨(collected.2 decides).trans (worker.taken_step _), ?_⟩
        simp [step, work, decides]
      · exact later waits

theorem occupied_step (worker : BatchWorker V) (event : WorkerEvent V)
    (occupied : worker.phase ≠ .drain → worker.batchBuffer ≠ []) :
    (worker.step event).phase ≠ .drain → (worker.step event).batchBuffer ≠ [] := by
  cases event with
  | send command => exact occupied
  | work commit io =>
    intro busy
    cases phase : worker.phase with
    | drain =>
      cases queue : worker.queue with
      | nil =>
        by_cases empty : worker.batchBuffer.isEmpty
        · simp [step, work, phase, queue, empty] at busy
        · simp only [step, work, phase, queue, if_neg empty]
          exact fun none => empty (List.isEmpty_iff.mpr none)
      | cons command queue' => simp [step, work, phase, queue]
    | decide => cases commit <;> simpa [step, work, phase] using occupied (by simp [phase])
    | write => cases io <;> simpa [step, work, phase] using occupied (by simp [phase])
    | sync => cases io <;> simpa [step, work, phase] using occupied (by simp [phase])
    | clear => simp [step, work, phase] at busy

theorem written_prefix (file : Bytes) (worker : BatchWorker V) (tracked : Tracked file worker) :
    ∃ onFile, commitBatches file worker.committed = some onFile ∧ onFile <+: worker.file := by
  obtain ⟨_, before, committed, written⟩ := tracked
  refine ⟨before, committed, ?_⟩
  cases phase : worker.phase with
  | drain =>
    simp only [phase] at written
    rw [written.2]
  | decide =>
    simp only [phase] at written
    rw [written.2]
  | write =>
    simp only [phase] at written
    have done := retryLoop_some _ _ _ _ (written [.committed])
    rw [← List.append_assoc] at done
    exact ⟨_, (List.append_cancel_right done).symm⟩
  | sync =>
    simp only [phase] at written
    obtain ⟨unsynced, same, turned⟩ := written
    have done := retryLoop_some _ _ _ _ (turned [.committed])
    rw [← List.append_assoc] at done
    rw [same, List.append_cancel_right done, List.append_assoc]
    exact List.prefix_append _ _
  | clear =>
    simp only [phase] at written
    rw [retryLoop_some _ _ _ _ written]
    exact List.prefix_append _ _

end BatchWorker

structure NeuralWorker (V F : Type) where
  batch : BatchWorker V
  agent : AgentLoop F

inductive NeuralEvent (V F : Type) where
  | send (command : PersistenceCommand V)
  -- The worker's next action, with the times it would measure and how an I/O call would end.
  | work (io : IoOutcome) (elapsed writeDuration : F)

namespace NeuralWorker

variable {V F : Type} [FloatText V] [Field F] [HasExp F] [LinearOrder F]

def start (file : Bytes) : NeuralWorker V F := ⟨.start file, .start⟩

def tick (worker : NeuralWorker V F) (elapsed writeDuration : F) : WorkerTick F :=
  ⟨worker.batch.batchBuffer.length, elapsed, writeDuration⟩

def chosen (worker : NeuralWorker V F) : NeuralEvent V F → WorkerEvent V
  | .send command => .send command
  | .work io elapsed writeDuration =>
    .work (worker.agent.commits (worker.tick elapsed writeDuration)) io

def ticked (worker : NeuralWorker V F) : NeuralEvent V F → List (WorkerTick F)
  | .send _ => []
  | .work _ elapsed writeDuration =>
    if worker.batch.phase = .decide then [worker.tick elapsed writeDuration] else []

def step (worker : NeuralWorker V F) (event : NeuralEvent V F) : NeuralWorker V F :=
  { batch := worker.batch.step (worker.chosen event)
    agent := Steps.run AgentLoop.turn worker.agent (worker.ticked event) }

def ticks (worker : NeuralWorker V F) (events : List (NeuralEvent V F)) : List (WorkerTick F) :=
  Steps.outputs step ticked worker events

def choices (worker : NeuralWorker V F) (events : List (NeuralEvent V F)) : List (WorkerEvent V) :=
  Steps.outputs step (fun worker event => [worker.chosen event]) worker events

theorem batch_run (worker : NeuralWorker V F) (events : List (NeuralEvent V F)) :
    (Steps.run step worker events).batch =
      Steps.run BatchWorker.step worker.batch (worker.choices events) :=
  Steps.run_project batch (fun worker event => [worker.chosen event]) (fun _ _ => rfl) worker events

theorem agent_run (worker : NeuralWorker V F) (events : List (NeuralEvent V F)) :
    (Steps.run step worker events).agent =
      Steps.run AgentLoop.turn worker.agent (worker.ticks events) :=
  Steps.run_project agent ticked (fun _ _ => rfl) worker events

omit [FloatText V] in
theorem decision_chosen (worker : NeuralWorker V F) (event : NeuralEvent V F)
    (occupied : worker.batch.phase ≠ .drain → worker.batch.batchBuffer ≠ []) :
    worker.batch.decision (worker.chosen event) = worker.agent.decisions (worker.ticked event) ∧
      ∀ tick ∈ worker.ticked event, AgentLoop.Busy tick = true := by
  cases event with
  | send command => exact ⟨rfl, fun _ member => by cases member⟩
  | work io elapsed writeDuration =>
    rw [chosen, BatchWorker.decision, ticked]
    by_cases decides : worker.batch.phase = .decide
    · have full : (worker.tick elapsed writeDuration).queueLen ≠ 0 := fun none =>
        occupied (by simp [decides]) (List.eq_nil_of_length_eq_zero none)
      rw [if_pos decides, if_pos decides, AgentLoop.decisions, if_neg full]
      refine ⟨rfl, fun tick member => ?_⟩
      obtain rfl := List.mem_singleton.mp member
      exact decide_eq_true full
    · rw [if_neg decides, if_neg decides]
      exact ⟨rfl, fun _ member => by cases member⟩

theorem decided_choices (worker : NeuralWorker V F) (events : List (NeuralEvent V F))
    (occupied : worker.batch.phase ≠ .drain → worker.batch.batchBuffer ≠ []) :
    worker.batch.decided (worker.choices events) = worker.agent.decisions (worker.ticks events) ∧
      ∀ tick ∈ worker.ticks events, AgentLoop.Busy tick = true := by
  induction events generalizing worker with
  | nil => exact ⟨rfl, fun _ member => nomatch member⟩
  | cons event events ih =>
    obtain ⟨now, busyNow⟩ := decision_chosen worker event occupied
    obtain ⟨later, busyLater⟩ := ih (worker.step event)
      (BatchWorker.occupied_step worker.batch (worker.chosen event) occupied)
    have whole : worker.ticks (event :: events) =
        worker.ticked event ++ (worker.step event).ticks events := rfl
    rw [whole, AgentLoop.decisions_append]
    refine ⟨congrArg₂ (· ++ ·) now later, fun tick member => ?_⟩
    exact (List.mem_append.mp member).elim (busyNow tick) (busyLater tick)

theorem occupied_run (worker : NeuralWorker V F) (events : List (NeuralEvent V F))
    (occupied : worker.batch.phase ≠ .drain → worker.batch.batchBuffer ≠ []) :
    (Steps.run step worker events).batch.phase ≠ .drain →
      (Steps.run step worker events).batch.batchBuffer ≠ [] := by
  have preserved (worker : NeuralWorker V F) (event : NeuralEvent V F)
      (occupied : worker.batch.phase ≠ .drain → worker.batch.batchBuffer ≠ []) :
      (worker.step event).batch.phase ≠ .drain → (worker.step event).batch.batchBuffer ≠ [] :=
    BatchWorker.occupied_step worker.batch (worker.chosen event) occupied
  exact Steps.run_always preserved worker events occupied

theorem tracked_run (file : Bytes) (events : List (NeuralEvent V F)) :
    BatchWorker.Tracked file (Steps.run step (start file) events).batch := by
  rw [batch_run]
  exact BatchWorker.tracked_run file _

end NeuralWorker

namespace AgentLoop

theorem commits_before_last (worker : AgentLoop ℝ) (ticks : List (WorkerTick ℝ)) (enough : Nat)
    (commits : ∀ ticks : List (WorkerTick ℝ), enough ≤ ticks.countP Busy →
      true ∈ worker.decisions ticks)
    (busy : ∀ tick ∈ ticks, Busy tick = true) (many : enough + 1 ≤ ticks.length) :
    true ∈ (worker.decisions ticks).dropLast := by
  obtain rfl | ⟨before, last, rfl⟩ := List.eq_nil_or_concat' ticks
  · simp at many
  · have full : last.queueLen ≠ 0 := by simpa [Busy] using busy last (by simp)
    have counted : before.countP Busy = before.length :=
      List.countP_eq_length.mpr fun tick member => busy tick (List.mem_append_left _ member)
    rw [decisions_append, decisions, if_neg full, decisions, List.dropLast_concat]
    apply commits
    rw [List.length_append, List.length_singleton] at many
    omega

end AgentLoop

namespace NeuralWorker

variable {V : Type} [FloatText V]

theorem taken_recorded (file : Bytes) (before : List (NeuralEvent V ℝ)) :
    let worker := Steps.run step (start file) before
    ∃ enough, ∀ after, enough ≤ (worker.ticks after).length →
      let later := Steps.run step worker after
      worker.batch.taken <+: later.batch.onRecord ∧
        (worker.batch.phase ≠ .decide → worker.batch.sent <+: later.batch.onRecord) ∧
        ∃ onFile, commitBatches file later.batch.committed = some onFile ∧
          onFile <+: later.batch.file := by
  intro worker
  have rate : 0 < worker.agent.agent.learningRate := by
    rw [agent_run, AgentLoop.learningRate_run]
    change (0 : ℝ) < 0.005
    norm_num
  have occupied := occupied_run (start file) before fun busy => absurd rfl busy
  have tracked := tracked_run file before
  obtain ⟨enough, commits⟩ := worker.agent.commits_within rate
  refine ⟨enough + 1, fun after many => ?_⟩
  obtain ⟨same, busy⟩ := decided_choices worker after occupied
  have committed := AgentLoop.commits_before_last worker.agent _ enough commits busy many
  rw [← same] at committed
  have recorded (commands : List (PersistenceCommand V))
      (collected : BatchWorker.Collected commands worker.batch) :
      commands <+: (Steps.run step worker after).batch.onRecord := by
    rw [batch_run]
    exact BatchWorker.commit_recorded file commands worker.batch _ tracked collected committed
  refine ⟨recorded _ ⟨?_, fun _ => List.prefix_refl _⟩, fun free => ?_, ?_⟩
  · rw [← tracked.accounted]
    exact List.prefix_append _ _
  · exact recorded _ ⟨List.prefix_refl _, fun decides => absurd decides free⟩
  · have whole := tracked_run file (before ++ after)
    rw [Steps.run_append] at whole
    exact BatchWorker.written_prefix file _ whole

end NeuralWorker

end OmegaDrive
