import OmegaDrive.Persistence.Worker
import OmegaDrive.Shared.Steps

set_option autoImplicit false

namespace OmegaDrive

open PersistenceCommand

/-! The worker's loop, one action at a time, with commands sent at any moment. -/

inductive WorkerPhase where
  -- `while let Ok(cmd) = rx.try_recv()`, and the check for an empty batch
  | drain
  -- `agent.select_action`
  | decide
  -- `file.write_all`, then `file.sync_all`
  | write
  | sync
  -- `batch_buffer.clear()`
  | clear
  deriving DecidableEq

structure BatchWorker (F : Type) where
  queue : List (PersistenceCommand F)
  batchBuffer : List (PersistenceCommand F)
  file : Bytes
  phase : WorkerPhase
  -- What the program does not record: every command sent, the batches that are committed, and
  -- how the attempts of the current one ended.
  sent : List (PersistenceCommand F)
  committed : List (Batch F)
  outcomes : List IoOutcome

inductive WorkerEvent (F : Type) where
  | send (command : PersistenceCommand F)
  -- The worker's next action, with what the agent would choose and how an I/O call would end.
  | work (commit : Bool) (io : IoOutcome)

namespace BatchWorker

variable {F : Type}

def start (file : Bytes) : BatchWorker F :=
  { queue := [], batchBuffer := [], file, phase := .drain, sent := [], committed := []
    outcomes := [] }

variable [FloatText F]

def work (worker : BatchWorker F) (commit : Bool) (io : IoOutcome) : BatchWorker F :=
  match worker.phase with
  | .drain =>
    match worker.queue with
    | command :: queue => { worker with queue, batchBuffer := worker.batchBuffer ++ [command] }
    | [] => if worker.batchBuffer.isEmpty then worker else { worker with phase := .decide }
  | .decide => { worker with phase := if commit then .write else .drain }
  | .write =>
    let payload := log worker.batchBuffer
    match io with
    | .writeFailed appended =>
      { worker with
        file := worker.file ++ payload.take appended
        outcomes := worker.outcomes ++ [io] }
    | _ => { worker with file := worker.file ++ payload, phase := .sync }
  | .sync =>
    match io with
    | .committed => { worker with phase := .clear, outcomes := worker.outcomes ++ [.committed] }
    | _ => { worker with phase := .write, outcomes := worker.outcomes ++ [.syncFailed] }
  | .clear =>
    { worker with
      batchBuffer := []
      phase := .drain
      committed := worker.committed ++ [⟨worker.batchBuffer, worker.outcomes⟩]
      outcomes := [] }

def step (worker : BatchWorker F) : WorkerEvent F → BatchWorker F
  | .send command =>
    { worker with queue := worker.queue ++ [command], sent := worker.sent ++ [command] }
  | .work commit io => worker.work commit io

def sends (events : List (WorkerEvent F)) : List (PersistenceCommand F) :=
  events.flatMap fun event => match event with
    | .send command => [command]
    | .work _ _ => []

theorem sent_step (worker : BatchWorker F) (event : WorkerEvent F) :
    (worker.step event).sent = worker.sent ++ sends [event] := by
  cases event with
  | send command => rfl
  | work commit io =>
    simp only [step, work, sends, List.flatMap_cons, List.flatMap_nil, List.append_nil]
    repeat' split
    all_goals rfl

theorem sent_run (worker : BatchWorker F) (events : List (WorkerEvent F)) :
    (Steps.run step worker events).sent = worker.sent ++ sends events := by
  induction events generalizing worker with
  | nil => simp [Steps.run, sends]
  | cons event events ih =>
    rw [Steps.run_cons, ih, sent_step, List.append_assoc]
    simp [sends]

def Written (file : Bytes) (worker : BatchWorker F) : Prop :=
  ∃ before, commitBatches file worker.committed = some before ∧
    match worker.phase with
    | .drain | .decide => worker.outcomes = [] ∧ worker.file = before
    | .write => ∀ turns, retryLoop (log worker.batchBuffer) before (worker.outcomes ++ turns) =
        retryLoop (log worker.batchBuffer) worker.file turns
    | .sync => ∃ unsynced, worker.file = unsynced ++ log worker.batchBuffer ∧
        ∀ turns, retryLoop (log worker.batchBuffer) before (worker.outcomes ++ turns) =
          retryLoop (log worker.batchBuffer) unsynced turns
    | .clear => retryLoop (log worker.batchBuffer) before worker.outcomes = some worker.file

/-- What is committed, the batch and the queue are all that was sent, in order. -/
structure Tracked (file : Bytes) (worker : BatchWorker F) : Prop where
  accounted : worker.committed.flatMap Batch.entries ++ worker.batchBuffer ++ worker.queue =
    worker.sent
  written : Written file worker

theorem commitBatches_concat (file : Bytes) (batches : List (Batch F)) (batch : Batch F) :
    commitBatches file (batches ++ [batch]) =
      (commitBatches file batches).bind fun before =>
        retryLoop (log batch.entries) before batch.outcomes := by
  induction batches generalizing file with
  | nil =>
    simp only [List.nil_append, commitBatches, Option.bind_some]
    cases retryLoop (log batch.entries) file batch.outcomes <;> rfl
  | cons first batches ih =>
    rw [List.cons_append, commitBatches, commitBatches]
    cases retryLoop (log first.entries) file first.outcomes with
    | none => rfl
    | some next => exact ih next

theorem tracked_work (file : Bytes) (worker : BatchWorker F) (tracked : Tracked file worker)
    (commit : Bool) (io : IoOutcome) : Tracked file (worker.work commit io) := by
  obtain ⟨accounted, before, committed, written⟩ := tracked
  cases phase : worker.phase with
  | drain =>
    simp only [phase] at written
    cases queue : worker.queue with
    | nil =>
      simp only [work, phase, queue]
      split
      next => exact ⟨accounted, before, committed, by simpa only [phase] using written⟩
      next => exact ⟨by simpa only [queue] using accounted, before, committed, written⟩
    | cons command queue' =>
      simp only [work, phase, queue]
      exact ⟨by simpa [queue] using accounted, before, committed, written⟩
  | decide =>
    simp only [phase] at written
    obtain ⟨fresh, same⟩ := written
    simp only [work, phase]
    refine ⟨accounted, before, committed, ?_⟩
    cases commit with
    | false => exact ⟨fresh, same⟩
    | true => exact fun turns => by rw [fresh, same, List.nil_append]
  | write =>
    simp only [phase] at written
    simp only [work, phase]
    cases io with
    | writeFailed appended =>
      refine ⟨accounted, before, committed, fun turns => ?_⟩
      rw [List.append_assoc, written]
      rfl
    | syncFailed => exact ⟨accounted, before, committed, worker.file, rfl, written⟩
    | committed => exact ⟨accounted, before, committed, worker.file, rfl, written⟩
  | sync =>
    simp only [phase] at written
    obtain ⟨unsynced, file_eq, turned⟩ := written
    -- A sync that fails, for whatever reason, sends the worker back to `write_all`.
    have failed : Tracked file { worker with
        phase := .write, outcomes := worker.outcomes ++ [.syncFailed] } := by
      refine ⟨accounted, before, committed, fun turns => ?_⟩
      rw [List.append_assoc, turned, file_eq]
      rfl
    simp only [work, phase]
    cases io with
    | writeFailed appended => exact failed
    | syncFailed => exact failed
    | committed =>
      refine ⟨accounted, before, committed, ?_⟩
      rw [turned, file_eq]
      rfl
  | clear =>
    simp only [phase] at written
    simp only [work, phase]
    refine ⟨by simpa using accounted, worker.file, ?_, rfl, rfl⟩
    rw [commitBatches_concat, committed]
    exact written

theorem tracked_run (file : Bytes) (events : List (WorkerEvent F)) :
    Tracked file (Steps.run step (start file) events) := by
  refine Steps.run_always (fun worker event tracked => ?_) _ events ⟨rfl, file, rfl, rfl, rfl⟩
  cases event with
  | send command => exact ⟨by simp [step, ← tracked.accounted], tracked.written⟩
  | work commit io => exact tracked_work file worker tracked commit io

def Succeeds : WorkerEvent F → Prop
  | .send _ => True
  | .work _ io => io = .committed

/-- Between `write_all` and `clear` the batch is in the file, and the buffer still holds it. -/
def InCommit (worker : BatchWorker F) : Prop := worker.phase = .sync ∨ worker.phase = .clear

instance (worker : BatchWorker F) : Decidable worker.InCommit :=
  inferInstanceAs (Decidable (_ ∨ _))

def pending (worker : BatchWorker F) : List (PersistenceCommand F) :=
  if worker.InCommit then [] else worker.batchBuffer

def Counted (file : Bytes) (worker : BatchWorker F) : Prop :=
  worker.file ++ log worker.pending ++ log worker.queue = file ++ log worker.sent

theorem log_append (first second : List (PersistenceCommand F)) :
    log (first ++ second) = log first ++ log second :=
  List.flatMap_append

theorem counted_step (file : Bytes) (worker : BatchWorker F) (event : WorkerEvent F)
    (counted : Counted file worker) (succeeds : Succeeds event) :
    Counted file (worker.step event) := by
  cases event with
  | send command =>
    have same : (worker.step (.send command)).pending = worker.pending := rfl
    rw [Counted, same]
    simp only [step, log_append]
    rw [← List.append_assoc, counted, List.append_assoc]
  | work commit io =>
    obtain rfl : io = .committed := succeeds
    unfold Counted pending InCommit at counted ⊢
    simp only [step]
    cases phase : worker.phase with
    | drain =>
      cases queue : worker.queue with
      | nil =>
        by_cases empty : worker.batchBuffer.isEmpty <;>
          simpa [work, phase, queue, empty] using counted
      | cons command queue' =>
        simpa [work, phase, queue, log] using counted
    | decide => cases commit <;> simpa [work, phase] using counted
    | write => simpa [work, phase, log] using counted
    | sync => simpa [work, phase] using counted
    | clear => simpa [work, phase, log] using counted

theorem nothing_lost (file : Bytes) (events : List (WorkerEvent F))
    (succeed : ∀ event ∈ events, Succeeds event) :
    let worker := Steps.run step (start file) events
    (¬ worker.InCommit → worker.file ++ log worker.batchBuffer ++ log worker.queue =
        file ++ log (sends events)) ∧
      (worker.InCommit → worker.file ++ log worker.queue = file ++ log (sends events)) := by
  intro worker
  have counted : Counted file worker := Steps.run_invariant
    (fun worker event counted succeeds => counted_step file worker event counted succeeds)
    _ events (by simp [Counted, pending, InCommit, start, log])
    (Steps.along_of_forall _ events succeed)
  have sent : worker.sent = sends events := by
    rw [sent_run]
    rfl
  rw [Counted, sent] at counted
  constructor
  · intro outside
    rwa [pending, if_neg outside] at counted
  · intro inside
    rw [pending, if_pos inside] at counted
    simpa [log] using counted

-- A command sent while the batch before it is being written.
theorem nothing_lost_two :
    let events : List (WorkerEvent Int) :=
      [.send .flushDb, .work true .committed, .work true .committed, .work true .committed,
        .work true .committed, .send (.del ⟨ascii "k", validUtf8_k⟩), .work true .committed,
        .work true .committed]
    let worker := Steps.run step (start []) events
    worker.file ++ log worker.batchBuffer ++ log worker.queue = log (sends events) :=
  (nothing_lost [] _ (by simp [Succeeds])).1 (by decide)

end BatchWorker

end OmegaDrive
