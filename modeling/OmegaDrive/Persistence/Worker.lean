import OmegaDrive.Persistence.Recovery

set_option autoImplicit false

namespace OmegaDrive

open PersistenceCommand

variable {F : Type} [FloatText F]

inductive IoOutcome where
  -- `write_all` failed after it had appended this many bytes of the payload.
  | writeFailed (appended : Nat)
  -- `write_all` appended the payload and `sync_all` failed.
  | syncFailed
  | committed
  deriving DecidableEq

-- `while !success`: the file is open for appending, so each turn adds to what is there.
-- `none` is a loop that has not succeeded yet.
def retryLoop (payload : Bytes) : Bytes → List IoOutcome → Option Bytes
  | _, [] => none
  | file, .writeFailed appended :: turns => retryLoop payload (file ++ payload.take appended) turns
  | file, .syncFailed :: turns => retryLoop payload (file ++ payload) turns
  | file, .committed :: _ => some (file ++ payload)

structure Batch (F : Type) where
  entries : List (PersistenceCommand F)
  outcomes : List IoOutcome

def commitBatches : Bytes → List (Batch F) → Option Bytes
  | file, [] => some file
  | file, batch :: batches =>
    match retryLoop (log batch.entries) file batch.outcomes with
    | none => none
    | some file => commitBatches file batches

def failedBytes (payload : Bytes) : List IoOutcome → Bytes
  | [] => []
  | .writeFailed appended :: turns => payload.take appended ++ failedBytes payload turns
  | .syncFailed :: turns => payload ++ failedBytes payload turns
  | .committed :: _ => []

theorem retryLoop_some (payload file result : Bytes) (turns : List IoOutcome)
    (done : retryLoop payload file turns = some result) :
    result = file ++ (failedBytes payload turns ++ payload) := by
  induction turns generalizing file with
  | nil => simp [retryLoop] at done
  | cons turn turns ih =>
    cases turn with
    | writeFailed appended =>
      rw [ih _ done]
      simp [failedBytes]
    | syncFailed =>
      rw [ih _ done]
      simp [failedBytes]
    | committed =>
      obtain rfl : file ++ payload = result := by simpa [retryLoop] using done
      simp [failedBytes]

def Batch.stretch (batch : Batch F) : Stretch F :=
  ⟨failedBytes (log batch.entries) batch.outcomes, batch.entries⟩

theorem commitBatches_some (file result : Bytes) (batches : List (Batch F))
    (done : commitBatches file batches = some result) :
    result = file ++ fileBytes (batches.map Batch.stretch) := by
  induction batches generalizing file with
  | nil =>
    obtain rfl : file = result := by simpa [commitBatches] using done
    simp [fileBytes]
  | cons batch batches ih =>
    rw [commitBatches] at done
    cases first : retryLoop (log batch.entries) file batch.outcomes with
    | none => simp [first] at done
    | some next =>
      rw [first] at done
      rw [ih _ done, retryLoop_some _ _ _ _ first]
      simp [fileBytes, Stretch.bytes, Batch.stretch]

theorem replay_commitBatches (roundTrip : FloatText.RoundTrip F) (batches : List (Batch F))
    (sized : ∀ batch ∈ batches, ∀ entry ∈ batch.entries, entry.Enqueueable)
    (file : Bytes) (done : commitBatches [] batches = some file) :
    (replayRecords file = writtenRecords 0 (batches.map Batch.stretch) ↔
        QuietFile (batches.map Batch.stretch)) ∧
      (QuietFile (batches.map Batch.stretch) →
        (replayRecords (F := F) file).map Record.command =
          (batches.flatMap Batch.entries).map PersistenceCommand.command) := by
  have bytes := commitBatches_some [] file batches done
  rw [List.nil_append] at bytes
  have exact' := replayAt_stretches roundTrip 0 (batches.map Batch.stretch) (by
    intro stretch member entry inside
    obtain ⟨batch, present, rfl⟩ := List.mem_map.mp member
    exact sized batch present entry inside)
  rw [← bytes] at exact'
  refine ⟨exact', fun quiet => ?_⟩
  rw [replayRecords, exact'.mpr quiet, command_writtenRecords, List.flatMap_map]
  rfl

def oneVector : List (PersistenceCommand Int) := [.vAdd ⟨ascii "v", validUtf8_v⟩ [1]]

/-- The file after a write that failed inside the record's header, and its retry. -/
def retriedFile : Bytes := (log oneVector).take 5 ++ log oneVector

theorem replay_commitBatches_retried :
    replayRecords retriedFile =
      writtenRecords 0 ([⟨oneVector, [.writeFailed 5, .committed]⟩].map Batch.stretch) :=
  ((replay_commitBatches roundTrip_int [⟨oneVector, [.writeFailed 5, .committed]⟩]
    (by decide) retriedFile (by decide)).1).mpr ⟨by unfold Quiet; decide, trivial⟩

-- One failed fsync, and the replay adds the vector twice.
theorem syncFailed_replays_twice :
    (commitBatches [] [⟨oneVector, [.syncFailed, .committed]⟩]).map
        (fun file => (replayRecords (F := Int) file).map Record.command) =
      some [.vAdd ⟨ascii "v", validUtf8_v⟩ [1], .vAdd ⟨ascii "v", validUtf8_v⟩ [1]] ∧
    (commitBatches [] [⟨oneVector, [.syncFailed, .committed]⟩]).map
        (fun file => (replayRecords (F := Int) file).map Record.command) ≠
      some (oneVector.map PersistenceCommand.command) := by
  decide

theorem syncFailed_not_quiet (roundTrip : FloatText.RoundTrip F) (batch : Batch F)
    (entry : PersistenceCommand F) (entries : List (PersistenceCommand F))
    (first : batch.entries = entry :: entries) (sized : entry.Enqueueable)
    (before after : List IoOutcome) (turns : batch.outcomes = before ++ .syncFailed :: after)
    (failed : IoOutcome.committed ∉ before) (rest : Bytes) :
    ¬ Quiet F batch.stretch.junk rest := by
  have junk : ∃ lead tail, batch.stretch.junk = lead ++ (entry.toResp ++ tail) := by
    rw [Batch.stretch, turns, first]
    clear turns
    induction before with
    | nil =>
      refine ⟨[], log entries ++ failedBytes (log (entry :: entries)) after, ?_⟩
      simp [failedBytes]
    | cons turn before ih =>
      obtain ⟨lead, tail, same⟩ := ih fun member => failed (List.mem_cons_of_mem _ member)
      cases turn with
      | writeFailed appended =>
        refine ⟨(log (entry :: entries)).take appended ++ lead, tail, ?_⟩
        simp only [List.cons_append, failedBytes] at same ⊢
        rw [same, List.append_assoc]
      | syncFailed =>
        refine ⟨log (entry :: entries) ++ lead, tail, ?_⟩
        simp only [List.cons_append, failedBytes] at same ⊢
        rw [same, List.append_assoc]
      | committed => exact absurd List.mem_cons_self failed
  obtain ⟨lead, tail, same⟩ := junk
  intro quiet
  have reads := PersistenceCommand.reads_toResp roundTrip entry sized (tail ++ rest)
  obtain ⟨_, positive⟩ := parseCommandFast_star _ _ _ reads
  have silent := quiet lead.length (by rw [same]; simp only [List.length_append]; omega)
  rw [same, List.drop_left, List.append_assoc, reads] at silent
  simp at silent

end OmegaDrive
