import OmegaDrive.Persistence.Replay

set_option autoImplicit false

namespace OmegaDrive

open PersistenceCommand

variable {F : Type} [FloatText F]

/-- A stretch of the file: bytes of a broken write, then a log that was written in full. -/
structure Stretch (F : Type) where
  junk : Bytes
  entries : List (PersistenceCommand F)

def Stretch.bytes (stretch : Stretch F) : Bytes := stretch.junk ++ log stretch.entries

def fileBytes (stretches : List (Stretch F)) : Bytes := stretches.flatMap Stretch.bytes

def writtenRecords : Nat → List (Stretch F) → List (Record F)
  | _, [] => []
  | pos, stretch :: stretches =>
    recordsAt (pos + stretch.junk.length) stretch.entries ++
      writtenRecords (pos + stretch.bytes.length) stretches

/-- No byte of any broken write begins a complete command in the file. -/
def QuietFile : List (Stretch F) → Prop
  | [] => True
  | stretch :: stretches =>
    Quiet F stretch.junk (log stretch.entries ++ fileBytes stretches) ∧ QuietFile stretches

theorem offset_writtenRecords (pos : Nat) (stretches : List (Stretch F)) :
    ∀ record ∈ writtenRecords pos stretches, pos ≤ record.offset := by
  induction stretches generalizing pos with
  | nil => simp [writtenRecords]
  | cons stretch stretches ih =>
    intro record member
    rw [writtenRecords, List.mem_append] at member
    rcases member with member | member
    · have := offset_recordsAt _ _ _ member
      omega
    · have := ih _ _ member
      omega

theorem command_writtenRecords (pos : Nat) (stretches : List (Stretch F)) :
    (writtenRecords pos stretches).map Record.command =
      (stretches.flatMap Stretch.entries).map PersistenceCommand.command := by
  induction stretches generalizing pos with
  | nil => rfl
  | cons stretch stretches ih => simp [writtenRecords, ih]

theorem replayAt_stretches (roundTrip : FloatText.RoundTrip F) (pos : Nat)
    (stretches : List (Stretch F))
    (sized : ∀ stretch ∈ stretches, ∀ entry ∈ stretch.entries, entry.Enqueueable) :
    replayAt pos (fileBytes stretches) = writtenRecords pos stretches ↔ QuietFile stretches := by
  induction stretches generalizing pos with
  | nil => simp [fileBytes, writtenRecords, QuietFile]
  | cons stretch stretches ih =>
    have file : fileBytes (stretch :: stretches) =
        stretch.junk ++ (log stretch.entries ++ fileBytes stretches) := by
      simp [fileBytes, Stretch.bytes]
    have rest := ih (pos + stretch.bytes.length)
      fun other member => sized other (List.mem_cons_of_mem _ member)
    have total : pos + stretch.junk.length + (log stretch.entries).length =
        pos + stretch.bytes.length := by
      simp only [Stretch.bytes, List.length_append]
      omega
    rw [file, QuietFile, writtenRecords]
    by_cases quiet : Quiet F stretch.junk (log stretch.entries ++ fileBytes stretches)
    · rw [replayAt_quiet _ _ _ quiet,
        replayAt_log roundTrip _ _ (sized stretch List.mem_cons_self), total,
        List.append_cancel_left_eq, rest]
      simp [quiet]
    · simp only [quiet, false_and, iff_false]
      intro same
      -- A record from inside the junk is in no log that was written in full.
      obtain ⟨record, member, inside⟩ := replayAt_noisy pos _ _ quiet
      rw [same, List.mem_append] at member
      rcases member with member | member
      · have := offset_recordsAt _ _ _ member
        omega
      · have := offset_writtenRecords _ _ _ member
        simp only [Stretch.bytes, List.length_append] at this
        omega

def wholeBefore : Nat → List (PersistenceCommand F) → List (PersistenceCommand F)
  | _, [] => []
  | cut, entry :: entries =>
    if entry.toResp.length ≤ cut then entry :: wholeBefore (cut - entry.toResp.length) entries
    else []

def tornRecord (cut : Nat) (entries : List (PersistenceCommand F)) : Bytes :=
  ((log entries).take cut).drop (log (wholeBefore cut entries)).length

theorem take_log (cut : Nat) (entries : List (PersistenceCommand F)) :
    (log entries).take cut = log (wholeBefore cut entries) ++ tornRecord cut entries := by
  have whole : (log (wholeBefore cut entries)).IsPrefix ((log entries).take cut) := by
    induction entries generalizing cut with
    | nil => simp [wholeBefore]
    | cons entry entries ih =>
      rw [wholeBefore]
      split
      next fits =>
        obtain ⟨tail, same⟩ := ih (cut - entry.toResp.length)
        refine ⟨tail, ?_⟩
        rw [log_cons, log_cons, List.take_append, List.take_of_length_le fits, ← same,
          List.append_assoc]
      next => simp
  obtain ⟨tail, same⟩ := whole
  rw [tornRecord, ← same, List.drop_left]

theorem wholeBefore_sublist (cut : Nat) (entries : List (PersistenceCommand F)) :
    ∀ entry ∈ wholeBefore cut entries, entry ∈ entries := by
  induction entries generalizing cut with
  | nil => simp [wholeBefore]
  | cons entry entries ih =>
    intro other member
    rw [wholeBefore] at member
    split at member
    · rcases List.mem_cons.mp member with rfl | member
      · exact List.mem_cons_self
      · exact List.mem_cons_of_mem _ (ih _ _ member)
    · simp at member

-- The log of `before`, cut by a crash, with the log of `after` appended to it.
def tornFile (cut : Nat) (before after : List (PersistenceCommand F)) : Bytes :=
  (log before).take cut ++ log after

def survivingRecords (cut : Nat) (before after : List (PersistenceCommand F)) : List (Record F) :=
  recordsAt 0 (wholeBefore cut before) ++ recordsAt ((log before).take cut).length after

theorem replay_tornFile (roundTrip : FloatText.RoundTrip F) (cut : Nat)
    (before after : List (PersistenceCommand F))
    (sizedBefore : ∀ entry ∈ before, entry.Enqueueable)
    (sizedAfter : ∀ entry ∈ after, entry.Enqueueable) :
    (replayRecords (tornFile cut before after) = survivingRecords cut before after ↔
        Quiet F (tornRecord cut before) (log after)) ∧
      (Quiet F (tornRecord cut before) (log after) →
        (replayRecords (F := F) (tornFile cut before after)).map Record.command =
          (wholeBefore cut before ++ after).map PersistenceCommand.command) := by
  let stretches : List (Stretch F) :=
    [⟨[], wholeBefore cut before⟩, ⟨tornRecord cut before, after⟩]
  have file : tornFile cut before after = fileBytes stretches := by
    simp [tornFile, fileBytes, Stretch.bytes, stretches, take_log]
  have written : survivingRecords cut before after = writtenRecords 0 stretches := by
    simp [survivingRecords, writtenRecords, Stretch.bytes, stretches, take_log]
  have quiet : QuietFile stretches ↔ Quiet F (tornRecord cut before) (log after) := by
    simp [QuietFile, Quiet, fileBytes, stretches]
  have sized : ∀ stretch ∈ stretches, ∀ entry ∈ stretch.entries, entry.Enqueueable := by
    intro stretch member entry inside
    simp only [stretches, List.mem_cons, List.not_mem_nil, or_false] at member
    rcases member with rfl | rfl
    · exact sizedBefore entry (wholeBefore_sublist cut before entry inside)
    · exact sizedAfter entry inside
  have exact' := replayAt_stretches roundTrip 0 stretches sized
  rw [← file, ← written, quiet] at exact'
  refine ⟨exact', fun silent => ?_⟩
  rw [replayRecords, exact'.mpr silent]
  simp [survivingRecords]

-- A SET whose value is itself the encoding of a FLUSHDB.
def setOfFlush : PersistenceCommand Int :=
  .set ⟨ascii "k", validUtf8_k⟩ (ascii "*1\r\n$7\r\nFLUSHDB\r\n")

theorem replay_tornFile_setOfFlush :
    replayRecords (tornFile 10 [setOfFlush] [setOfFlush]) =
      survivingRecords 10 [setOfFlush] [setOfFlush] :=
  ((replay_tornFile roundTrip_int 10 [setOfFlush] [setOfFlush] (by decide) (by decide)).1).mpr
    (by unfold Quiet; decide)

-- Cut before its last CRLF, that record empties the store the server restarts with.
theorem tornFile_executes_payload :
    (replayRecords (F := Int) (tornFile 42 [setOfFlush] [])).map Record.command = [.flushDb] ∧
      (replayRecords (F := Int) (tornFile 42 [setOfFlush] [])).map Record.command ≠
        (wholeBefore 42 [setOfFlush] ++ []).map PersistenceCommand.command := by
  decide

end OmegaDrive
