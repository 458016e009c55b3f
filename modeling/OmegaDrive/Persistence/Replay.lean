import OmegaDrive.Persistence.Command
import OmegaDrive.Resp.WholeFloat

set_option autoImplicit false

namespace OmegaDrive

open Cursor

variable {F : Type} [FloatText F]

/-- One command the startup loop executes: where it was parsed and how far `pos` moved. -/
structure Record (F : Type) where
  offset : Nat
  command : Command F
  consumed : Nat
  deriving DecidableEq

/-- The startup loop over the file, from `pos` on: at '*' a command that parses is executed, any
other byte is skipped. Every turn moves `pos`, so the file's length is enough fuel. -/
def replayFrom : Nat → Nat → Bytes → List (Record F)
  | 0, _, _ => []
  | _ + 1, _, [] => []
  | fuel + 1, pos, byte :: rest =>
    if byte = 42 then
      match parseCommandFast (byte :: rest) with
      | some (command, consumed) =>
          ⟨pos, command, consumed⟩ :: replayFrom fuel (pos + consumed) ((byte :: rest).drop consumed)
      | none => replayFrom fuel (pos + 1) rest
    else replayFrom fuel (pos + 1) rest

def replayAt (pos : Nat) (data : Bytes) : List (Record F) := replayFrom data.length pos data

def replayRecords (data : Bytes) : List (Record F) := replayAt 0 data

theorem replayFrom_some (fuel pos : Nat) (data : Bytes) (command : Command F) (consumed : Nat)
    (parsed : parseCommandFast data = some (command, consumed)) :
    replayFrom (fuel + 1) pos data =
      ⟨pos, command, consumed⟩ :: replayFrom fuel (pos + consumed) (data.drop consumed) := by
  obtain ⟨star, _⟩ := parseCommandFast_star _ _ _ parsed
  cases data with
  | nil => simp at star
  | cons byte rest =>
    obtain rfl : byte = 42 := by simpa using star
    simp [replayFrom, parsed]

theorem replayFrom_none (fuel pos : Nat) (byte : Byte) (rest : Bytes)
    (stuck : parseCommandFast (F := F) (byte :: rest) = none) :
    replayFrom (F := F) (fuel + 1) pos (byte :: rest) = replayFrom fuel (pos + 1) rest := by
  simp [replayFrom, stuck]

theorem replayFrom_fuel (fuel pos : Nat) (data : Bytes) (enough : data.length ≤ fuel) :
    replayFrom (F := F) fuel pos data = replayAt pos data := by
  suffices both : ∀ other, data.length ≤ other →
      replayFrom (F := F) fuel pos data = replayFrom other pos data from both _ (Nat.le_refl _)
  induction fuel generalizing pos data with
  | zero =>
    intro other _
    obtain rfl : data = [] := List.eq_nil_of_length_eq_zero (by omega)
    cases other <;> rfl
  | succ fuel ih =>
    intro other bound
    cases data with
    | nil => cases other <;> rfl
    | cons byte rest =>
      simp only [List.length_cons] at enough bound
      obtain ⟨other, rfl⟩ : ∃ n, other = n + 1 := ⟨other - 1, by omega⟩
      cases parsed : parseCommandFast (F := F) (byte :: rest) with
      | none =>
        rw [replayFrom_none _ _ _ _ parsed, replayFrom_none _ _ _ _ parsed]
        exact ih _ _ (by omega) _ (by omega)
      | some pair =>
        obtain ⟨command, consumed⟩ := pair
        obtain ⟨_, moved⟩ := parseCommandFast_star _ _ _ parsed
        rw [replayFrom_some _ _ _ _ _ parsed, replayFrom_some _ _ _ _ _ parsed]
        congr 1
        refine ih _ _ ?_ _ ?_ <;> simp only [List.length_drop, List.length_cons] <;> omega

@[simp] theorem replayAt_nil (pos : Nat) : replayAt (F := F) pos [] = [] := rfl

theorem replayAt_some (pos : Nat) (data : Bytes) (command : Command F) (consumed : Nat)
    (parsed : parseCommandFast data = some (command, consumed)) :
    replayAt pos data = ⟨pos, command, consumed⟩ :: replayAt (pos + consumed) (data.drop consumed) := by
  obtain ⟨star, moved⟩ := parseCommandFast_star _ _ _ parsed
  obtain ⟨length, size⟩ : ∃ n, data.length = n + 1 := by
    cases data with
    | nil => simp at star
    | cons byte rest => exact ⟨rest.length, rfl⟩
  rw [replayAt, size, replayFrom_some _ _ _ _ _ parsed,
    replayFrom_fuel _ _ _ (by simp only [List.length_drop]; omega)]

theorem replayAt_none (pos : Nat) (byte : Byte) (rest : Bytes)
    (stuck : parseCommandFast (F := F) (byte :: rest) = none) :
    replayAt (F := F) pos (byte :: rest) = replayAt (pos + 1) rest := by
  rw [replayAt, List.length_cons, replayFrom_none _ _ _ _ stuck]
  rfl

theorem replayAt_reads (pos : Nat) (text rest : Bytes) (command : Command F)
    (reads : Reads parseCommandFast text command) :
    replayAt pos (text ++ rest) =
      ⟨pos, command, text.length⟩ :: replayAt (pos + text.length) rest := by
  rw [replayAt_some _ _ _ _ (reads rest), List.drop_left]

-- No byte of `junk` begins a complete command in front of `rest`.
def Quiet (F : Type) [FloatText F] (junk rest : Bytes) : Prop :=
  ∀ i < junk.length, parseCommandFast (F := F) (junk.drop i ++ rest) = none

theorem quiet_cons (byte : Byte) (junk rest : Bytes) :
    Quiet F (byte :: junk) rest ↔
      parseCommandFast (F := F) (byte :: (junk ++ rest)) = none ∧ Quiet F junk rest := by
  constructor
  · intro quiet
    refine ⟨quiet 0 (by simp), fun i inside => ?_⟩
    simpa using quiet (i + 1) (by simpa using inside)
  · rintro ⟨first, later⟩ i inside
    cases i with
    | zero => exact first
    | succ i => simpa using later i (by simpa using inside)

theorem replayAt_quiet (pos : Nat) (junk rest : Bytes) (quiet : Quiet F junk rest) :
    replayAt (F := F) pos (junk ++ rest) = replayAt (pos + junk.length) rest := by
  induction junk generalizing pos with
  | nil => rfl
  | cons byte junk ih =>
    obtain ⟨first, later⟩ := (quiet_cons byte junk rest).mp quiet
    rw [List.cons_append, replayAt_none _ _ _ first, ih _ later, List.length_cons]
    congr 1
    omega

theorem replayAt_noisy (pos : Nat) (junk rest : Bytes) (noisy : ¬ Quiet F junk rest) :
    ∃ record ∈ replayAt (F := F) pos (junk ++ rest), record.offset < pos + junk.length := by
  induction junk generalizing pos with
  | nil => exact absurd (fun i inside => by simp at inside) noisy
  | cons byte junk ih =>
    rw [List.cons_append]
    cases parsed : parseCommandFast (F := F) (byte :: (junk ++ rest)) with
    | some pair =>
      rw [replayAt_some _ _ _ _ parsed]
      exact ⟨_, List.mem_cons_self, by simp⟩
    | none =>
      have later : ¬ Quiet F junk rest := fun quiet =>
        noisy ((quiet_cons byte junk rest).mpr ⟨parsed, quiet⟩)
      obtain ⟨record, member, inside⟩ := ih (pos + 1) later
      rw [replayAt_none _ _ _ parsed]
      exact ⟨record, member, by simp only [List.length_cons]; omega⟩

def recordsAt : Nat → List (PersistenceCommand F) → List (Record F)
  | _, [] => []
  | pos, entry :: entries =>
    ⟨pos, entry.command, entry.toResp.length⟩ :: recordsAt (pos + entry.toResp.length) entries

@[simp] theorem map_command_recordsAt (pos : Nat) (entries : List (PersistenceCommand F)) :
    (recordsAt pos entries).map Record.command = entries.map PersistenceCommand.command := by
  induction entries generalizing pos with
  | nil => rfl
  | cons entry entries ih => simp [recordsAt, ih]

@[simp] theorem map_consumed_recordsAt (pos : Nat) (entries : List (PersistenceCommand F)) :
    (recordsAt pos entries).map Record.consumed =
      entries.map fun entry => entry.toResp.length := by
  induction entries generalizing pos with
  | nil => rfl
  | cons entry entries ih => simp [recordsAt, ih]

theorem offset_recordsAt (pos : Nat) (entries : List (PersistenceCommand F)) :
    ∀ record ∈ recordsAt pos entries, pos ≤ record.offset := by
  induction entries generalizing pos with
  | nil => simp [recordsAt]
  | cons entry entries ih =>
    intro record member
    simp only [recordsAt, List.mem_cons] at member
    rcases member with rfl | member
    · exact Nat.le_refl _
    · have := ih _ _ member
      omega

@[simp] theorem log_nil : PersistenceCommand.log ([] : List (PersistenceCommand F)) = [] := rfl

@[simp] theorem log_cons (entry : PersistenceCommand F) (entries : List (PersistenceCommand F)) :
    PersistenceCommand.log (entry :: entries) = entry.toResp ++ PersistenceCommand.log entries := rfl

theorem replayAt_log (roundTrip : FloatText.RoundTrip F) (pos : Nat)
    (entries : List (PersistenceCommand F)) (sized : ∀ entry ∈ entries, entry.Enqueueable)
    (rest : Bytes) :
    replayAt pos (PersistenceCommand.log entries ++ rest) =
      recordsAt pos entries ++
        replayAt (pos + (PersistenceCommand.log entries).length) rest := by
  induction entries generalizing pos with
  | nil => simp [recordsAt]
  | cons entry entries ih =>
    have reads := PersistenceCommand.reads_toResp roundTrip entry (sized entry List.mem_cons_self)
    rw [log_cons, List.append_assoc, replayAt_reads _ _ _ _ reads,
      ih _ fun entry member => sized entry (List.mem_cons_of_mem _ member)]
    simp [recordsAt, Nat.add_assoc]

theorem replay_log (roundTrip : FloatText.RoundTrip F) (entries : List (PersistenceCommand F))
    (sized : ∀ entry ∈ entries, entry.Enqueueable) :
    (replayRecords (F := F) (PersistenceCommand.log entries)).map Record.command =
        entries.map PersistenceCommand.command ∧
      (replayRecords (F := F) (PersistenceCommand.log entries)).map Record.consumed =
        entries.map (fun entry => entry.toResp.length) ∧
      ((replayRecords (F := F) (PersistenceCommand.log entries)).map Record.consumed).sum =
        (PersistenceCommand.log entries).length := by
  have records : replayRecords (PersistenceCommand.log entries) = recordsAt 0 entries := by
    have whole := replayAt_log roundTrip 0 entries sized []
    simpa [replayRecords] using whole
  rw [records]
  refine ⟨map_command_recordsAt 0 entries, map_consumed_recordsAt 0 entries, ?_⟩
  rw [map_consumed_recordsAt, PersistenceCommand.log, List.length_flatMap]

-- A SET whose value holds a CRLF and a '*', and a VADD with a negative component.
def smallLog : List (PersistenceCommand Int) :=
  [.set ⟨ascii "k", validUtf8_k⟩ (ascii "\r\n*1"), .vAdd ⟨ascii "v", validUtf8_v⟩ [12, -3]]

theorem replay_log_small :
    (replayRecords (PersistenceCommand.log smallLog)).map Record.command =
      smallLog.map PersistenceCommand.command :=
  (replay_log roundTrip_int smallLog (by decide)).1

end OmegaDrive
