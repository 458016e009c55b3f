import Mathlib.Data.List.TakeWhile
import OmegaDrive.Resp.Command

set_option autoImplicit false

namespace OmegaDrive

open Cursor

theorem parseInt_line (digits rest : Bytes) (nonempty : digits ≠ [])
    (numeral : ∀ byte ∈ digits, Decimal.isDigit byte = true) :
    parseInt (digits ++ (crlf ++ rest)) = some (Decimal.wrappingValue digits, digits.length) := by
  have ends : Decimal.isDigit 13 = false := by decide
  have taken : (digits ++ (crlf ++ rest)).takeWhile Decimal.isDigit = digits := by
    rw [List.takeWhile_append_of_pos numeral]
    simp [crlf, ends]
  simp [parseInt, taken, nonempty]

theorem reads_parseLength (digits : Bytes) (nonempty : digits ≠ [])
    (numeral : ∀ byte ∈ digits, Decimal.isDigit byte = true) :
    Reads parseLength (digits ++ crlf) (Decimal.wrappingValue digits) := by
  intro rest
  rw [List.append_assoc, parseLength,
    bind_some _ _ _ _ _ (parseInt_line digits rest nonempty numeral), List.drop_left,
    bind_some _ _ _ _ _ (reads_literal crlf rest)]
  simp

-- A numeral alone is not self-delimiting: only the CRLF behind it fixes its last digit.
theorem parseLength_eq_some (buf : Bytes) (value : UInt32) (used : Nat)
    (run : parseLength buf = some (value, used)) :
    ∃ digits rest, digits ≠ [] ∧ (∀ byte ∈ digits, Decimal.isDigit byte = true) ∧
      buf = digits ++ crlf ++ rest ∧ used = (digits ++ crlf).length ∧
      value = Decimal.wrappingValue digits := by
  obtain ⟨number, count, more, scan, line, rfl⟩ := bind_eq_some _ _ _ _ _ run
  obtain ⟨u, lineUsed, last, ending, done, rfl⟩ := bind_eq_some _ _ _ _ _ line
  obtain ⟨rfl, rfl⟩ : number = value ∧ 0 = last := by simpa using done
  simp only [parseInt] at scan
  split at scan
  next => simp at scan
  next nonempty =>
    obtain ⟨rfl, rfl⟩ : Decimal.wrappingValue (buf.takeWhile Decimal.isDigit) = number ∧
        (buf.takeWhile Decimal.isDigit).length = count := by simpa using scan
    obtain ⟨rfl, rest, after⟩ := literal_eq_some _ _ _ _ ending
    have whole := List.take_append_drop (buf.takeWhile Decimal.isDigit).length buf
    rw [after, ← List.prefix_iff_eq_take.mp (List.takeWhile_prefix Decimal.isDigit)] at whole
    refine ⟨buf.takeWhile Decimal.isDigit, rest, nonempty, fun byte member => ?_, ?_, ?_, rfl⟩
    · exact List.mem_takeWhile_imp member
    · rw [List.append_assoc, whole]
    · simp

theorem selfDelimiting_parseLength : SelfDelimiting parseLength := by
  apply selfDelimiting_of_reads
  intro buf value used run
  obtain ⟨digits, rest, nonempty, numeral, rfl, rfl, rfl⟩ := parseLength_eq_some _ _ _ run
  exact ⟨digits ++ crlf, rest, rfl, rfl, reads_parseLength digits nonempty numeral⟩

theorem selfDelimiting_slice (length : Nat) : SelfDelimiting (slice length) := by
  intro buf value used run
  simp only [slice] at run
  split at run
  next bound =>
    obtain ⟨rfl, rfl⟩ : buf.take length = value ∧ length = used := by simpa using run
    refine ⟨bound, fun rest => ?_⟩
    have fits : length ≤ (buf.take length ++ rest).length := by simp; omega
    simp only [slice, fits, if_true]
    rw [List.take_append_of_le_length (by simp [bound]), List.take_take, Nat.min_self]
  next => simp at run

theorem selfDelimiting_parseBulkStr : SelfDelimiting parseBulkStr :=
  (selfDelimiting_literal _).bind fun _ =>
    selfDelimiting_parseLength.bind fun _ =>
      (selfDelimiting_slice _).bind fun _ =>
        (selfDelimiting_literal _).bind fun _ => selfDelimiting_pure _

section Arguments

variable {F : Type}

theorem selfDelimiting_parseStr : SelfDelimiting parseStr :=
  selfDelimiting_parseBulkStr.bind fun _ => selfDelimiting_lift _

theorem selfDelimiting_parseSet : SelfDelimiting (parseSet : Cursor Byte (Command F)) :=
  selfDelimiting_parseBulkStr.bind fun _ =>
    selfDelimiting_parseBulkStr.bind fun _ =>
      (selfDelimiting_lift _).bind fun _ => selfDelimiting_pure _

theorem selfDelimiting_parseField : SelfDelimiting parseField :=
  selfDelimiting_parseBulkStr.bind fun _ =>
    selfDelimiting_parseBulkStr.bind fun _ =>
      (selfDelimiting_lift _).bind fun _ => selfDelimiting_pure _

theorem selfDelimiting_parseHmSet (numArgs : Nat) :
    SelfDelimiting (parseHmSet numArgs : Cursor Byte (Command F)) :=
  selfDelimiting_parseBulkStr.bind fun _ =>
    (selfDelimiting_parseField.times _).bind fun _ =>
      (selfDelimiting_lift _).bind fun _ => selfDelimiting_pure _

theorem selfDelimiting_parseSelect : SelfDelimiting (parseSelect : Cursor Byte (Command F)) :=
  selfDelimiting_parseStr.bind fun _ =>
    (selfDelimiting_lift _).bind fun _ => selfDelimiting_pure _

theorem selfDelimiting_parseKeyed (command : Str → Command F) :
    SelfDelimiting (parseKeyed command) :=
  selfDelimiting_parseStr.bind fun _ => selfDelimiting_pure _

theorem selfDelimiting_atLeast (least numArgs : Nat) (branch : Cursor Byte (Command F))
    (stable : SelfDelimiting branch) : SelfDelimiting (atLeast least numArgs branch) :=
  (selfDelimiting_require _).bind fun _ => stable

variable [FloatText F]

theorem selfDelimiting_parseFloat : SelfDelimiting (parseFloat : Cursor Byte F) :=
  selfDelimiting_parseStr.bind fun _ => selfDelimiting_lift _

theorem selfDelimiting_parseVAdd (numArgs : Nat) :
    SelfDelimiting (parseVAdd numArgs : Cursor Byte (Command F)) :=
  selfDelimiting_parseBulkStr.bind fun _ =>
    (selfDelimiting_parseFloat.times _).bind fun _ =>
      (selfDelimiting_lift _).bind fun _ => selfDelimiting_pure _

theorem selfDelimiting_parseVSearch (numArgs : Nat) :
    SelfDelimiting (parseVSearch numArgs : Cursor Byte (Command F)) :=
  selfDelimiting_parseStr.bind fun _ =>
    (selfDelimiting_lift _).bind fun _ =>
      (selfDelimiting_parseFloat.times _).bind fun _ => selfDelimiting_pure _

theorem selfDelimiting_parseArguments (numArgs : Nat) (word : Keyword) :
    SelfDelimiting (parseArguments numArgs word : Cursor Byte (Command F)) := by
  cases word with
  | ping | mget | mset | save | bgsave | flushdb | info => exact selfDelimiting_pure _
  | set => exact selfDelimiting_atLeast _ _ _ selfDelimiting_parseSet
  | get | del | hgetall | zadd => exact selfDelimiting_atLeast _ _ _ (selfDelimiting_parseKeyed _)
  | select => exact selfDelimiting_atLeast _ _ _ selfDelimiting_parseSelect
  | hmset => exact selfDelimiting_atLeast _ _ _ (selfDelimiting_parseHmSet _)
  | vadd => exact selfDelimiting_atLeast _ _ _ (selfDelimiting_parseVAdd _)
  | vsearch => exact selfDelimiting_atLeast _ _ _ (selfDelimiting_parseVSearch _)

theorem selfDelimiting_parseNamed (numArgs : Nat) (name : Str) :
    SelfDelimiting (parseNamed numArgs name : Cursor Byte (Command F)) := by
  unfold parseNamed
  cases keyword name with
  | none => exact selfDelimiting_pure _
  | some word => exact selfDelimiting_parseArguments numArgs word

theorem selfDelimiting_parseCommandFast :
    SelfDelimiting (parseCommandFast : Cursor Byte (Command F)) :=
  (selfDelimiting_literal _).bind fun _ =>
    selfDelimiting_parseLength.bind fun _ =>
      (selfDelimiting_require _).bind fun _ =>
        selfDelimiting_parseBulkStr.bind fun _ =>
          (selfDelimiting_lift _).bind fun _ => selfDelimiting_parseNamed _ _

theorem parseCommandFast_star (buf : Bytes) (command : Command F) (used : Nat)
    (run : parseCommandFast buf = some (command, used)) :
    buf.head? = some 42 ∧ 0 < used := by
  obtain ⟨_, one, more, star, _, rfl⟩ := bind_eq_some _ _ _ _ _ run
  obtain ⟨rfl, rest, rfl⟩ := literal_eq_some _ _ _ _ star
  exact ⟨rfl, Nat.add_pos_left (by decide) _⟩

end Arguments

end OmegaDrive
