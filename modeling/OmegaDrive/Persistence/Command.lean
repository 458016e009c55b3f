import OmegaDrive.Resp.RoundTrip

set_option autoImplicit false

namespace OmegaDrive

open Cursor

inductive PersistenceCommand (F : Type) where
  | set (key : Str) (value : Bytes)
  | del (key : Str)
  | hmSet (key : Str) (fields : List (Str × Bytes))
  | vAdd (key : Str) (floats : List F)
  | flushDb
  deriving DecidableEq

namespace PersistenceCommand

variable {F : Type}

def command : PersistenceCommand F → Command F
  | .set key value => .set key value
  | .del key => .del key
  | .hmSet key fields => .hmSet key fields
  | .vAdd key floats => .vAdd key floats
  | .flushDb => .flushDb

variable [FloatText F]

def toResp : PersistenceCommand F → Bytes
  | .set key value =>
      ascii "*3\r\n$3\r\nSET\r\n" ++ makeBulkString key.bytes ++ makeBulkString value
  | .del key => ascii "*2\r\n$3\r\nDEL\r\n" ++ makeBulkString key.bytes
  | .hmSet key fields =>
      arrayHeader (2 + fields.length * 2) ++ ascii "$5\r\nHMSET\r\n" ++
        makeBulkString key.bytes ++ fields.flatMap fieldText
  | .vAdd key floats =>
      arrayHeader (2 + floats.length) ++ ascii "$4\r\nVADD\r\n" ++
        makeBulkString key.bytes ++ floats.flatMap floatText
  | .flushDb => ascii "*1\r\n$7\r\nFLUSHDB\r\n"

def log (commands : List (PersistenceCommand F)) : Bytes := commands.flatMap toResp

/-- What the parser guarantees of the commands the handlers send: its lengths and its argument count
are 32-bit numbers, HMSET has a pair and VADD a float. -/
def Enqueueable : PersistenceCommand F → Prop
  | .set key value => key.bytes.length < 2 ^ 32 ∧ value.length < 2 ^ 32
  | .del key => key.bytes.length < 2 ^ 32
  | .hmSet key fields =>
      key.bytes.length < 2 ^ 32 ∧ 0 < fields.length ∧ 2 + fields.length * 2 < 2 ^ 32 ∧
        ∀ field ∈ fields, field.1.bytes.length < 2 ^ 32 ∧ field.2.length < 2 ^ 32
  | .vAdd key floats =>
      key.bytes.length < 2 ^ 32 ∧ 0 < floats.length ∧ 2 + floats.length < 2 ^ 32 ∧
        ∀ f ∈ floats, (FloatText.toStr f).bytes.length < 2 ^ 32
  | .flushDb => True

instance (record : PersistenceCommand F) : Decidable record.Enqueueable :=
  match record with
  | .set _ _ => inferInstanceAs (Decidable (_ ∧ _))
  | .del _ => inferInstanceAs (Decidable (_ < _))
  | .hmSet _ _ => inferInstanceAs (Decidable (_ ∧ _ ∧ _ ∧ _))
  | .vAdd _ _ => inferInstanceAs (Decidable (_ ∧ _ ∧ _ ∧ _))
  | .flushDb => inferInstanceAs (Decidable True)

theorem reads_toResp (roundTrip : FloatText.RoundTrip F) (record : PersistenceCommand F)
    (sized : record.Enqueueable) : Reads parseCommandFast record.toResp record.command := by
  cases record with
  | set key value =>
    obtain ⟨keyBound, valueBound⟩ := sized
    have reads := reads_parseCommandFast 3 (by decide) (by decide)
      ⟨ascii "SET", by decide⟩ (by decide) _ (.set key value : Command F)
      (reads_keyword 3 _ .set (by decide) _ _ (reads_atLeast 3 3 (by decide) _ _ _
        (reads_parseSet key value keyBound valueBound)))
    have header : arrayHeader 3 ++ makeBulkString (ascii "SET") =
        ascii "*3\r\n$3\r\nSET\r\n" := by decide
    simpa [toResp, command, ← header] using reads
  | del key =>
    have reads := reads_parseCommandFast 2 (by decide) (by decide)
      ⟨ascii "DEL", by decide⟩ (by decide) _ (.del key : Command F)
      (reads_keyword 2 _ .del (by decide) _ _ (reads_atLeast 2 2 (by decide) _ _ _
        (reads_parseKeyed (F := F) .del key sized)))
    have header : arrayHeader 2 ++ makeBulkString (ascii "DEL") =
        ascii "*2\r\n$3\r\nDEL\r\n" := by decide
    simpa [toResp, command, ← header] using reads
  | hmSet key fields =>
    obtain ⟨keyBound, nonempty, fits, bounds⟩ := sized
    have reads := reads_parseCommandFast (2 + fields.length * 2) (by omega) fits
      ⟨ascii "HMSET", by decide⟩ (by decide) _ (.hmSet key fields : Command F)
      (reads_keyword _ _ .hmset (by decide) _ _ (reads_atLeast 4 _ (by omega) _ _ _
        (reads_parseHmSet (F := F) key fields keyBound bounds)))
    have name : makeBulkString (ascii "HMSET") = ascii "$5\r\nHMSET\r\n" := by decide
    simpa [toResp, command, ← name] using reads
  | vAdd key floats =>
    obtain ⟨keyBound, nonempty, fits, bounds⟩ := sized
    have reads := reads_parseCommandFast (2 + floats.length) (by omega) fits
      ⟨ascii "VADD", by decide⟩ (by decide) _ _
      (reads_keyword _ _ .vadd (by decide) _ _ (reads_atLeast 3 _ (by omega) _ _ _
        (reads_parseVAdd roundTrip key floats keyBound bounds)))
    have name : makeBulkString (ascii "VADD") = ascii "$4\r\nVADD\r\n" := by decide
    simpa [toResp, command, ← name] using reads
  | flushDb =>
    have reads := reads_parseCommandFast 1 (by decide) (by decide)
      ⟨ascii "FLUSHDB", by decide⟩ (by decide) [] (.flushDb : Command F)
      (reads_keyword 1 _ .flushdb (by decide) _ _ (reads_pure _))
    have whole : arrayHeader 1 ++ makeBulkString (ascii "FLUSHDB") =
        ascii "*1\r\n$7\r\nFLUSHDB\r\n" := by decide
    simpa [toResp, command, ← whole] using reads

end PersistenceCommand

end OmegaDrive
