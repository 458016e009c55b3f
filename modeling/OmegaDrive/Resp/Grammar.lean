import OmegaDrive.Resp.Frames

set_option autoImplicit false

namespace OmegaDrive

open Cursor

theorem parseCommandFast_delimited {F : Type} [FloatText F] (buf : Bytes) (command : Command F)
    (used : Nat) (run : parseCommandFast buf = some (command, used)) :
    (0 < used ∧ used ≤ buf.length) ∧
      (∀ cut < used, parseCommandFast (F := F) (buf.take cut) = none) ∧
      ∀ rest, parseCommandFast (buf.take used ++ rest) = some (command, used) := by
  have stable : SelfDelimiting (parseCommandFast (F := F)) := selfDelimiting_parseCommandFast
  obtain ⟨_, positive⟩ := parseCommandFast_star buf command used run
  obtain ⟨bound, continued⟩ := stable _ _ _ run
  exact ⟨⟨positive, bound⟩, fun cut short => stable.truncated _ _ _ _ run short, continued⟩

theorem ping_delimited :
    parseCommandFast (F := Int) (ascii "*1\r\n$4\r\nPING\r\n+") = some (.ping, 14) ∧
      parseCommandFast (F := Int) ((ascii "*1\r\n$4\r\nPING\r\n+").take 13) = none := by
  have run : parseCommandFast (F := Int) (ascii "*1\r\n$4\r\nPING\r\n+") = some (.ping, 14) := by
    decide +kernel
  have delimited := parseCommandFast_delimited _ _ _ run
  exact ⟨run, delimited.2.1 13 (by decide)⟩

-- `count` bytes and their CRLF stand at the front.
def Complete (count : Nat) (buf : Bytes) : Prop :=
  ∃ data rest, data.length = count ∧ buf = data ++ crlf ++ rest

/-- A bulk string whose numeral does not fit 32 bits, with all the bytes that its value asks for, or
all that the value asks for once it has wrapped around. -/
def Overflows (buf : Bytes) : Prop :=
  ∃ digits rest, digits ≠ [] ∧ (∀ byte ∈ digits, Decimal.isDigit byte = true) ∧
    buf = ascii "$" ++ (digits ++ crlf) ++ rest ∧ 2 ^ 32 ≤ Decimal.value digits ∧
    (Complete (Decimal.value digits) rest ∨ Complete (Decimal.value digits % 2 ^ 32) rest)

def ReadsBulk (buf : Bytes) : Prop :=
  ∀ data used, parseBulkStr buf = some (data, used) ↔
    ∃ bulk : BulkString, bulk.data = data ∧ used = bulk.text.length ∧ bulk.text <+: buf

theorem digits_unique (digits other rest more : Bytes)
    (numeral : ∀ byte ∈ digits, Decimal.isDigit byte = true) (nonempty : digits ≠ [])
    (numeral' : ∀ byte ∈ other, Decimal.isDigit byte = true) (nonempty' : other ≠ [])
    (same : digits ++ crlf ++ rest = other ++ crlf ++ more) : digits = other := by
  have first := reads_parseLength digits nonempty numeral rest
  have second := reads_parseLength other nonempty' numeral' more
  rw [same, second] at first
  have lengths := congrArg Prod.snd (Option.some.inj first)
  simp only [List.length_append] at lengths
  rw [List.append_assoc, List.append_assoc] at same
  exact (List.append_inj same (by omega)).1

theorem wrappingValue_toNat (digits : Bytes) :
    (Decimal.wrappingValue digits).toNat = Decimal.value digits % 2 ^ 32 := by
  rw [Decimal.wrappingValue_eq, UInt32.toNat_ofNat']

theorem BulkString.text_eq (bulk : BulkString) :
    bulk.text = ascii "$" ++ (bulk.length.digits ++ crlf) ++ (bulk.data ++ crlf) := rfl

theorem BulkString.complete (bulk : BulkString) (rest : Bytes) :
    Complete (Decimal.value bulk.length.digits) (bulk.data ++ crlf ++ rest) :=
  ⟨bulk.data, rest, bulk.length.value.symm, rfl⟩

theorem BulkFrame.complete (frame : BulkFrame) (rest : Bytes) :
    Complete (Decimal.value frame.digits % 2 ^ 32) (frame.data ++ crlf ++ rest) :=
  ⟨frame.data, rest, by rw [← frame.length, wrappingValue_toNat], rfl⟩

-- A frame whose numeral fits 32 bits is the bulk string of its data.
def BulkFrame.bulk (frame : BulkFrame) (fits : Decimal.value frame.digits < 2 ^ 32) : BulkString where
  data := frame.data
  length := ⟨frame.digits, frame.nonempty, frame.decimal, by
    rw [← frame.length, wrappingValue_toNat, Nat.mod_eq_of_lt fits]⟩

theorem readsBulk_of_not_overflows (buf : Bytes) (fits : ¬Overflows buf) : ReadsBulk buf := by
  intro data used
  constructor
  · intro run
    obtain ⟨frame, rfl, rest, rfl⟩ := BulkFrame.parseBulkStr_eq_some buf data used run
    have small : Decimal.value frame.digits < 2 ^ 32 := by
      by_contra large
      apply fits
      refine ⟨frame.digits, frame.data ++ crlf ++ rest, frame.nonempty, frame.decimal, ?_,
        Nat.le_of_not_lt large, .inr (frame.complete rest)⟩
      simp [BulkFrame.text]
    rw [frame.reads_text] at run
    obtain rfl : frame.text.length = used := congrArg Prod.snd (Option.some.inj run)
    exact ⟨frame.bulk small, rfl, rfl, rest, rfl⟩
  · rintro ⟨bulk, rfl, rfl, rest, rfl⟩
    have sized : bulk.Sized := by
      by_contra large
      apply fits
      refine ⟨bulk.length.digits, bulk.data ++ crlf ++ rest, bulk.length.nonempty,
        bulk.length.decimal, ?_, ?_, .inl (bulk.complete rest)⟩
      · simp [BulkString.text]
      · rw [bulk.length.value]
        exact Nat.le_of_not_lt large
    exact bulk.reads_text sized rest

theorem not_readsBulk_of_overflows (buf : Bytes) (overflows : Overflows buf) : ¬ReadsBulk buf := by
  intro reads
  obtain ⟨digits, rest, nonempty, numeral, rfl, large, stands⟩ := overflows
  rcases stands with ⟨data, behind, length, rfl⟩ | ⟨data, behind, length, rfl⟩
  · let bulk : BulkString := ⟨data, digits, nonempty, numeral, length.symm⟩
    have run := (reads data bulk.text.length).mpr ⟨bulk, rfl, rfl, behind, by simp [bulk, BulkString.text]⟩
    obtain ⟨frame, rfl, _⟩ := BulkFrame.parseBulkStr_eq_some _ _ _ run
    have short : frame.data.length < 2 ^ 32 := by
      rw [← frame.length]
      exact UInt32.toNat_lt _
    omega
  · let frame : BulkFrame :=
      ⟨digits, nonempty, numeral, data, by rw [wrappingValue_toNat, length]⟩
    have run := frame.reads_text behind
    have written : frame.text ++ behind = ascii "$" ++ (digits ++ crlf) ++ (data ++ crlf ++ behind) := by
      simp [frame, BulkFrame.text]
    rw [written] at run
    obtain ⟨bulk, same, _, more, stands⟩ := (reads _ _).mp run
    have equal : digits = bulk.length.digits := by
      refine digits_unique digits bulk.length.digits (data ++ crlf ++ behind)
        (bulk.data ++ crlf ++ more) numeral nonempty bulk.length.decimal bulk.length.nonempty ?_
      rw [BulkString.text_eq] at stands
      simpa [ascii] using stands.symm
    have value := bulk.length.value
    rw [← equal, same, length] at value
    have bounded : Decimal.value digits % 2 ^ 32 < 2 ^ 32 := Nat.mod_lt _ (by decide)
    omega

theorem parseBulkStr_iff (buf : Bytes) (pos : Nat) :
    (∀ data used, parseBulkStr (buf.drop pos) = some (data, used) ↔
      ∃ bulk : BulkString, bulk.data = data ∧ used = bulk.text.length ∧
        bulk.text <+: buf.drop pos) ↔ ¬Overflows (buf.drop pos) := by
  constructor
  · intro reads overflows
    exact not_readsBulk_of_overflows _ overflows reads
  · exact readsBulk_of_not_overflows _

-- The numeral of 2^32 + 1 asks for one byte.
theorem bulkStr_wraps : ¬∀ (buf : Bytes) (pos : Nat) (data : Bytes) (used : Nat),
    parseBulkStr (buf.drop pos) = some (data, used) ↔
      ∃ bulk : BulkString, bulk.data = data ∧ used = bulk.text.length ∧
        bulk.text <+: buf.drop pos := by
  intro reads
  have overflows : Overflows (ascii "$4294967297\r\na\r\n") := by
    refine ⟨ascii "4294967297", ascii "a\r\n", by decide, ?_, rfl, by decide +kernel, .inr ?_⟩
    · exact List.all_eq_true.mp (by decide)
    · exact ⟨ascii "a", [], by decide +kernel, rfl⟩
  exact not_readsBulk_of_overflows _ overflows (reads (ascii "$4294967297\r\na\r\n") 0)

end OmegaDrive
