import Mathlib.Data.List.Forall2
import OmegaDrive.Resp.Stability

set_option autoImplicit false

namespace OmegaDrive

open Cursor

theorem reads_length (n : Nat) : Reads parseLength (Decimal.text n ++ crlf) (UInt32.ofNat n) := by
  have reads := reads_parseLength (Decimal.text n) (Decimal.text_ne_nil n) (Decimal.digits_text n)
  rwa [Decimal.wrappingValue_eq, Decimal.value_text] at reads

theorem reads_slice (data : Bytes) : Reads (slice data.length) data data := by
  intro rest
  simp [slice]

theorem yields_slice (length : Nat) : Yields (slice length) fun data => data.length = length := by
  intro buf data used run
  simp only [slice] at run
  split at run
  next enough =>
    obtain ⟨rfl, _⟩ : buf.take length = data ∧ length = used := by simpa using run
    rw [List.length_take, Nat.min_eq_left enough]
  next => cases run

theorem spells_slice (length : Nat) : Spells (slice length) id := by
  intro buf data used read
  simp only [slice] at read
  split at read
  next enough =>
    obtain ⟨rfl, rfl⟩ : buf.take length = data ∧ length = used := by simpa using read
    exact (List.take_append_drop length buf).symm
  next => simp at read

theorem reads_parseBulkStr (data : Bytes) (bound : data.length < 2 ^ 32) :
    Reads parseBulkStr (makeBulkString data) data := by
  have fits : (UInt32.ofNat data.length).toNat = data.length :=
    UInt32.toNat_ofNat_of_lt' bound
  have body : Reads (slice (UInt32.ofNat data.length).toNat) data data := by
    rw [fits]
    exact reads_slice data
  have reads : Reads parseBulkStr
      (ascii "$" ++ ((Decimal.text data.length ++ crlf) ++ (data ++ (crlf ++ [])))) data :=
    (reads_literal _).bind
      ((reads_length _).bind (body.bind ((reads_literal _).bind (reads_pure data))))
  simpa [makeBulkString] using reads

theorem reads_fromUtf8 (s : Str) : Reads (lift (Str.fromUtf8 s.bytes) : Cursor Byte Str) [] s := by
  rw [Str.fromUtf8_bytes]
  exact reads_lift s

theorem reads_parseStr (s : Str) (bound : s.bytes.length < 2 ^ 32) :
    Reads parseStr (makeBulkString s.bytes) s := by
  have reads : Reads parseStr (makeBulkString s.bytes ++ []) s :=
    (reads_parseBulkStr s.bytes bound).bind (reads_fromUtf8 s)
  simpa using reads

def fieldText (field : Str × Bytes) : Bytes :=
  makeBulkString field.1.bytes ++ makeBulkString field.2

theorem reads_parseField (field : Str × Bytes) (keyBound : field.1.bytes.length < 2 ^ 32)
    (valueBound : field.2.length < 2 ^ 32) : Reads parseField (fieldText field) field := by
  have reads : Reads parseField
      (makeBulkString field.1.bytes ++ (makeBulkString field.2 ++ ([] ++ []))) field :=
    (reads_parseBulkStr field.1.bytes keyBound).bind
      ((reads_parseBulkStr field.2 valueBound).bind
        ((reads_fromUtf8 field.1).bind (reads_pure (field.1, field.2))))
  simpa [fieldText] using reads

theorem reads_times_map {α : Type} (reader : Cursor Byte α) (text : α → Bytes) (values : List α)
    (each : ∀ value ∈ values, Reads reader (text value) value) :
    Reads (times reader values.length) (values.flatMap text) values := by
  have pairs : List.Forall₂ (Reads reader) (values.map text) values := by
    rw [List.forall₂_map_left_iff, List.forall₂_same]
    exact each
  rw [List.flatMap_def]
  exact Reads.times _ _ pairs

variable {F : Type}

theorem reads_atLeast (least numArgs : Nat) (enough : least ≤ numArgs)
    (branch : Cursor Byte (Command F)) (text : Bytes) (command : Command F)
    (reads : Reads branch text command) : Reads (atLeast least numArgs branch) text command := by
  have both : Reads (atLeast least numArgs branch) ([] ++ text) command :=
    (reads_require _ (decide_eq_true enough)).bind reads
  simpa using both

theorem reads_parseSet (key : Str) (value : Bytes) (keyBound : key.bytes.length < 2 ^ 32)
    (valueBound : value.length < 2 ^ 32) :
    Reads (parseSet : Cursor Byte (Command F))
      (makeBulkString key.bytes ++ makeBulkString value) (.set key value) := by
  have reads : Reads (parseSet : Cursor Byte (Command F))
      (makeBulkString key.bytes ++ (makeBulkString value ++ ([] ++ []))) (.set key value) :=
    (reads_parseBulkStr key.bytes keyBound).bind
      ((reads_parseBulkStr value valueBound).bind ((reads_fromUtf8 key).bind (reads_pure _)))
  simpa using reads

theorem reads_parseKeyed (command : Str → Command F) (key : Str)
    (bound : key.bytes.length < 2 ^ 32) :
    Reads (parseKeyed command) (makeBulkString key.bytes) (command key) := by
  have reads : Reads (parseKeyed command) (makeBulkString key.bytes ++ []) (command key) :=
    (reads_parseStr key bound).bind (reads_pure (command key))
  simpa using reads

theorem reads_parseHmSet (key : Str) (fields : List (Str × Bytes))
    (keyBound : key.bytes.length < 2 ^ 32)
    (bounds : ∀ field ∈ fields, field.1.bytes.length < 2 ^ 32 ∧ field.2.length < 2 ^ 32) :
    Reads (parseHmSet (2 + fields.length * 2) : Cursor Byte (Command F))
      (makeBulkString key.bytes ++ fields.flatMap fieldText) (.hmSet key fields) := by
  have count : (2 + fields.length * 2 - 2) / 2 = fields.length := by omega
  have loop : Reads (times parseField ((2 + fields.length * 2 - 2) / 2))
      (fields.flatMap fieldText) fields := by
    rw [count]
    exact reads_times_map parseField fieldText fields fun field member =>
      reads_parseField field (bounds field member).1 (bounds field member).2
  have reads : Reads (parseHmSet (2 + fields.length * 2) : Cursor Byte (Command F))
      (makeBulkString key.bytes ++ (fields.flatMap fieldText ++ ([] ++ []))) (.hmSet key fields) :=
    (reads_parseBulkStr key.bytes keyBound).bind
      (loop.bind ((reads_fromUtf8 key).bind (reads_pure _)))
  simpa using reads

variable [FloatText F]

def floatText (f : F) : Bytes := makeBulkString (FloatText.toStr f).bytes

theorem reads_parseFloat (roundTrip : FloatText.RoundTrip F) (f : F)
    (bound : (FloatText.toStr f).bytes.length < 2 ^ 32) :
    Reads parseFloat (floatText f) f := by
  have parsed : Reads (lift (FloatText.parse (FloatText.toStr f)) : Cursor Byte F) [] f := by
    rw [roundTrip f]
    exact reads_lift f
  have reads : Reads parseFloat (floatText f ++ []) f :=
    (reads_parseStr (FloatText.toStr f) bound).bind parsed
  simpa using reads

theorem reads_parseVAdd (roundTrip : FloatText.RoundTrip F) (key : Str) (floats : List F)
    (keyBound : key.bytes.length < 2 ^ 32)
    (bounds : ∀ f ∈ floats, (FloatText.toStr f).bytes.length < 2 ^ 32) :
    Reads (parseVAdd (2 + floats.length))
      (makeBulkString key.bytes ++ floats.flatMap floatText) (.vAdd key floats) := by
  have count : 2 + floats.length - 2 = floats.length := by omega
  have loop : Reads (times parseFloat (2 + floats.length - 2))
      (floats.flatMap floatText) floats := by
    rw [count]
    exact reads_times_map parseFloat floatText floats fun f member =>
      reads_parseFloat roundTrip f (bounds f member)
  have reads : Reads (parseVAdd (2 + floats.length))
      (makeBulkString key.bytes ++ (floats.flatMap floatText ++ ([] ++ []))) (.vAdd key floats) :=
    (reads_parseBulkStr key.bytes keyBound).bind
      (loop.bind ((reads_fromUtf8 key).bind (reads_pure _)))
  simpa using reads

theorem reads_keyword (numArgs : Nat) (name : Str) (word : Keyword) (found : keyword name = some word)
    (text : Bytes) (command : Command F)
    (branch : Reads (parseArguments numArgs word) text command) :
    Reads (parseNamed numArgs name) text command := by
  rw [parseNamed, found]
  exact branch

theorem reads_parseCommandFast (numArgs : Nat) (positive : 0 < numArgs)
    (fits : numArgs < 2 ^ 32) (name : Str) (nameBound : name.bytes.length < 2 ^ 32)
    (arguments : Bytes) (command : Command F)
    (branch : Reads (parseNamed numArgs name) arguments command) :
    Reads parseCommandFast (arrayHeader numArgs ++ (makeBulkString name.bytes ++ arguments))
      command := by
  have count : (UInt32.ofNat numArgs).toNat = numArgs := UInt32.toNat_ofNat_of_lt' fits
  have nonzero : (decide (UInt32.ofNat numArgs ≠ 0)) = true := by
    apply decide_eq_true
    intro zero
    have := congrArg UInt32.toNat zero
    rw [count] at this
    simp at this
    omega
  have last : Reads (parseNamed (UInt32.ofNat numArgs).toNat name) arguments command := by
    rw [count]
    exact branch
  have reads : Reads parseCommandFast
      (ascii "*" ++ ((Decimal.text numArgs ++ crlf) ++
        ([] ++ (makeBulkString name.bytes ++ ([] ++ arguments))))) command :=
    (reads_literal _).bind ((reads_length numArgs).bind ((reads_require _ nonzero).bind
      ((reads_parseBulkStr name.bytes nameBound).bind ((reads_fromUtf8 name).bind last))))
  simpa [arrayHeader] using reads

end OmegaDrive
