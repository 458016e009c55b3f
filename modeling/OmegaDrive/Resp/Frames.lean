import OmegaDrive.Resp.Array
import OmegaDrive.Resp.WholeFloat
import OmegaDrive.Shared.Pieces

set_option autoImplicit false

namespace OmegaDrive

open Cursor

namespace BulkFrame

theorem parseBulkStr_eq_some (buf data : Bytes) (used : Nat)
    (run : parseBulkStr buf = some (data, used)) :
    ∃ bulk : BulkFrame, bulk.data = data ∧ ∃ rest, buf = bulk.text ++ rest := by
  obtain ⟨_, _, _, dollar, run, _⟩ := bind_eq_some _ _ _ _ _ run
  obtain ⟨rfl, afterDollar, rfl⟩ := literal_eq_some _ _ _ _ dollar
  rw [List.drop_left] at run
  obtain ⟨argLen, _, _, number, run, _⟩ := bind_eq_some _ _ _ _ _ run
  obtain ⟨digits, afterNumber, nonempty, decimal, rfl, rfl, rfl⟩ :=
    parseLength_eq_some _ _ _ number
  rw [List.drop_left] at run
  obtain ⟨taken, _, _, sliced, run, _⟩ := bind_eq_some _ _ _ _ _ run
  simp only [slice] at sliced
  split at sliced
  next enough =>
    obtain ⟨rfl, rfl⟩ := Prod.mk.inj (Option.some.inj sliced)
    obtain ⟨_, _, _, ending, run, _⟩ := bind_eq_some _ _ _ _ _ run
    obtain ⟨_, rest, after⟩ := literal_eq_some _ _ _ _ ending
    obtain ⟨rfl, _⟩ := Prod.mk.inj (Option.some.inj run)
    refine ⟨⟨digits, nonempty, decimal, afterNumber.take _, ?_⟩, rfl, rest, ?_⟩
    · rw [List.length_take, Nat.min_eq_left enough]
    · have whole := List.take_append_drop (Decimal.wrappingValue digits).toNat afterNumber
      rw [after] at whole
      conv_lhs => rw [← whole]
      simp only [text, List.append_assoc]
  next => cases sliced

theorem decodes_parseBulkStr :
    Decodes text parseBulkStr 1 fun args => args.head?.map data := by
  constructor
  · intro args one rest
    obtain ⟨bulk, rfl⟩ := List.length_eq_one_iff.mp one
    simpa using bulk.reads_text rest
  · intro buf data used run
    obtain ⟨bulk, rfl, rest, rfl⟩ := parseBulkStr_eq_some buf data used run
    exact ⟨[bulk], rest, rfl, by simp, rfl⟩

end BulkFrame

theorem isSome_bind_some {α β : Type} (first : Option α) (next : α → β) :
    (first.bind fun value => some (next value)).isSome = first.isSome := by
  cases first <;> rfl

theorem isSome_bind_and {α β : Type} (first : Option α) (next : α → Option β) (rest : Prop)
    (each : ∀ value, (next value).isSome ↔ rest) :
    (first.bind next).isSome ↔ first.isSome ∧ rest := by
  cases first with
  | none => simp
  | some value => simp [each value]

theorem fromUtf8_isSome (data : Bytes) :
    (Str.fromUtf8 data).isSome ↔ validUtf8 data = true := by
  unfold Str.fromUtf8
  split <;> simp [*]

def IsUnsigned (bound : Nat) (data : Bytes) : Prop :=
  ((Str.fromUtf8 data).bind fun text => text.parseUnsigned bound).isSome

def IsFloat (F : Type) [FloatText F] (data : Bytes) : Prop :=
  ((Str.fromUtf8 data).bind fun text => FloatText.parse (F := F) text).isSome

namespace Keyword

/-- How many arguments the parser itself reads: MSET and MGET leave theirs to the connection. -/
def read (numArgs : Nat) : Keyword → Nat
  | .mget | .mset => 0
  | word => word.taken numArgs

theorem read_lt (word : Keyword) (numArgs : Nat) (enough : word.least ≤ numArgs) :
    word.read numArgs < numArgs := by
  have fewer : word.read numArgs ≤ word.taken numArgs := by
    cases word <;> simp [read]
  have inside := word.taken_le numArgs enough
  omega

def Readable (F : Type) [FloatText F] : Keyword → List Bytes → Prop
  | .set, args | .get, args | .del, args | .hgetall, args | .zadd, args =>
    ∀ key ∈ args.head?, validUtf8 key = true
  | .select, args => ∀ index ∈ args.head?, IsUnsigned (2 ^ 8) index
  | .hmset, args =>
    (∀ key ∈ args.head?, validUtf8 key = true) ∧ ∀ i, ∀ name ∈ args[i * 2 + 1]?, validUtf8 name = true
  | .vadd, args =>
    (∀ key ∈ args.head?, validUtf8 key = true) ∧ ∀ text ∈ args.tail, IsFloat F text
  | .vsearch, args =>
    (∀ k ∈ args.head?, IsUnsigned (2 ^ 64) k) ∧ ∀ text ∈ args.tail, IsFloat F text
  | _, _ => True

end Keyword

-- The reader takes `count` bulk strings, and answers when their data is as asked.
def Accepts {α : Type} (reader : Cursor Byte α) (count : Nat) (ok : List Bytes → Prop) : Prop :=
  ∃ decode, Decodes BulkFrame.text reader count decode ∧
    ∀ args, args.length = count → ((decode args).isSome ↔ ok (args.map BulkFrame.data))

section Branches

variable {F : Type}

theorem decodes_parseStr : Decodes BulkFrame.text parseStr 1 fun args =>
    (args.head?.map BulkFrame.data).bind Str.fromUtf8 := by
  refine (BulkFrame.decodes_parseBulkStr.bind fun raw => decodes_lift (Str.fromUtf8 raw)).congr ?_
  intro args one
  rw [List.take_of_length_le (by omega)]

theorem accepts_parseKeyed (command : Str → Command F) :
    Accepts (parseKeyed command) 1 fun args => ∀ key ∈ args.head?, validUtf8 key = true := by
  refine ⟨_, decodes_parseStr.bind fun key => decodes_pure (command key), ?_⟩
  intro args one
  obtain ⟨arg, rfl⟩ := List.length_eq_one_iff.mp one
  simp [isSome_bind_some, ← fromUtf8_isSome]

theorem accepts_parseSelect : Accepts (parseSelect (F := F)) 1 fun args =>
    ∀ index ∈ args.head?, IsUnsigned (2 ^ 8) index := by
  have decodes : Decodes BulkFrame.text (parseSelect (F := F)) (1 + (0 + 0)) _ :=
    decodes_parseStr.bind fun text => (decodes_lift (text.parseUnsigned (2 ^ 8))).bind
      fun index => decodes_pure (Command.select index)
  refine ⟨_, decodes, ?_⟩
  intro args one
  obtain ⟨arg, rfl⟩ := List.length_eq_one_iff.mp one
  simp only [List.take_one, List.head?_cons, Option.toList_some,
    Option.map_some, Option.bind_some, List.map_cons, List.map_nil, Option.mem_def,
    Option.some.injEq, forall_eq', IsUnsigned]
  rw [← Option.bind_assoc, isSome_bind_some]

theorem accepts_parseSet : Accepts (parseSet (F := F)) 2 fun args =>
    ∀ key ∈ args.head?, validUtf8 key = true := by
  have decodes : Decodes BulkFrame.text (parseSet (F := F)) (1 + (1 + (0 + 0))) _ :=
    BulkFrame.decodes_parseBulkStr.bind fun key => BulkFrame.decodes_parseBulkStr.bind
      fun value => (decodes_lift (Str.fromUtf8 key)).bind fun key => decodes_pure (Command.set key value)
  refine ⟨_, decodes, ?_⟩
  intro args two
  obtain ⟨key, value, rfl⟩ := List.length_eq_two.mp two
  simp [isSome_bind_some, ← fromUtf8_isSome]

def decodeField (args : List BulkFrame) : Option (Str × Bytes) :=
  (args.head?.map BulkFrame.data).bind fun key =>
    ((args.drop 1).head?.map BulkFrame.data).bind fun value =>
      (Str.fromUtf8 key).map fun key => (key, value)

theorem decodes_parseField : Decodes BulkFrame.text parseField 2 decodeField := by
  have decodes : Decodes BulkFrame.text parseField (1 + (1 + (0 + 0))) _ :=
    BulkFrame.decodes_parseBulkStr.bind fun key => BulkFrame.decodes_parseBulkStr.bind
      fun value => (decodes_lift (Str.fromUtf8 key)).bind fun key => decodes_pure (key, value)
  apply decodes.congr
  intro args two
  obtain ⟨key, value, rfl⟩ := List.length_eq_two.mp two
  cases utf8 : Str.fromUtf8 key.data <;> simp [decodeField, utf8]

theorem decodeFields_isSome (count : Nat) (args : List BulkFrame) (even : args.length = count * 2) :
    (decodeTimes decodeField 2 count args).isSome ↔
      ∀ i, ∀ name ∈ args[i * 2]?, validUtf8 name.data = true := by
  induction count generalizing args with
  | zero =>
    obtain rfl := List.eq_nil_of_length_eq_zero (by omega : args.length = 0)
    simp [decodeTimes]
  | succ count ih =>
    obtain ⟨name, value, rest, rfl⟩ : ∃ name value rest, args = name :: value :: rest := by
      cases args with
      | nil => simp at even
      | cons name args =>
        cases args with
        | nil => simp only [List.length_singleton] at even; omega
        | cons value rest => exact ⟨name, value, rest, rfl⟩
    have later := ih rest (by simp only [List.length_cons] at even; omega)
    have names : (∀ i, ∀ other ∈ (name :: value :: rest)[i * 2]?, validUtf8 other.data = true) ↔
        validUtf8 name.data = true ∧ ∀ i, ∀ other ∈ rest[i * 2]?, validUtf8 other.data = true := by
      constructor
      · intro all
        exact ⟨all 0 name rfl,
          fun i other inside => all (i + 1) other (by simpa [Nat.succ_mul] using inside)⟩
      · rintro ⟨first, others⟩ i other inside
        cases i with
        | zero =>
          obtain rfl : name = other := by simpa using inside
          exact first
        | succ i => exact others i other (by simpa [Nat.succ_mul] using inside)
    rw [names, ← later, ← fromUtf8_isSome, decodeTimes]
    cases key : Str.fromUtf8 name.data with
    | none => simp [decodeField, key]
    | some key' => simp [decodeField, key]

theorem accepts_parseHmSet (numArgs : Nat) :
    Accepts (parseHmSet (F := F) numArgs) (1 + (numArgs - 2) / 2 * 2) fun args =>
      (∀ key ∈ args.head?, validUtf8 key = true) ∧
        ∀ i, ∀ name ∈ args[i * 2 + 1]?, validUtf8 name = true := by
  refine ⟨_, BulkFrame.decodes_parseBulkStr.bind fun key =>
    (decodes_parseField.times ((numArgs - 2) / 2)).bind fun fields =>
      (decodes_lift (Str.fromUtf8 key)).bind fun key => decodes_pure (Command.hmSet key fields), ?_⟩
  intro args count
  cases args with
  | nil =>
    simp at count
    omega
  | cons key fields =>
    have size : fields.length = (numArgs - 2) / 2 * 2 := by
      simp only [List.length_cons] at count
      omega
    have whole : fields.take ((numArgs - 2) / 2 * 2) = fields := List.take_of_length_le (by omega)
    simp only [List.take_succ_cons, List.take_zero, List.drop_succ_cons, List.drop_zero, whole,
      List.head?_cons, Option.map_some, Option.bind_some, List.map_cons, Option.mem_def, Option.some.injEq, forall_eq']
    rw [isSome_bind_and _ _ (validUtf8 key.data = true)
      (fun fields => by rw [isSome_bind_some, fromUtf8_isSome]),
      decodeFields_isSome _ fields size, and_comm]
    simp

variable [FloatText F]

def decodeFloat (args : List BulkFrame) : Option F :=
  (args.head?.map BulkFrame.data).bind fun data => (Str.fromUtf8 data).bind FloatText.parse

theorem decodes_parseFloat : Decodes BulkFrame.text (parseFloat (F := F)) 1 decodeFloat := by
  refine (decodes_parseStr.bind fun text => decodes_lift (FloatText.parse text)).congr ?_
  intro args one
  obtain ⟨arg, rfl⟩ := List.length_eq_one_iff.mp one
  simp [decodeFloat]

theorem decodeFloats_isSome (args : List BulkFrame) :
    (decodeTimes (decodeFloat (F := F)) 1 args.length args).isSome ↔
      ∀ arg ∈ args, IsFloat F arg.data := by
  induction args with
  | nil => simp [decodeTimes]
  | cons arg args ih =>
    rw [List.forall_mem_cons, ← ih, List.length_cons, decodeTimes]
    simp only [List.take_succ_cons, List.take_zero, List.drop_succ_cons, List.drop_zero,
      decodeFloat, IsFloat, List.head?_cons, Option.map_some, Option.bind_some]
    exact isSome_bind_and _ _ _ fun value => by rw [Option.isSome_map]

theorem accepts_parseVAdd (numArgs : Nat) :
    Accepts (parseVAdd (F := F) numArgs) (1 + (numArgs - 2)) fun args =>
      (∀ key ∈ args.head?, validUtf8 key = true) ∧ ∀ text ∈ args.tail, IsFloat F text := by
  have decodes : Decodes BulkFrame.text (parseVAdd (F := F) numArgs)
      (1 + ((numArgs - 2) * 1 + (0 + 0))) _ :=
    BulkFrame.decodes_parseBulkStr.bind fun key =>
      (decodes_parseFloat.times (numArgs - 2)).bind fun floats =>
        (decodes_lift (Str.fromUtf8 key)).bind fun key => decodes_pure (Command.vAdd key floats)
  rw [Nat.mul_one] at decodes
  refine ⟨_, decodes, ?_⟩
  intro args count
  cases args with
  | nil =>
    simp at count
    omega
  | cons key floats =>
    have size : numArgs - 2 = floats.length := by
      simp only [List.length_cons] at count
      omega
    simp only [size, List.take_succ_cons, List.take_zero, List.drop_succ_cons, List.drop_zero,
      List.take_length, List.head?_cons, Option.map_some, Option.bind_some, List.map_cons,
      Option.mem_def, Option.some.injEq, forall_eq', List.tail_cons, List.forall_mem_map]
    rw [isSome_bind_and _ _ (validUtf8 key.data = true)
      (fun floats => by rw [isSome_bind_some, fromUtf8_isSome]),
      decodeFloats_isSome, and_comm]

theorem accepts_parseVSearch (numArgs : Nat) :
    Accepts (parseVSearch (F := F) numArgs) (1 + (numArgs - 2)) fun args =>
      (∀ k ∈ args.head?, IsUnsigned (2 ^ 64) k) ∧ ∀ text ∈ args.tail, IsFloat F text := by
  have decodes : Decodes BulkFrame.text (parseVSearch (F := F) numArgs)
      (1 + (0 + ((numArgs - 2) * 1 + 0))) _ :=
    decodes_parseStr.bind fun text => (decodes_lift (text.parseUnsigned (2 ^ 64))).bind fun k =>
      (decodes_parseFloat.times (numArgs - 2)).bind fun floats =>
        decodes_pure (Command.vSearch k floats)
  rw [Nat.mul_one, Nat.zero_add] at decodes
  refine ⟨_, decodes, ?_⟩
  intro args count
  cases args with
  | nil =>
    simp at count
    omega
  | cons key floats =>
    have size : numArgs - 2 = floats.length := by
      simp only [List.length_cons] at count
      omega
    simp only [size, List.take_succ_cons, List.take_zero, List.drop_succ_cons, List.drop_zero,
      List.take_length, List.head?_cons, Option.map_some, Option.bind_some, List.map_cons,
      Option.mem_def, Option.some.injEq, forall_eq', List.tail_cons, List.forall_mem_map]
    rw [← Option.bind_assoc, isSome_bind_and _ _ _ (fun k => by rw [isSome_bind_some]),
      decodeFloats_isSome, IsUnsigned]

theorem parseArguments_few (numArgs : Nat) (word : Keyword) (few : numArgs < word.least)
    (positive : 0 < numArgs) (buf : Bytes) : parseArguments (F := F) numArgs word buf = none := by
  have refused (least : Nat) (short : numArgs < least) (branch : Cursor Byte (Command F)) :
      atLeast least numArgs branch buf = none := by
    apply bind_none
    simp [Nat.not_le.mpr short]
  cases word <;> simp only [Keyword.least] at few <;>
    first | exact refused _ few _ | omega

omit [FloatText F] in
theorem accepts_pure (command : Command F) : Accepts (pure command) 0 fun _ => True :=
  ⟨_, decodes_pure command, fun _ _ => by simp⟩

omit [FloatText F] in
theorem accepts_atLeast (least numArgs count : Nat) (branch : Cursor Byte (Command F))
    (ok : List Bytes → Prop) (enough : least ≤ numArgs) (accepts : Accepts branch count ok) :
    Accepts (atLeast least numArgs branch) count ok := by
  have passed : (require (decide (least ≤ numArgs)) : Cursor Byte Unit) = pure () := by
    funext buf
    simp [enough]
  rwa [atLeast, passed, pure_bind]

theorem accepts_parseArguments (numArgs : Nat) (word : Keyword) (enough : word.least ≤ numArgs) :
    Accepts (parseArguments (F := F) numArgs word) (word.read numArgs) (word.Readable F) := by
  cases word with
  | ping | save | bgsave | flushdb | info | mget | mset => exact accepts_pure _
  | get | del | hgetall | zadd =>
    exact accepts_atLeast _ _ _ _ _ enough (accepts_parseKeyed _)
  | set => exact accepts_atLeast _ _ _ _ _ enough accepts_parseSet
  | select => exact accepts_atLeast _ _ _ _ _ enough accepts_parseSelect
  | hmset => exact accepts_atLeast _ _ _ _ _ enough (accepts_parseHmSet numArgs)
  | vadd => exact accepts_atLeast _ _ _ _ _ enough (accepts_parseVAdd numArgs)
  | vsearch => exact accepts_atLeast _ _ _ _ _ enough (accepts_parseVSearch numArgs)

end Branches

structure Header where
  digits : Bytes
  nonempty : digits ≠ []
  decimal : ∀ byte ∈ digits, Decimal.isDigit byte = true
  positive : Decimal.wrappingValue digits ≠ 0
  name : BulkFrame

namespace Header

variable {F : Type} [FloatText F]

def numArgs (header : Header) : Nat := (Decimal.wrappingValue header.digits).toNat

def text (header : Header) : Bytes :=
  ascii "*" ++ (header.digits ++ crlf) ++ header.name.text

theorem bind_header {α : Type} (next : Command F → Cursor Byte α) (header : Header)
    (rest : Bytes) :
    (parseCommandFast >>= next) (header.text ++ rest) =
      (Str.fromUtf8 header.name.data).bind fun name =>
        ((parseNamed header.numArgs name >>= next) rest).map fun pair =>
          (pair.1, header.text.length + pair.2) := by
  rw [parseCommandFast]
  simp only [assoc]
  rw [text, List.append_assoc, List.append_assoc, (reads_literal (ascii "*")).before,
    (reads_parseLength _ header.nonempty header.decimal).before,
    bind_some _ _ _ () 0 (by simp [header.positive]), List.drop_zero, header.name.reads_text.before]
  cases Str.fromUtf8 header.name.data with
  | none => rfl
  | some name =>
    rw [bind_some _ _ _ name 0 rfl, List.drop_zero, Option.bind_some]
    dsimp only [numArgs]
    cases (parseNamed (Decimal.wrappingValue header.digits).toNat name >>= next) rest with
    | none => rfl
    | some pair => simp [Nat.add_assoc]

theorem isSome_iff (header : Header) (rest : Bytes) :
    (parseCommandFast (F := F) (header.text ++ rest)).isSome ↔
      ∃ name, Str.fromUtf8 header.name.data = some name ∧
        (parseNamed (F := F) header.numArgs name rest).isSome := by
  have parsed := header.bind_header (F := F) pure rest
  simp only [bind_pure] at parsed
  rw [parsed]
  cases Str.fromUtf8 header.name.data with
  | none => simp
  | some name => simp

omit [FloatText F] in
theorem numArgs_pos (header : Header) : 0 < header.numArgs := by
  have nonzero : (Decimal.wrappingValue header.digits).toNat ≠ 0 := fun zero =>
    header.positive (UInt32.toNat_inj.mp zero)
  exact Nat.pos_of_ne_zero nonzero

theorem header_of_some (buf : Bytes) (command : Command F) (used : Nat)
    (run : parseCommandFast buf = some (command, used)) :
    ∃ header : Header, ∃ rest, buf = header.text ++ rest := by
  obtain ⟨_, _, _, star, run, _⟩ := bind_eq_some _ _ _ _ _ run
  obtain ⟨rfl, afterStar, rfl⟩ := literal_eq_some _ _ _ _ star
  rw [List.drop_left] at run
  obtain ⟨numArgs, _, _, number, run, _⟩ := bind_eq_some _ _ _ _ _ run
  obtain ⟨digits, afterNumber, nonempty, decimal, rfl, rfl, rfl⟩ :=
    parseLength_eq_some _ _ _ number
  rw [List.drop_left] at run
  obtain ⟨_, _, _, positive, run, _⟩ := bind_eq_some _ _ _ _ _ run
  rw [require_apply] at positive
  split at positive
  next nonzero =>
    obtain ⟨_, rfl⟩ := Prod.mk.inj (Option.some.inj positive)
    rw [List.drop_zero] at run
    obtain ⟨raw, _, _, bulk, _, _⟩ := bind_eq_some _ _ _ _ _ run
    obtain ⟨name, _, rest, rfl⟩ := BulkFrame.parseBulkStr_eq_some _ _ _ bulk
    refine ⟨⟨digits, nonempty, decimal, by simpa using nonzero, name⟩, rest, ?_⟩
    simp only [text, List.append_assoc]
  next => cases positive

end Header

structure Frame where
  header : Header
  args : List BulkFrame

section Acceptance

variable (F : Type) [FloatText F]

def ArgsAccepted (numArgs : Nat) (name : Str) (args : List BulkFrame) : Prop :=
  match keyword name with
  | none => args = []
  | some word => word.least ≤ numArgs ∧ args.length = word.read numArgs ∧
      word.Readable F (args.map BulkFrame.data)

namespace Frame

def text (frame : Frame) : Bytes := frame.header.text ++ frame.args.flatMap BulkFrame.text

def Accepted (frame : Frame) : Prop :=
  ∃ name, Str.fromUtf8 frame.header.name.data = some name ∧
    ArgsAccepted F frame.header.numArgs name frame.args

end Frame

-- The same for an array: it has at least the arguments that its branch reads.
def RespArray.Accepted (array : RespArray) : Prop :=
  ∃ name, Str.fromUtf8 array.name.data = some name ∧ ∀ word ∈ keyword name,
    word.least ≤ array.args.length + 1 ∧
      word.Readable F ((array.args.take (word.read (array.args.length + 1))).map BulkString.data)

-- The parser's `None` is for a buffer that more bytes can complete.
def Waits (buf : Bytes) : Prop :=
  parseCommandFast (F := F) buf = none →
    ∃ more, (parseCommandFast (F := F) (buf ++ more)).isSome

variable {F}

theorem parseNamed_isSome (numArgs : Nat) (positive : 0 < numArgs) (name : Str) (buf : Bytes) :
    (parseNamed (F := F) numArgs name buf).isSome ↔
      ∃ args, ArgsAccepted F numArgs name args ∧ args.flatMap BulkFrame.text <+: buf := by
  rw [parseNamed]
  unfold ArgsAccepted
  cases keyword name with
  | none => simp
  | some word =>
    by_cases enough : word.least ≤ numArgs
    · obtain ⟨decode, decodes, readable⟩ := accepts_parseArguments (F := F) numArgs word enough
      constructor
      · intro given
        obtain ⟨⟨command, used⟩, run⟩ := Option.isSome_iff_exists.mp given
        obtain ⟨args, rest, count, rfl, decoded⟩ := decodes.only _ _ _ run
        exact ⟨args, ⟨enough, count, (readable args count).mp (by rw [decoded]; rfl)⟩,
          List.prefix_append _ _⟩
      · rintro ⟨args, ⟨_, count, asked⟩, rest, rfl⟩
        have decoded := (readable args count).mpr asked
        simp only
        rw [decodes.reads args count, Option.isSome_map]
        exact decoded
    · have few := parseArguments_few (F := F) numArgs word (Nat.not_le.mp enough) positive buf
      simp [few, enough]

theorem parseCommandFast_isSome (buf : Bytes) :
    (parseCommandFast (F := F) buf).isSome ↔ ∃ frame : Frame, frame.Accepted F ∧ frame.text <+: buf := by
  constructor
  · intro given
    obtain ⟨⟨command, used⟩, run⟩ := Option.isSome_iff_exists.mp given
    obtain ⟨header, rest, rfl⟩ := Header.header_of_some _ _ _ run
    obtain ⟨name, valid, named⟩ := (header.isSome_iff rest).mp given
    obtain ⟨args, accepted, front⟩ := (parseNamed_isSome _ header.numArgs_pos name rest).mp named
    exact ⟨⟨header, args⟩, ⟨name, valid, accepted⟩, (List.prefix_append_right_inj _).mpr front⟩
  · rintro ⟨⟨header, args⟩, ⟨name, valid, accepted⟩, rest, rfl⟩
    rw [Frame.text, List.append_assoc]
    refine (header.isSome_iff _).mpr ⟨name, valid, ?_⟩
    exact (parseNamed_isSome _ header.numArgs_pos name _).mpr
      ⟨args, accepted, List.prefix_append _ _⟩

theorem waits_iff (buf : Bytes) :
    Waits F buf ↔ ∃ frame : Frame, frame.Accepted F ∧ (frame.text <+: buf ∨ buf <+: frame.text) := by
  constructor
  · intro waits
    cases run : parseCommandFast (F := F) buf with
    | some pair =>
      obtain ⟨frame, accepted, front⟩ := (parseCommandFast_isSome buf).mp (by rw [run]; rfl)
      exact ⟨frame, accepted, .inl front⟩
    | none =>
      obtain ⟨more, given⟩ := waits run
      obtain ⟨frame, accepted, front⟩ := (parseCommandFast_isSome (buf ++ more)).mp given
      exact ⟨frame, accepted, List.prefix_or_prefix_of_prefix front (List.prefix_append _ _)⟩
  · rintro ⟨frame, accepted, front | ⟨more, whole⟩⟩ stuck
    · have given := (parseCommandFast_isSome buf).mpr ⟨frame, accepted, front⟩
      rw [stuck] at given
      cases given
    · refine ⟨more, (parseCommandFast_isSome _).mpr ⟨frame, accepted, ?_⟩⟩
      exact ⟨[], by rw [List.append_nil, whole]⟩

def RespArray.frameHeader (array : RespArray) (sized : array.Sized) : Header where
  digits := array.count.digits
  nonempty := array.count.nonempty
  decimal := array.count.decimal
  positive := by
    intro zero
    have number := congrArg UInt32.toNat zero
    rw [Decimal.wrappingValue_eq, array.count.value, UInt32.toNat_ofNat_of_lt' sized.1] at number
    simp at number
  name := array.name.frame sized.2.1

theorem RespArray.numArgs_frameHeader (array : RespArray) (sized : array.Sized) :
    (array.frameHeader sized).numArgs = array.args.length + 1 := by
  rw [Header.numArgs, frameHeader, Decimal.wrappingValue_eq, array.count.value]
  exact UInt32.toNat_ofNat_of_lt' sized.1

theorem RespArray.frames (array : RespArray) (sized : array.Sized) (count : Nat) :
    ∃ frames : List BulkFrame, frames.length = (array.args.take count).length ∧
      frames.flatMap BulkFrame.text = (array.args.take count).flatMap BulkString.text ∧
      frames.map BulkFrame.data = (array.args.take count).map BulkString.data := by
  have each : ∀ arg ∈ array.args.take count, arg.Sized := fun arg member =>
    sized.2.2 arg (List.mem_of_mem_take member)
  generalize array.args.take count = args at each
  induction args with
  | nil => exact ⟨[], rfl, rfl, rfl⟩
  | cons arg args ih =>
    obtain ⟨frames, length, texts, data⟩ := ih fun other member =>
      each other (List.mem_cons_of_mem _ member)
    exact ⟨arg.frame (each arg List.mem_cons_self) :: frames, by simp [length],
      by simp only [List.flatMap_cons, texts]; rfl, by simp only [List.map_cons, data]; rfl⟩

theorem RespArray.isSome_iff (array : RespArray) (sized : array.Sized) (rest : Bytes) :
    (parseCommandFast (F := F) (array.text ++ rest)).isSome ↔ array.Accepted F := by
  have split : array.text ++ rest =
      (array.frameHeader sized).text ++ (array.args.flatMap BulkString.text ++ rest) := by
    rw [← List.append_assoc]
    rfl
  rw [split, Header.isSome_iff]
  refine exists_congr fun name => and_congr_right fun _ => ?_
  rw [numArgs_frameHeader, parseNamed]
  cases keyword name with
  | none => simp
  | some word =>
    simp only [Option.mem_def, Option.some.injEq, forall_eq']
    by_cases enough : word.least ≤ array.args.length + 1
    · obtain ⟨decode, decodes, readable⟩ :=
        accepts_parseArguments (F := F) (array.args.length + 1) word enough
      obtain ⟨frames, length, texts, data⟩ := array.frames sized (word.read (array.args.length + 1))
      have inside := word.read_lt _ enough
      have count : frames.length = word.read (array.args.length + 1) := by
        rw [length, List.length_take]
        omega
      have reads := decodes.reads frames count
        ((array.args.drop (word.read (array.args.length + 1))).flatMap BulkString.text ++ rest)
      rw [← List.append_assoc, texts, ← List.flatMap_append, List.take_append_drop] at reads
      rw [reads, Option.isSome_map, readable frames count, data]
      simp [enough]
    · have few := parseArguments_few (F := F) _ word (Nat.not_le.mp enough) (Nat.succ_pos _)
        (array.args.flatMap BulkString.text ++ rest)
      simp [few, enough]

theorem waits_array (array : RespArray) (sized : array.Sized) (rest : Bytes) :
    Waits F (array.text ++ rest) ↔ array.Accepted F := by
  constructor
  · intro waits
    cases run : parseCommandFast (F := F) (array.text ++ rest) with
    | some pair => exact (array.isSome_iff sized rest).mp (by rw [run]; rfl)
    | none =>
      obtain ⟨more, given⟩ := waits run
      rw [List.append_assoc] at given
      exact (array.isSome_iff sized (rest ++ more)).mp given
  · intro accepted stuck
    have given := (array.isSome_iff sized rest).mpr accepted
    rw [stuck] at given
    cases given

variable (F)

theorem accepted_iff :
    (∀ buf, (parseCommandFast (F := F) buf).isSome ↔
        ∃ frame : Frame, frame.Accepted F ∧ frame.text <+: buf) ∧
      (∀ buf, Waits F buf ↔
        ∃ frame : Frame, frame.Accepted F ∧ (frame.text <+: buf ∨ buf <+: frame.text)) ∧
      ∀ array : RespArray, array.Sized → ∀ rest,
        ((parseCommandFast (F := F) (array.text ++ rest)).isSome ↔ array.Accepted F) ∧
          (Waits F (array.text ++ rest) ↔ array.Accepted F) :=
  ⟨parseCommandFast_isSome, waits_iff, fun array sized rest =>
    ⟨array.isSome_iff sized rest, waits_array array sized rest⟩⟩

variable {F}

-- A value may be any bytes, and the next command may have begun.
theorem accepted_hmset :
    (parseCommandFast (F := Int)
        ((RespArray.of (ascii "HMSET") [ascii "v", ascii "k", [255]]).text ++ ascii "*1")).isSome ∧
      Waits Int ((RespArray.of (ascii "HMSET") [ascii "v", ascii "k", [255]]).text ++
        ascii "*1") := by
  have sides := (accepted_iff Int).2.2 (RespArray.of (ascii "HMSET") [ascii "v", ascii "k", [255]])
    (by decide) (ascii "*1")
  have accepted :
      (RespArray.of (ascii "HMSET") [ascii "v", ascii "k", [255]]).Accepted Int := by
    refine ⟨⟨ascii "HMSET", by decide⟩, (Str.fromUtf8_eq_some _ _).mpr rfl, fun word named => ?_⟩
    have hmset : keyword ⟨ascii "HMSET", by decide⟩ = some .hmset := by decide
    obtain rfl : Keyword.hmset = word := Option.some.inj (hmset.symm.trans named)
    refine ⟨by decide, fun key first => ?_, fun i name field => ?_⟩
    · obtain rfl : ascii "v" = key := Option.some.inj first
      decide
    · cases i with
      | zero =>
        obtain rfl : ascii "k" = name := Option.some.inj field
        decide
      | succ i =>
        rw [List.getElem?_eq_none (by change 3 ≤ (i + 1) * 2 + 1; omega)] at field
        cases field
  exact ⟨sides.1.mpr accepted, sides.2.mpr accepted⟩

-- A GET without its key is refused whatever follows it, as if it were incomplete.
theorem get_refused_forever :
    parseCommandFast (F := Int) (RespArray.of (ascii "GET") []).text = none ∧
      ¬ Waits Int (RespArray.of (ascii "GET") []).text := by
  have short : ¬ (RespArray.of (ascii "GET") []).Accepted Int := by
    rintro ⟨name, valid, asked⟩
    have named : ascii "GET" = name.bytes := (Str.fromUtf8_eq_some _ _).mp valid
    have get : keyword name = some .get := by
      rw [keyword, ← named]
      decide
    exact absurd (asked .get get).1 (by decide)
  have refused := (RespArray.of (ascii "GET") []).isSome_iff (F := Int) (by decide) []
  have waits := waits_array (F := Int) (RespArray.of (ascii "GET") []) (by decide) []
  rw [List.append_nil] at refused waits
  exact ⟨Option.not_isSome_iff_eq_none.mp (mt refused.mp short), mt waits.mp short⟩

end Acceptance

end OmegaDrive
