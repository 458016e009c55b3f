import OmegaDrive.Resp.RoundTrip

set_option autoImplicit false

namespace OmegaDrive

open Cursor

/-- A bulk string as `parse_bulk_str` reads it: its length is what the digits wrap around to. -/
structure BulkFrame where
  digits : Bytes
  nonempty : digits ≠ []
  decimal : ∀ byte ∈ digits, Decimal.isDigit byte = true
  data : Bytes
  length : (Decimal.wrappingValue digits).toNat = data.length

namespace BulkFrame

def text (bulk : BulkFrame) : Bytes :=
  ascii "$" ++ (bulk.digits ++ crlf) ++ (bulk.data ++ crlf)

theorem reads_text (bulk : BulkFrame) : Reads parseBulkStr bulk.text bulk.data := by
  have body : Reads (slice (Decimal.wrappingValue bulk.digits).toNat) bulk.data bulk.data := by
    rw [bulk.length]
    exact reads_slice bulk.data
  have reads : Reads parseBulkStr
      (ascii "$" ++ ((bulk.digits ++ crlf) ++ (bulk.data ++ (crlf ++ [])))) bulk.data :=
    (reads_literal _).bind ((reads_parseLength _ bulk.nonempty bulk.decimal).bind
      (body.bind ((reads_literal _).bind (reads_pure bulk.data))))
  simpa [text] using reads

end BulkFrame

/-- Decimal digits of a number; leading zeros are allowed. -/
structure Numeral (n : Nat) where
  digits : Bytes
  nonempty : digits ≠ []
  decimal : ∀ byte ∈ digits, Decimal.isDigit byte = true
  value : Decimal.value digits = n

def Numeral.ofNat (n : Nat) : Numeral n :=
  ⟨Decimal.text n, Decimal.text_ne_nil n, Decimal.digits_text n, Decimal.value_text n⟩

structure BulkString where
  data : Bytes
  length : Numeral data.length

/-- At least one element: the command name and its arguments. -/
structure RespArray where
  name : BulkString
  args : List BulkString
  count : Numeral (args.length + 1)

namespace BulkString

def of (data : Bytes) : BulkString := ⟨data, Numeral.ofNat data.length⟩

def text (bulk : BulkString) : Bytes :=
  ascii "$" ++ (bulk.length.digits ++ crlf) ++ (bulk.data ++ crlf)

def Sized (bulk : BulkString) : Prop := bulk.data.length < 2 ^ 32

instance (bulk : BulkString) : Decidable bulk.Sized := inferInstanceAs (Decidable (_ < _))

def frame (bulk : BulkString) (sized : bulk.Sized) : BulkFrame where
  digits := bulk.length.digits
  nonempty := bulk.length.nonempty
  decimal := bulk.length.decimal
  data := bulk.data
  length := by
    rw [Decimal.wrappingValue_eq, bulk.length.value]
    exact UInt32.toNat_ofNat_of_lt' sized

theorem reads_text (bulk : BulkString) (sized : bulk.Sized) :
    Reads parseBulkStr bulk.text bulk.data :=
  (bulk.frame sized).reads_text

def IsText (text : Bytes) : Prop := ∃ bulk : BulkString, bulk.Sized ∧ text = bulk.text

theorem takes_parseBulkStr : Takes IsText parseBulkStr 1 := by
  intro pieces size each
  obtain ⟨text, rfl⟩ := List.length_eq_one_iff.mp size
  obtain ⟨bulk, sized, rfl⟩ := each text List.mem_cons_self
  exact ⟨some bulk.data, fun rest => by simpa using bulk.reads_text sized rest⟩

end BulkString

namespace RespArray

def of (name : Bytes) (args : List Bytes) : RespArray :=
  ⟨.of name, args.map .of, Numeral.ofNat _⟩

def header (array : RespArray) : Bytes := ascii "*" ++ (array.count.digits ++ crlf)

def text (array : RespArray) : Bytes :=
  array.header ++ array.name.text ++ array.args.flatMap BulkString.text

def Sized (array : RespArray) : Prop :=
  array.args.length + 1 < 2 ^ 32 ∧ array.name.Sized ∧ ∀ arg ∈ array.args, arg.Sized

instance (array : RespArray) : Decidable array.Sized := inferInstanceAs (Decidable (_ ∧ _))

theorem text_star (array : RespArray) : ∃ tail, array.text = 42 :: tail :=
  ⟨_, rfl⟩

end RespArray

def streamBytes (arrays : List RespArray) : Bytes := arrays.flatMap RespArray.text

@[simp] theorem streamBytes_nil : streamBytes [] = [] := rfl

@[simp] theorem streamBytes_cons (array : RespArray) (arrays : List RespArray) :
    streamBytes (array :: arrays) = array.text ++ streamBytes arrays := rfl

def arrayStarts : Nat → List RespArray → List Nat
  | _, [] => []
  | pos, array :: arrays => pos :: arrayStarts (pos + array.text.length) arrays

theorem arrayStarts_bound (pos : Nat) (arrays : List RespArray) :
    ∀ start ∈ arrayStarts pos arrays, pos ≤ start := by
  induction arrays generalizing pos with
  | nil => simp [arrayStarts]
  | cons array arrays ih =>
    intro start member
    rcases List.mem_cons.mp member with rfl | later
    · exact Nat.le_refl _
    · have := ih _ start later
      omega

/-- The fewest elements a branch accepts. -/
def Keyword.least : Keyword → Nat
  | .set | .vadd | .vsearch => 3
  | .get | .del | .select | .hgetall => 2
  | .hmset | .zadd => 4
  | .ping | .mget | .mset | .save | .bgsave | .flushdb | .info => 1

-- How many arguments a branch reads, in an array of `numArgs` elements.
def Keyword.taken (numArgs : Nat) : Keyword → Nat
  | .ping | .save | .bgsave | .flushdb | .info => 0
  | .get | .del | .select | .hgetall | .zadd => 1
  | .set => 2
  | .hmset => 1 + (numArgs - 2) / 2 * 2
  | .vadd | .vsearch => 1 + (numArgs - 2)
  | .mget => numArgs - 1
  | .mset => (numArgs - 1) / 2 * 2

theorem Keyword.taken_le (word : Keyword) (numArgs : Nat) (enough : word.least ≤ numArgs) :
    word.taken numArgs + 1 ≤ numArgs := by
  cases word <;> simp only [least] at enough <;> simp only [taken] <;> omega

end OmegaDrive
