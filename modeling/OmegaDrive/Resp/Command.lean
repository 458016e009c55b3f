import OmegaDrive.Shared.Cursor
import OmegaDrive.Resp.Text

set_option autoImplicit false

namespace OmegaDrive

inductive Command (F : Type) where
  | ping
  | set (key : Str) (value : Bytes)
  | get (key : Str)
  | del (key : Str)
  | exists (key : Str)
  | mSetHeader (numArgs : Nat)
  | mGetHeader (numArgs : Nat)
  | select (index : Nat)
  | save
  | bgSave
  | flushDb
  | info
  | hmSet (key : Str) (fields : List (Str × Bytes))
  | hGetAll (key : Str)
  | zAdd (key : Str)
  | vAdd (key : Str) (floats : List F)
  | vSearch (k : Nat) (floats : List F)
  | unknown (name : Str)
  deriving DecidableEq

inductive Keyword where
  | ping | set | get | del | mget | mset | select | save | bgsave | flushdb | info
  | hmset | hgetall | zadd | vadd | vsearch
  deriving DecidableEq

def keywords : List (Bytes × Keyword) :=
  [(ascii "PING", .ping), (ascii "SET", .set), (ascii "GET", .get), (ascii "DEL", .del),
    (ascii "MGET", .mget), (ascii "MSET", .mset), (ascii "SELECT", .select),
    (ascii "SAVE", .save), (ascii "BGSAVE", .bgsave), (ascii "FLUSHDB", .flushdb),
    (ascii "INFO", .info), (ascii "HMSET", .hmset), (ascii "HGETALL", .hgetall),
    (ascii "ZADD", .zadd), (ascii "VADD", .vadd), (ascii "VSEARCH", .vsearch)]

def keyword (name : Str) : Option Keyword := keywords.lookup (Str.toUppercase name.bytes)

/-! The positions of the source are the cursor's: `&buf[pos..]` is what a reader is given, and
`pos += len` is the number of bytes it reports as consumed. -/

open Cursor

-- `u32` arithmetic of a release build: the value wraps around.
def parseInt : Cursor Byte UInt32 := fun buf =>
  let digits := buf.takeWhile Decimal.isDigit
  if digits = [] then none else some (Decimal.wrappingValue digits, digits.length)

-- `parse_int` followed by the CRLF check, as at each of its three uses.
def parseLength : Cursor Byte UInt32 := do
  let length ← parseInt
  literal crlf
  return length

def slice (length : Nat) : Cursor Byte Bytes := fun buf =>
  if length ≤ buf.length then some (buf.take length, length) else none

def parseBulkStr : Cursor Byte Bytes := do
  literal (ascii "$")
  let argLen ← parseLength
  let data ← slice argLen.toNat
  literal crlf
  return data

def parseStr : Cursor Byte Str := do
  let raw ← parseBulkStr
  lift (Str.fromUtf8 raw)

def parseField : Cursor Byte (Str × Bytes) := do
  let key ← parseBulkStr
  let value ← parseBulkStr
  let key ← lift (Str.fromUtf8 key)
  return (key, value)

section Arguments

variable {F : Type}

/-- The source checks a SET key's encoding after reading the value; both failures are `None`. -/
def parseSet : Cursor Byte (Command F) := do
  let key ← parseBulkStr
  let value ← parseBulkStr
  let key ← lift (Str.fromUtf8 key)
  return .set key value

def parseHmSet (numArgs : Nat) : Cursor Byte (Command F) := do
  let key ← parseBulkStr
  let fields ← times parseField ((numArgs - 2) / 2)
  let key ← lift (Str.fromUtf8 key)
  return .hmSet key fields

def parseSelect : Cursor Byte (Command F) := do
  let text ← parseStr
  let index ← lift (text.parseUnsigned (2 ^ 8))
  return .select index

-- A branch that reads one key and ignores further arguments.
def parseKeyed (command : Str → Command F) : Cursor Byte (Command F) := do
  let key ← parseStr
  return command key

def atLeast (least numArgs : Nat) (branch : Cursor Byte (Command F)) : Cursor Byte (Command F) := do
  require (least ≤ numArgs)
  branch

variable [FloatText F]

def parseFloat : Cursor Byte F := do
  let text ← parseStr
  lift (FloatText.parse text)

def parseVAdd (numArgs : Nat) : Cursor Byte (Command F) := do
  let key ← parseBulkStr
  let floats ← times parseFloat (numArgs - 2)
  let key ← lift (Str.fromUtf8 key)
  return .vAdd key floats

def parseVSearch (numArgs : Nat) : Cursor Byte (Command F) := do
  let text ← parseStr
  let k ← lift (text.parseUnsigned (2 ^ 64))
  let floats ← times parseFloat (numArgs - 2)
  return .vSearch k floats

def parseArguments (numArgs : Nat) : Keyword → Cursor Byte (Command F)
  | .ping => return .ping
  | .set => atLeast 3 numArgs parseSet
  | .get => atLeast 2 numArgs (parseKeyed .get)
  | .del => atLeast 2 numArgs (parseKeyed .del)
  | .mget => return .mGetHeader (numArgs - 1)
  | .mset => return .mSetHeader (numArgs - 1)
  | .select => atLeast 2 numArgs parseSelect
  | .save => return .save
  | .bgsave => return .bgSave
  | .flushdb => return .flushDb
  | .info => return .info
  | .hmset => atLeast 4 numArgs (parseHmSet numArgs)
  | .hgetall => atLeast 2 numArgs (parseKeyed .hGetAll)
  | .zadd => atLeast 4 numArgs (parseKeyed .zAdd)
  | .vadd => atLeast 3 numArgs (parseVAdd numArgs)
  | .vsearch => atLeast 3 numArgs (parseVSearch numArgs)

def parseNamed (numArgs : Nat) (name : Str) : Cursor Byte (Command F) :=
  match keyword name with
  | none => return .unknown name
  | some word => parseArguments numArgs word

def parseCommandFast : Cursor Byte (Command F) := do
  literal (ascii "*")
  let numArgs ← parseLength
  require (numArgs ≠ 0)
  let raw ← parseBulkStr
  let name ← lift (Str.fromUtf8 raw)
  parseNamed numArgs.toNat name

end Arguments

def respOk : Bytes := ascii "+OK\r\n"

def respNull : Bytes := ascii "$-1\r\n"

def makePong : Bytes := ascii "+PONG\r\n"

-- `$len CRLF data CRLF`, written the same way by replies and by the log.
def makeBulkString (data : Bytes) : Bytes :=
  ascii "$" ++ Decimal.text data.length ++ crlf ++ data ++ crlf

def arrayHeader (count : Nat) : Bytes := ascii "*" ++ Decimal.text count ++ crlf

def signedText (value : Int) : Bytes :=
  if value < 0 then ascii "-" ++ Decimal.text value.natAbs else Decimal.text value.natAbs

def makeInt (value : Int) : Bytes := ascii ":" ++ signedText value ++ crlf

end OmegaDrive
