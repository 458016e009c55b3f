import OmegaDrive.Shared.Decimal

set_option autoImplicit false

namespace OmegaDrive

abbrev Byte := UInt8
abbrev Bytes := List Byte

def ascii (text : String) : Bytes := text.toUTF8.data.toList

def crlf : Bytes := [13, 10]

/-! The standard library's UTF-8 check, by the well-formed byte sequences of each width. -/

def isContinuation (byte : Byte) : Bool := 0x80 ≤ byte && byte ≤ 0xBF

/-- The second byte excludes overlong forms, surrogates and values above U+10FFFF. -/
def secondOfThree (lead second : Byte) : Bool :=
  if lead = 0xE0 then 0xA0 ≤ second && second ≤ 0xBF
  else if lead = 0xED then 0x80 ≤ second && second ≤ 0x9F
  else isContinuation second

def secondOfFour (lead second : Byte) : Bool :=
  if lead = 0xF0 then 0x90 ≤ second && second ≤ 0xBF
  else if lead = 0xF4 then 0x80 ≤ second && second ≤ 0x8F
  else isContinuation second

def validUtf8 : Bytes → Bool
  | [] => true
  | lead :: rest =>
    if lead < 0x80 then validUtf8 rest
    else match rest with
      | [] => false
      | second :: rest =>
        if 0xC2 ≤ lead && lead ≤ 0xDF then isContinuation second && validUtf8 rest
        else match rest with
          | [] => false
          | third :: rest =>
            if 0xE0 ≤ lead && lead ≤ 0xEF then
              secondOfThree lead second && isContinuation third && validUtf8 rest
            else match rest with
              | [] => false
              | fourth :: rest =>
                0xF0 ≤ lead && lead ≤ 0xF4 && secondOfFour lead second &&
                  isContinuation third && isContinuation fourth && validUtf8 rest

theorem validUtf8_ascii (bytes : Bytes) (plain : ∀ byte ∈ bytes, byte < 0x80) :
    validUtf8 bytes = true := by
  induction bytes with
  | nil => rfl
  | cons byte rest ih =>
    unfold validUtf8
    rw [if_pos (plain byte List.mem_cons_self)]
    exact ih fun byte member => plain byte (List.mem_cons_of_mem _ member)

structure Str where
  bytes : Bytes
  valid : validUtf8 bytes = true
  deriving DecidableEq

theorem validUtf8_k : validUtf8 (ascii "k") = true := by decide
theorem validUtf8_v : validUtf8 (ascii "v") = true := by decide

namespace Str

def fromUtf8 (bytes : Bytes) : Option Str :=
  if valid : validUtf8 bytes = true then some ⟨bytes, valid⟩ else none

@[simp] theorem fromUtf8_bytes (s : Str) : fromUtf8 s.bytes = some s := by
  simp [fromUtf8, s.valid]

theorem fromUtf8_eq_some (bytes : Bytes) (s : Str) :
    fromUtf8 bytes = some s ↔ bytes = s.bytes := by
  constructor
  · intro read
    unfold fromUtf8 at read
    split at read
    next => cases Option.some.inj read; rfl
    next => cases read
  · rintro rfl
    exact fromUtf8_bytes s

theorem fromUtf8_eq_none (bytes : Bytes) : fromUtf8 bytes = none ↔ validUtf8 bytes = false := by
  simp [fromUtf8]

def upperAscii (byte : Byte) : Byte := if 97 ≤ byte && byte ≤ 122 then byte - 32 else byte

def ligature (last : Byte) : Bytes :=
  if last = 0x80 then ascii "FF"
  else if last = 0x81 then ascii "FI"
  else if last = 0x82 then ascii "FL"
  else if last = 0x83 then ascii "FFI"
  else if last = 0x84 then ascii "FFL"
  else ascii "ST"

-- `to_uppercase` as far as a comparison with ASCII text can tell: besides a to z, the
-- characters with an ASCII uppercase are U+0131, U+017F, U+00DF and U+FB00 to U+FB06.
-- Every other character stays non-ASCII, as its uppercase form does.
def toUppercase : Bytes → Bytes
  | [] => []
  | lead :: rest =>
    match rest with
    | [] => [upperAscii lead]
    | second :: rest₁ =>
      if lead = 0xC4 ∧ second = 0xB1 then ascii "I" ++ toUppercase rest₁
      else if lead = 0xC5 ∧ second = 0xBF then ascii "S" ++ toUppercase rest₁
      else if lead = 0xC3 ∧ second = 0x9F then ascii "SS" ++ toUppercase rest₁
      else match rest₁ with
        | [] => upperAscii lead :: toUppercase [second]
        | third :: rest₂ =>
          if lead = 0xEF ∧ second = 0xAC ∧ 0x80 ≤ third ∧ third ≤ 0x86 then
            ligature third ++ toUppercase rest₂
          else upperAscii lead :: toUppercase (second :: third :: rest₂)

-- `parse::<u8>` and `parse::<usize>`: an optional plus sign, then digits below the bound.
def parseUnsigned (bound : Nat) (s : Str) : Option Nat :=
  let digits := match s.bytes with
    | 43 :: rest => rest
    | bytes => bytes
  if digits = [] ∨ digits.all Decimal.isDigit = false then none
  else if Decimal.value digits < bound then some (Decimal.value digits) else none

end Str

/-- What the code uses of the text form of `f32`: `to_string` and `parse::<f32>`. -/
class FloatText (F : Type) where
  toStr : F → Str
  parse : Str → Option F

def FloatText.RoundTrip (F : Type) [FloatText F] : Prop :=
  ∀ f : F, FloatText.parse (FloatText.toStr f) = some f

end OmegaDrive
