import OmegaDrive.Resp.RoundTrip

set_option autoImplicit false

namespace OmegaDrive

theorem text_plain (n : Nat) : ∀ byte ∈ Decimal.text n, byte < 0x80 := by
  intro byte member
  have numeral := Decimal.digits_text n byte member
  simp only [Decimal.isDigit, Bool.and_eq_true, decide_eq_true_eq, UInt8.le_iff_toNat_le] at numeral
  rw [UInt8.lt_iff_toNat_lt]
  exact Nat.lt_of_le_of_lt numeral.2 (by decide)

theorem signedText_plain (value : Int) : ∀ byte ∈ signedText value, byte < 0x80 := by
  intro byte member
  unfold signedText at member
  split at member
  · rcases List.mem_append.mp member with sign | digits
    · obtain rfl : byte = 45 := List.mem_singleton.mp sign
      decide
    · exact text_plain _ byte digits
  · exact text_plain _ byte member

def parseWhole (digits : Bytes) : Option Nat :=
  if digits = [] ∨ digits.all Decimal.isDigit = false then none else some (Decimal.value digits)

theorem parseWhole_text (n : Nat) : parseWhole (Decimal.text n) = some n := by
  have numeral : (Decimal.text n).all Decimal.isDigit = true :=
    List.all_eq_true.mpr (Decimal.digits_text n)
  simp [parseWhole, Decimal.text_ne_nil, numeral, Decimal.value_text]

-- Whole numbers print and parse as the floats of the same value do.
instance : FloatText Int where
  toStr value := ⟨signedText value, validUtf8_ascii _ (signedText_plain value)⟩
  parse text :=
    match text.bytes with
    | 45 :: digits => (parseWhole digits).map fun (n : Nat) => -(n : Int)
    | digits => (parseWhole digits).map fun (n : Nat) => (n : Int)

theorem roundTrip_int : FloatText.RoundTrip Int := by
  intro value
  change (match signedText value with
    | 45 :: digits => (parseWhole digits).map fun (n : Nat) => -(n : Int)
    | digits => (parseWhole digits).map fun (n : Nat) => (n : Int)) = some value
  by_cases negative : value < 0
  · have shown : signedText value = 45 :: Decimal.text value.natAbs := by
      simp only [signedText, negative, if_true]
      rfl
    simp only [shown, parseWhole_text, Option.map_some]
    exact congrArg some (by omega)
  · have shown : signedText value = Decimal.text value.natAbs := by
      simp only [signedText, negative, if_false]
    rw [shown]
    split
    next digits minus => exact absurd minus (Decimal.text_ne_cons _ 45 digits rfl)
    next =>
      rw [parseWhole_text, Option.map_some]
      exact congrArg some (by omega)

end OmegaDrive
