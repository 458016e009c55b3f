import Mathlib.Algebra.Ring.Nat
import Mathlib.Data.List.Basic

set_option autoImplicit false

namespace Decimal

def text (n : Nat) : List UInt8 := (Nat.toDigits 10 n).map Char.toUInt8

def isDigit (byte : UInt8) : Bool := 48 ≤ byte && byte ≤ 57

def digit (byte : UInt8) : Nat := (byte - 48).toNat

def value (digits : List UInt8) : Nat :=
  digits.foldl (fun total byte => total * 10 + digit byte) 0

/-- The value of a numeral in 32-bit arithmetic that wraps around. -/
def wrappingValue (digits : List UInt8) : UInt32 :=
  digits.foldl (fun total byte => total * 10 + (byte - 48).toUInt32) 0

theorem text_ne_nil (n : Nat) : text n ≠ [] := by
  simp [text, Nat.toDigits_ne_nil]

theorem toNat_toUInt8 (c : Char) (numeral : c.isDigit = true) :
    c.toUInt8.toNat = c.toNat ∧ 48 ≤ c.toNat ∧ c.toNat ≤ 57 := by
  simp only [Char.isDigit, Bool.and_eq_true, decide_eq_true_eq, ge_iff_le] at numeral
  obtain ⟨low, high⟩ := numeral
  have low' : 48 ≤ c.toNat := low
  have high' : c.toNat ≤ 57 := high
  refine ⟨?_, low', high'⟩
  change c.val.toUInt8.toNat = c.val.toNat
  have small : c.val.toNat ≤ 57 := high'
  rw [UInt32.toNat_toUInt8]
  omega

theorem isDigit_toUInt8 (c : Char) (numeral : c.isDigit = true) : isDigit c.toUInt8 = true := by
  obtain ⟨same, low, high⟩ := toNat_toUInt8 c numeral
  simp only [isDigit, Bool.and_eq_true, decide_eq_true_eq, UInt8.le_iff_toNat_le, same]
  exact ⟨low, high⟩

theorem digit_toUInt8 (c : Char) (numeral : c.isDigit = true) :
    digit c.toUInt8 = c.toNat - 48 := by
  obtain ⟨same, low, high⟩ := toNat_toUInt8 c numeral
  rw [digit, UInt8.toNat_sub_of_le _ _ (by rw [UInt8.le_iff_toNat_le, same]; exact low), same]
  rfl

theorem digits_text (n : Nat) : ∀ byte ∈ text n, isDigit byte = true := by
  intro byte member
  obtain ⟨c, inside, rfl⟩ := List.mem_map.mp member
  exact isDigit_toUInt8 c (Nat.isDigit_of_mem_toDigits (by omega) (by omega) inside)

theorem text_ne_cons (n : Nat) (byte : UInt8) (rest : List UInt8) (other : isDigit byte = false) :
    text n ≠ byte :: rest := by
  intro same
  have numeral := digits_text n byte (by rw [same]; exact List.mem_cons_self)
  rw [other] at numeral
  cases numeral

theorem value_text (n : Nat) : value (text n) = n := by
  have fold (cs : List Char) (numerals : ∀ c ∈ cs, c.isDigit = true) (start : Nat) :
      (cs.map Char.toUInt8).foldl (fun total byte => total * 10 + digit byte) start =
        Nat.ofDigitChars 10 cs start := by
    induction cs generalizing start with
    | nil => simp
    | cons c cs ih =>
      simp only [List.map_cons, List.foldl_cons, Nat.ofDigitChars_cons]
      rw [ih (fun c member => numerals c (List.mem_cons_of_mem _ member)),
        digit_toUInt8 c (numerals c List.mem_cons_self), Nat.mul_comm]
      rfl
  rw [value, text, fold _ fun c member =>
    Nat.isDigit_of_mem_toDigits (by omega) (by omega) member]
  exact Nat.ofDigitChars_ten_toDigits

theorem text_inj (n m : Nat) (same : text n = text m) : n = m := by
  rw [← value_text n, same, value_text]

theorem wrappingValue_eq (digits : List UInt8) :
    wrappingValue digits = UInt32.ofNat (value digits) := by
  have fold (start : Nat) :
      digits.foldl (fun total byte => total * 10 + (byte - 48).toUInt32) (UInt32.ofNat start) =
        UInt32.ofNat (digits.foldl (fun total byte => total * 10 + digit byte) start) := by
    induction digits generalizing start with
    | nil => rfl
    | cons byte rest ih =>
      simp only [List.foldl_cons]
      rw [← ih (start * 10 + digit byte), UInt32.ofNat_add, UInt32.ofNat_mul]
      have same : UInt32.ofNat (digit byte) = (byte - 48).toUInt32 := by
        simp [digit]
      rw [same]
      rfl
  exact fold 0

end Decimal
