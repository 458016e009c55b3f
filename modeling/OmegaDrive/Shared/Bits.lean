import Mathlib.Algebra.Ring.Nat
import Mathlib.Data.List.GetD

set_option autoImplicit false

namespace Bits

/-- Bit `i % 8` of byte `i / 8` is set, for each `i` below the limit where `bit` holds. -/
def pack (bit : Nat → Bool) (limit count : Nat) : List UInt8 :=
  (List.range limit).foldl (fun packed i =>
    if bit i then packed.modify (i / 8) (· ||| UInt8.ofNat (2 ^ (i % 8))) else packed)
    (List.replicate count 0)

def word (bytes : Nat → UInt8) : BitVec 64 :=
  (List.range 8).foldl (fun val j => val ||| BitVec.ofNat 64 (bytes j).toNat <<< (j * 8)) 0#64

theorem testBit_high (byte : UInt8) (i : Nat) (high : 8 ≤ i) : byte.toNat.testBit i = false := by
  apply Nat.testBit_lt_two_pow
  exact Nat.lt_of_lt_of_le byte.toNat_lt (Nat.pow_le_pow_right (by decide) high)

theorem testBit_setBit (byte : UInt8) (i r : Nat) (small : i < 8) :
    (byte ||| UInt8.ofNat (2 ^ i)).toNat.testBit r = (byte.toNat.testBit r || decide (i = r)) := by
  have fits : 2 ^ i < 2 ^ 8 := Nat.pow_lt_pow_right (by decide) small
  rw [UInt8.toNat_or, Nat.testBit_or, UInt8.toNat_ofNat_of_lt' fits, Nat.testBit_two_pow]

section Packing

variable {α : Type} (width : Nat) (setBit : α → Nat → α) (zero : α)

def packCells (bit : Nat → Bool) (limit count : Nat) : List α :=
  (List.range limit).foldl (fun packed i =>
    if bit i then packed.modify (i / width) (setBit · (i % width)) else packed)
    (List.replicate count zero)

variable (bit : Nat → Bool) (limit count : Nat)

theorem packCells_succ :
    packCells width setBit zero bit (limit + 1) count =
      if bit limit then
        (packCells width setBit zero bit limit count).modify (limit / width)
          (setBit · (limit % width))
      else packCells width setBit zero bit limit count := by
  rw [packCells, List.range_succ, List.foldl_append, List.foldl_cons, List.foldl_nil, ← packCells]

@[simp]
theorem length_packCells : (packCells width setBit zero bit limit count).length = count := by
  induction limit with
  | zero => simp [packCells]
  | succ limit ih =>
    rw [packCells_succ]
    split
    next => rw [List.length_modify, ih]
    next => exact ih

variable {width setBit zero} (bitAt : α → Nat → Bool)

theorem bitAt_modify
    (set : ∀ cell, ∀ i < width, ∀ r, bitAt (setBit cell i) r = (bitAt cell r || decide (i = r)))
    (cells : List α) (i q r : Nat) (small : r < width) (inside : q < cells.length) :
    bitAt ((cells.modify (i / width) (setBit · (i % width))).getD q zero) r =
      (bitAt (cells.getD q zero) r || decide (q * width + r = i)) := by
  have positive : 0 < width := Nat.zero_lt_of_lt small
  have place : q * width + r = i ↔ i / width = q ∧ i % width = r := by
    constructor
    · rintro rfl
      rw [Nat.mul_comm, Nat.mul_add_div positive, Nat.div_eq_of_lt small, Nat.add_zero, Nat.mul_comm]
      exact ⟨rfl, Nat.mul_add_mod_of_lt small⟩
    · rintro ⟨rfl, rfl⟩
      exact Nat.div_add_mod' i width
  rw [List.getD_eq_getElem _ _ inside,
    List.getD_eq_getElem _ _ (by rw [List.length_modify]; exact inside), List.getElem_modify]
  split
  next cell => simp [place, cell, set _ _ (Nat.mod_lt i positive)]
  next other => simp [place, other]

theorem bitAt_packCells (unset : ∀ r < width, bitAt zero r = false)
    (set : ∀ cell, ∀ i < width, ∀ r, bitAt (setBit cell i) r = (bitAt cell r || decide (i = r)))
    (q r : Nat) (small : r < width) (inside : q < count) :
    bitAt ((packCells width setBit zero bit limit count).getD q zero) r =
      (decide (q * width + r < limit) && bit (q * width + r)) := by
  induction limit with
  | zero => simp [packCells, List.getD_eq_getElem?_getD, inside, unset r small]
  | succ limit ih =>
    have later : decide (q * width + r < limit + 1) =
        (decide (q * width + r < limit) || decide (q * width + r = limit)) := by
      rw [← Bool.decide_or, decide_eq_decide]
      omega
    rw [packCells_succ, later]
    split
    next holds =>
      rw [bitAt_modify bitAt set _ _ _ _ small (by rw [length_packCells]; exact inside), ih]
      by_cases here : q * width + r = limit
      · simp [here, holds]
      · simp [here]
    next unheld =>
      rw [ih]
      by_cases here : q * width + r = limit
      · simp [here, unheld]
      · simp [here]

end Packing

theorem pack_eq (bit : Nat → Bool) (limit count : Nat) :
    pack bit limit count = packCells 8 (fun byte i => byte ||| UInt8.ofNat (2 ^ i)) 0 bit limit
      count := rfl

theorem testBit_pack (bit : Nat → Bool) (limit count q r : Nat) (small : r < 8)
    (inside : q < count) :
    ((pack bit limit count).getD q 0).toNat.testBit r =
      (decide (q * 8 + r < limit) && bit (q * 8 + r)) := by
  rw [pack_eq]
  refine bitAt_packCells bit limit count (fun byte : UInt8 => byte.toNat.testBit) ?_ ?_ q r small
    inside
  · exact fun r _ => Nat.zero_testBit r
  · exact fun byte i low r => testBit_setBit byte i r low

-- Bit `i % 64` of word `i / 64`.
def packWords (bit : Nat → Bool) (limit count : Nat) : List (BitVec 64) :=
  packCells 64 (fun word i => word ||| 1#64 <<< i) 0#64 bit limit count

theorem getLsbD_setBit (word : BitVec 64) (i r : Nat) (small : i < 64) :
    (word ||| 1#64 <<< i).getLsbD r = (word.getLsbD r || decide (i = r)) := by
  rw [BitVec.getLsbD_or, BitVec.getLsbD_shiftLeft, BitVec.getLsbD_one]
  congr 1
  rw [Bool.eq_iff_iff]
  simp only [Bool.and_eq_true, Bool.not_eq_true', decide_eq_true_eq, decide_eq_false_iff_not]
  omega

theorem getLsbD_packWords (bit : Nat → Bool) (limit count q r : Nat) (small : r < 64)
    (inside : q < count) :
    ((packWords bit limit count).getD q 0).getLsbD r =
      (decide (q * 64 + r < limit) && bit (q * 64 + r)) := by
  apply bitAt_packCells bit limit count BitVec.getLsbD _ _ q r small inside
  · exact fun r _ => BitVec.getLsbD_zero
  · exact fun word i low r => getLsbD_setBit word i r low

theorem getLsbD_word (bytes : Nat → UInt8) (b : Nat) (small : b < 64) :
    (word bytes).getLsbD b = (bytes (b / 8)).toNat.testBit (b % 8) := by
  suffices upTo : ∀ n ≤ 8, ((List.range n).foldl
      (fun val j => val ||| BitVec.ofNat 64 (bytes j).toNat <<< (j * 8)) 0#64).getLsbD b =
        (decide (b < n * 8) && (bytes (b / 8)).toNat.testBit (b % 8)) by
    have whole := upTo 8 (Nat.le_refl _)
    rwa [decide_eq_true small, Bool.true_and] at whole
  intro n few
  induction n with
  | zero => simp
  | succ n ih =>
    rw [List.range_succ, List.foldl_append, List.foldl_cons, List.foldl_nil, BitVec.getLsbD_or,
      ih (by omega), BitVec.getLsbD_shiftLeft, BitVec.getLsbD_ofNat]
    by_cases below : b < n * 8
    · have later : b < (n + 1) * 8 := by omega
      simp [below, later]
    · by_cases here : b < (n + 1) * 8
      · have byte : b / 8 = n := by omega
        have offset : b % 8 = b - n * 8 := by omega
        have shifted : b - n * 8 < 64 := by omega
        simp [below, here, small, byte, offset, shifted]
      · have high := testBit_high (bytes n) (b - n * 8) (by omega)
        simp [below, here, high]

end Bits
