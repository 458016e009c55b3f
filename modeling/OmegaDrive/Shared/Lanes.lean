import Mathlib.Data.List.Basic

set_option autoImplicit false

/-! Bytes in memory as 32-bit words, in either byte order. -/

namespace Lanes

inductive ByteOrder where
  | little
  | big

variable (order : ByteOrder)

def word (b0 b1 b2 b3 : UInt8) : BitVec 32 :=
  match order with
  | .little => b3.toBitVec ++ b2.toBitVec ++ b1.toBitVec ++ b0.toBitVec
  | .big => b0.toBitVec ++ b1.toBitVec ++ b2.toBitVec ++ b3.toBitVec

def byte (word : BitVec 32) (i : Nat) : UInt8 := ⟨word.extractLsb' (8 * i) 8⟩

def wordBytes (word : BitVec 32) : List UInt8 :=
  match order with
  | .little => [byte word 0, byte word 1, byte word 2, byte word 3]
  | .big => [byte word 3, byte word 2, byte word 1, byte word 0]

theorem bytes_append (b3 b2 b1 b0 : BitVec 8) :
    byte (b3 ++ b2 ++ b1 ++ b0) 0 = ⟨b0⟩ ∧ byte (b3 ++ b2 ++ b1 ++ b0) 1 = ⟨b1⟩ ∧
      byte (b3 ++ b2 ++ b1 ++ b0) 2 = ⟨b2⟩ ∧ byte (b3 ++ b2 ++ b1 ++ b0) 3 = ⟨b3⟩ := by
  refine ⟨congrArg UInt8.ofBitVec ?_, congrArg UInt8.ofBitVec ?_, congrArg UInt8.ofBitVec ?_,
    congrArg UInt8.ofBitVec ?_⟩ <;>
  · ext b small
    simp
    grind

theorem wordBytes_word (b0 b1 b2 b3 : UInt8) :
    wordBytes order (word order b0 b1 b2 b3) = [b0, b1, b2, b3] := by
  cases order with
  | little =>
    obtain ⟨first, second, third, fourth⟩ :=
      bytes_append b3.toBitVec b2.toBitVec b1.toBitVec b0.toBitVec
    simp only [wordBytes, word, first, second, third, fourth]
  | big =>
    obtain ⟨first, second, third, fourth⟩ :=
      bytes_append b0.toBitVec b1.toBitVec b2.toBitVec b3.toBitVec
    simp only [wordBytes, word, first, second, third, fourth]

theorem append_xor (b3 b2 b1 b0 c3 c2 c1 c0 : BitVec 8) :
    (b3 ++ b2 ++ b1 ++ b0) ^^^ (c3 ++ c2 ++ c1 ++ c0) =
      (b3 ^^^ c3) ++ (b2 ^^^ c2) ++ (b1 ^^^ c1) ++ (b0 ^^^ c0) := by
  simp only [BitVec.xor_append]

theorem word_xor (b0 b1 b2 b3 c0 c1 c2 c3 : UInt8) :
    word order b0 b1 b2 b3 ^^^ word order c0 c1 c2 c3 =
      word order (b0 ^^^ c0) (b1 ^^^ c1) (b2 ^^^ c2) (b3 ^^^ c3) := by
  cases order with
  | little => exact append_xor ..
  | big => exact append_xor ..

def lanes : List UInt8 → List (BitVec 32)
  | b0 :: b1 :: b2 :: b3 :: rest => word order b0 b1 b2 b3 :: lanes rest
  | _ => []

def laneBytes (lanes : List (BitVec 32)) : List UInt8 := lanes.flatMap (wordBytes order)

-- A word XORed into every lane is its four bytes XORed into the memory, over and over.
theorem laneBytes_xor (mask : Vector UInt8 4) (n : Nat) (memory : List UInt8)
    (size : memory.length = 4 * n) :
    laneBytes order (List.zipWith (· ^^^ ·) (lanes order memory)
        (List.replicate n (word order mask[0] mask[1] mask[2] mask[3]))) =
      memory.mapIdx fun i byte => byte ^^^ mask[i % 4] := by
  induction n generalizing memory with
  | zero =>
    obtain rfl := List.eq_nil_of_length_eq_zero size
    rfl
  | succ n ih =>
    match memory, size with
    | b0 :: b1 :: b2 :: b3 :: rest, size =>
      have tail := ih rest (by simp at size; omega)
      rw [laneBytes] at tail ⊢
      rw [lanes, List.replicate_succ, List.zipWith_cons_cons, List.flatMap_cons, tail, word_xor,
        wordBytes_word]
      have phase (i : Nat) : (i + 1 + 1 + 1 + 1) % 4 = i % 4 := Nat.add_mod_right i 4
      simp [List.mapIdx_cons, phase]

end Lanes
