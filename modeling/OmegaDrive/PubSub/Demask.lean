import OmegaDrive.Resp.Text
import OmegaDrive.Shared.Lanes

set_option autoImplicit false

namespace OmegaDrive

open Lanes

/-! The payload of a client's WebSocket frame, XORed with the four bytes of its mask. -/

def demaskFallback (data : Bytes) (mask : Vector Byte 4) : Bytes :=
  data.mapIdx fun i byte => byte ^^^ mask[i % 4]

/-- A 256-bit register, as eight lanes of 32 bits. -/
abbrev M256i := List (BitVec 32)

def set1Epi32 (a : BitVec 32) : M256i := List.replicate 8 a

def xorSi256 (a b : M256i) : M256i := List.zipWith (· ^^^ ·) a b

section Memory

variable (order : ByteOrder) (data : Bytes) (i : Nat)

-- `_mm256_loadu_si256` and `_mm256_storeu_si256` at `data.as_mut_ptr().add(i)`.
def loaduSi256 : M256i := lanes order ((data.drop i).take 32)

def storeuSi256 (a : M256i) : Bytes := data.take i ++ laneBytes order a ++ data.drop (i + 32)

end Memory

section Demask

variable (order : ByteOrder)

/-- The `while` loop: the position and the data after it. -/
def demaskBlocks (len : Nat) (vMask : M256i) (data : Bytes) (i : Nat) : Bytes × Nat :=
  if i + 32 ≤ len then
    let vData := loaduSi256 order data i
    let vRes := xorSi256 vData vMask
    demaskBlocks len vMask (storeuSi256 order data i vRes) (i + 32)
  else (data, i)
  termination_by len - i

def demaskAvx2Impl (data : Bytes) (mask : Vector Byte 4) : Bytes :=
  let len := data.length
  let maskU32 := word order mask[0] mask[1] mask[2] mask[3]
  let vMask := set1Epi32 maskU32
  let (data, i) := demaskBlocks order len vMask data 0
  if i < len then data.take i ++ demaskFallback (data.drop i) mask else data

-- `is_x86_feature_detected!("avx2")` on an x86 target.
def demask (avx2 : Bool) (data : Bytes) (mask : Vector Byte 4) : Bytes :=
  if avx2 then demaskAvx2Impl order data mask else demaskFallback data mask

variable (mask : Vector Byte 4)

@[simp]
theorem length_demaskFallback (data : Bytes) :
    (demaskFallback data mask).length = data.length := by
  simp [demaskFallback]

theorem demaskFallback_append (front back : Bytes) (aligned : front.length % 4 = 0) :
    demaskFallback (front ++ back) mask = demaskFallback front mask ++ demaskFallback back mask := by
  have phase (i : Nat) : (i + front.length) % 4 = i % 4 := by omega
  simp only [demaskFallback, List.mapIdx_append, phase]

theorem xor_block (block : Bytes) (size : block.length = 32) :
    laneBytes order (xorSi256 (lanes order block)
      (set1Epi32 (word order mask[0] mask[1] mask[2] mask[3]))) = demaskFallback block mask :=
  laneBytes_xor order mask 8 block size

theorem store_block (front block back : Bytes) (size : block.length = 32) :
    storeuSi256 order (front ++ (block ++ back)) front.length
        (xorSi256 (loaduSi256 order (front ++ (block ++ back)) front.length)
          (set1Epi32 (word order mask[0] mask[1] mask[2] mask[3]))) =
      front ++ demaskFallback block mask ++ back := by
  have loaded : loaduSi256 order (front ++ (block ++ back)) front.length = lanes order block := by
    rw [loaduSi256, List.drop_left, ← size, List.take_left]
  have kept : (front ++ (block ++ back)).drop (front.length + 32) = back := by
    rw [← size, ← List.drop_drop, List.drop_left, List.drop_left]
  rw [storeuSi256, loaded, xor_block order mask block size, List.take_left, kept]

theorem demaskBlocks_eq (front back : Bytes) :
    ∃ blocks rest, back = blocks ++ rest ∧ blocks.length % 32 = 0 ∧
      demaskBlocks order (front ++ back).length
        (set1Epi32 (word order mask[0] mask[1] mask[2] mask[3])) (front ++ back) front.length =
        (front ++ demaskFallback blocks mask ++ rest, front.length + blocks.length) := by
  induction size : back.length using Nat.strongRecOn generalizing front back with
  | ind size ih =>
    subst size
    rw [demaskBlocks, List.length_append]
    by_cases long : 32 ≤ back.length
    · have taken : (back.take 32).length = 32 := by
        rw [List.length_take]
        omega
      have split := List.take_append_drop 32 back
      have stored := store_block order mask front (back.take 32) (back.drop 32) taken
      rw [split] at stored
      obtain ⟨blocks, rest, parted, whole, ran⟩ := ih (back.drop 32).length
        (by rw [List.length_drop]; omega) (front ++ demaskFallback (back.take 32) mask)
        (back.drop 32) rfl
      refine ⟨back.take 32 ++ blocks, rest, ?_, ?_, ?_⟩
      · rw [List.append_assoc, ← parted, split]
      · rw [List.length_append, taken]
        omega
      · have size : (front ++ demaskFallback (back.take 32) mask).length = front.length + 32 := by
          rw [List.length_append, length_demaskFallback, taken]
        have total : (front ++ demaskFallback (back.take 32) mask ++ back.drop 32).length =
            front.length + back.length := by
          rw [List.length_append, size, List.length_drop]
          omega
        rw [total, size] at ran
        rw [if_pos (by omega)]
        simp only [stored, ran]
        rw [demaskFallback_append mask _ _ (by rw [taken]), List.length_append, taken]
        simp only [List.append_assoc, Nat.add_assoc]
    · refine ⟨[], back, rfl, rfl, ?_⟩
      rw [if_neg (by omega)]
      simp [demaskFallback]

theorem demaskAvx2Impl_eq (data : Bytes) :
    demaskAvx2Impl order data mask = demaskFallback data mask := by
  obtain ⟨blocks, rest, rfl, whole, ran⟩ := demaskBlocks_eq order mask [] data
  simp only [List.nil_append, List.length_nil, Nat.zero_add] at ran
  have size := length_demaskFallback mask blocks
  simp only [demaskAvx2Impl, ran]
  rw [demaskFallback_append mask blocks rest (by omega), ← size, List.take_left, List.drop_left]
  split
  next => rfl
  next stopped =>
    have nothing : rest = [] := by
      apply List.eq_nil_of_length_eq_zero
      rw [List.length_append] at stopped
      omega
    rw [nothing]
    rfl

theorem demask_agrees (data : Bytes) :
    demaskAvx2Impl order data mask = demaskFallback data mask ∧
      ∀ avx2, demask order avx2 data mask = demaskFallback data mask := by
  constructor
  · exact demaskAvx2Impl_eq order mask data
  · intro avx2
    cases avx2 with
    | false => rfl
    | true => exact demaskAvx2Impl_eq order mask data

end Demask

end OmegaDrive
