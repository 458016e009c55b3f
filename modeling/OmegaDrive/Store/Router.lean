import Mathlib.Algebra.BigOperators.Fin
import Mathlib.Algebra.Order.Field.Basic
import Mathlib.Tactic.NormNum
import OmegaDrive.Shared.Bits
import OmegaDrive.Shared.Classifier
import OmegaDrive.Store.Gpu

set_option autoImplicit false

namespace OmegaDrive

open Classifier

/-! The router's two float layers, in exact arithmetic. -/

/-- The tensors as `to_vec` lays them out, in the shapes the loops index. -/
structure Router (R : Type) where
  routerW1 : Vector R (32 * 64)
  routerB1 : Vector R 32
  routerW2 : Vector R (100 * 32)
  routerB2 : Vector R 100

/-! The registers and the instructions of the lane-wise sums. -/

namespace Simd

-- `__m128`, from the lowest lane up
structure M128 (R : Type) where
  lane0 : R
  lane1 : R
  lane2 : R
  lane3 : R

-- `__m256`, as `_mm256_castps256_ps128` and `_mm256_extractf128_ps` take it apart
structure M256 (R : Type) where
  low : M128 R
  high : M128 R

variable {R : Type}

def setzeroPs [Zero R] : M256 R := ⟨⟨0, 0, 0, 0⟩, ⟨0, 0, 0, 0⟩⟩

def addPs [Add R] (a b : M128 R) : M128 R :=
  ⟨a.lane0 + b.lane0, a.lane1 + b.lane1, a.lane2 + b.lane2, a.lane3 + b.lane3⟩

def fmadd128 [Add R] [Mul R] (a b sum : M128 R) : M128 R :=
  ⟨a.lane0 * b.lane0 + sum.lane0, a.lane1 * b.lane1 + sum.lane1,
    a.lane2 * b.lane2 + sum.lane2, a.lane3 * b.lane3 + sum.lane3⟩

def fmaddPs [Add R] [Mul R] (a b sum : M256 R) : M256 R :=
  ⟨fmadd128 a.low b.low sum.low, fmadd128 a.high b.high sum.high⟩

def movehlPs (a b : M128 R) : M128 R := ⟨b.lane2, b.lane3, a.lane2, a.lane3⟩

-- `_mm_shuffle_ps(a, b, 1)`
def shuffleOne (a b : M128 R) : M128 R := ⟨a.lane1, a.lane0, b.lane0, b.lane0⟩

def addSs [Add R] (a b : M128 R) : M128 R := { a with lane0 := a.lane0 + b.lane0 }

end Simd

namespace Router

section Definitions

variable {R : Type} [Field R] (router : Router R)

def w1 (i : Fin 32) (j : Fin 64) : R := router.routerW1.get ⟨i * 64 + j, by omega⟩

def w2 (i : Fin 100) (j : Fin 32) : R := router.routerW2.get ⟨i * 32 + j, by omega⟩

-- `sum` starts at the bias and takes the products one by one.
def weighted {n : Nat} (bias : R) (row x : Fin n → R) : R :=
  (List.finRange n).foldl (fun sum j => sum + row j * x j) bias

variable [LinearOrder R]

theorem experts_pos : 0 < 100 := by decide

-- `f32::MIN`
def f32Min : R := -((2 ^ 24 - 1 : Nat) * 2 ^ 104 : Nat)

def forwardFallback (input : Chunk) : Expert :=
  let x (j : Fin 64) : R := ((input.get j).toNat : R) / 255
  let h (i : Fin 32) : R := max (weighted (router.routerB1.get i) (router.w1 i) x) 0
  let sum (i : Expert) : R := weighted (router.routerB2.get i) (router.w2 i) h
  (scan sum ⟨0, experts_pos⟩ f32Min (List.finRange 100)).1

/-- Eight values from the place the pointer stands at. -/
def loadPs {n : Nat} (values : Fin (n * 8) → R) (block : Fin n) : Simd.M256 R where
  low := ⟨values ⟨block * 8, by omega⟩, values ⟨block * 8 + 1, by omega⟩,
    values ⟨block * 8 + 2, by omega⟩, values ⟨block * 8 + 3, by omega⟩⟩
  high := ⟨values ⟨block * 8 + 4, by omega⟩, values ⟨block * 8 + 5, by omega⟩,
    values ⟨block * 8 + 6, by omega⟩, values ⟨block * 8 + 7, by omega⟩⟩

def horizontalSum (v : Simd.M256 R) : R :=
  let sum := Simd.addPs v.high v.low
  let shuf := Simd.movehlPs sum sum
  let sum2 := Simd.addPs sum shuf
  let shuf2 := Simd.shuffleOne sum2 sum2
  (Simd.addSs sum2 shuf2).lane0

-- Eight sums side by side from zero; their total, and then the bias.
def weightedAvx2 {n : Nat} (bias : R) (row x : Fin (n * 8) → R) : R :=
  let acc := (List.finRange n).foldl
    (fun acc block => Simd.fmaddPs (loadPs row block) (loadPs x block) acc) Simd.setzeroPs
  horizontalSum acc + bias

-- `1.0 / 255.0`, rounded to the float next to it
def avx2Scale : R := (8421505 : Nat) / (2 ^ 31 : Nat)

def forwardAvx2 (inv255 : R) (input : Chunk) : Expert :=
  let x (j : Fin 64) : R := ((input.get j).toNat : R) * inv255
  let h (i : Fin 32) : R := max (weightedAvx2 (n := 8) (router.routerB1.get i) (router.w1 i) x) 0
  let res (i : Expert) : R := weightedAvx2 (n := 4) (router.routerB2.get i) (router.w2 i) h
  (scan res ⟨0, experts_pos⟩ f32Min (List.finRange 100)).1

/-! The kernel's constants are not the CPU's: `0.0039215686f` is the float below the one next to
1/255, and the scan starts at `-1.0e30f`. -/

def deviceScale : R := (8421504 : Nat) / (2 ^ 31 : Nat)

def deviceFloor : R := -(13234890 * 2 ^ 76 : Nat)

-- The routing of one thread of `forward_router_batch`.
def forwardDevice (input : Chunk) : Expert :=
  let x (j : Fin 64) : R := ((input.get j).toNat : R) * deviceScale
  let h (i : Fin 32) : R :=
    let sum := weighted (router.routerB1.get i) (router.w1 i) x
    if 0 < sum then sum else 0
  let sum (i : Expert) : R := weighted (router.routerB2.get i) (router.w2 i) h
  (scan sum ⟨0, experts_pos⟩ deviceFloor (List.finRange 100)).1

-- Expert `i`'s 512 floats, eight to a byte.
def loadBitKeys (data : Vector R (100 * 512)) (i : Expert) : Chunk :=
  Vector.ofFn fun j => (List.finRange 8).foldl (fun byte (b : Fin 8) =>
    if 1 / (2 : Nat) < data.get ⟨i * 512 + (j * 8 + b), by omega⟩ then byte ||| UInt8.ofNat (2 ^ b.val)
    else byte) 0

theorem testBit_loadBitKeys (data : Vector R (100 * 512)) (i : Expert) (j : Fin 64) (b : Fin 8) :
    ((loadBitKeys data i).get j).toNat.testBit b =
      decide (1 / (2 : Nat) < data.get ⟨i * 512 + (j * 8 + b), by omega⟩) := by
  have packed (holds : Fin 8 → Bool) (bits : List (Fin 8)) (byte : Byte) :
      (bits.foldl (fun byte b => if holds b then byte ||| UInt8.ofNat (2 ^ b.val) else byte)
          byte).toNat.testBit b = (byte.toNat.testBit b || decide (b ∈ bits ∧ holds b)) := by
    induction bits generalizing byte with
    | nil => simp
    | cons first bits ih =>
      have place : decide (first.val = b) = decide (b = first) := by
        rw [decide_eq_decide, Fin.ext_iff, eq_comm]
      rw [List.foldl_cons, ih]
      by_cases set : holds first
      · rw [if_pos set, Bits.testBit_setBit _ _ _ first.isLt, place]
        by_cases same : b = first
        · simp [same, set]
        · simp [same]
      · rw [if_neg set]
        by_cases same : b = first
        · simp [same, set]
        · simp [same]
  have byte := packed (fun b => decide (1 / (2 : Nat) < data.get ⟨i * 512 + (j * 8 + b), by omega⟩))
    (List.finRange 8) 0
  simp only [decide_eq_true_eq, List.mem_finRange, true_and] at byte
  change ((loadBitKeys data i)[(j : Nat)]).toNat.testBit b = _
  simp only [loadBitKeys, Vector.getElem_ofFn]
  rw [byte]
  simp

end Definitions

section Scores

variable {R : Type} [Field R] [LinearOrder R] (router : Router R)

def scores (scale : R) (input : Chunk) : Expert → R :=
  dense router.w2 router.routerB2.get fun i =>
    relu (dense router.w1 router.routerB1.get (fun j => ((input.get j).toNat : R) * scale) i)

omit [LinearOrder R] in
theorem weighted_eq {n : Nat} (bias : R) (row x : Fin n → R) :
    weighted bias row x = bias + ∑ j, row j * x j := by
  have started (items : List (Fin n)) (start : R) :
      items.foldl (fun sum j => sum + row j * x j) start =
        start + (items.map fun j => row j * x j).sum := by
    induction items generalizing start with
    | nil => simp
    | cons j items ih => rw [List.foldl_cons, ih, List.map_cons, List.sum_cons, add_assoc]
  rw [weighted, started, Fin.sum_univ_def]

omit [LinearOrder R] in
theorem sum_blocks {n : Nat} (f : Fin (n * 8) → R) :
    ∑ c, f c = ∑ block : Fin n, ∑ lane : Fin 8, f ⟨block * 8 + lane, by omega⟩ := by
  rw [← finProdFinEquiv.sum_comp, Fintype.sum_prod_type]
  refine Finset.sum_congr rfl fun block _ => Finset.sum_congr rfl fun lane _ => congrArg f ?_
  apply Fin.ext
  simp only [finProdFinEquiv_apply_val]
  omega

omit [LinearOrder R] in
theorem horizontalSum_fmaddPs {n : Nat} (row x : Fin (n * 8) → R) (block : Fin n)
    (acc : Simd.M256 R) :
    horizontalSum (Simd.fmaddPs (loadPs row block) (loadPs x block) acc) = horizontalSum acc +
      ∑ lane : Fin 8, row ⟨block * 8 + lane, by omega⟩ * x ⟨block * 8 + lane, by omega⟩ := by
  simp only [horizontalSum, Simd.addPs, Simd.addSs, Simd.movehlPs, Simd.shuffleOne, Simd.fmaddPs,
    Simd.fmadd128, loadPs, Fin.sum_univ_eight, Fin.isValue, Fin.coe_ofNat_eq_mod, Nat.reduceMod,
    Nat.zero_mod, Nat.one_mod, Nat.mod_succ, add_zero]
  ring

omit [LinearOrder R] in
theorem weightedAvx2_eq {n : Nat} (bias : R) (row x : Fin (n * 8) → R) :
    weightedAvx2 bias row x = bias + ∑ c, row c * x c := by
  have summed (items : List (Fin n)) (acc : Simd.M256 R) :
      horizontalSum (items.foldl
          (fun acc block => Simd.fmaddPs (loadPs row block) (loadPs x block) acc) acc) =
        horizontalSum acc + (items.map fun block : Fin n =>
          ∑ lane : Fin 8, row ⟨block * 8 + lane, by omega⟩ * x ⟨block * 8 + lane, by omega⟩).sum := by
    induction items generalizing acc with
    | nil => simp
    | cons block items ih =>
      rw [List.foldl_cons, ih, horizontalSum_fmaddPs, List.map_cons, List.sum_cons, add_assoc]
  have zero : horizontalSum (Simd.setzeroPs : Simd.M256 R) = 0 := by
    simp [horizontalSum, Simd.setzeroPs, Simd.addPs, Simd.addSs, Simd.movehlPs, Simd.shuffleOne]
  rw [weightedAvx2, summed, zero, zero_add, sum_blocks, Fin.sum_univ_def, add_comm]

omit [LinearOrder R] in
theorem byte_div (byte : Byte) : (byte.toNat : R) / 255 = byte.toNat * (1 / 255) :=
  div_eq_mul_one_div _ _

theorem forwardFallback_elects (input : Chunk) :
    Elects f32Min (router.scores (1 / 255) input) (router.forwardFallback input) := by
  have same : router.scores (1 / 255) input = fun i =>
      weighted (router.routerB2.get i) (router.w2 i) fun i =>
        max (weighted (router.routerB1.get i) (router.w1 i)
          fun j => ((input.get j).toNat : R) / 255) 0 := by
    funext i
    simp only [weighted_eq, byte_div]
    rfl
  rw [same]
  exact elects_scan _ _

theorem forwardAvx2_elects (inv255 : R) (input : Chunk) :
    Elects f32Min (router.scores inv255 input) (router.forwardAvx2 inv255 input) := by
  have same : router.scores inv255 input = fun i =>
      weightedAvx2 (n := 4) (router.routerB2.get i) (router.w2 i) fun i =>
        max (weightedAvx2 (n := 8) (router.routerB1.get i) (router.w1 i)
          fun j => ((input.get j).toNat : R) * inv255) 0 := by
    funext i
    simp only [weightedAvx2_eq]
    rfl
  rw [same]
  exact elects_scan _ _

theorem forwardAvx2_eq (input : Chunk) :
    router.forwardAvx2 (1 / 255) input = router.forwardFallback input :=
  (router.forwardAvx2_elects (1 / 255) input).unique (router.forwardFallback_elects input)

theorem forwardDevice_elects (input : Chunk) :
    Elects deviceFloor (router.scores deviceScale input) (router.forwardDevice input) := by
  have relu_eq (z : R) : (if 0 < z then z else 0) = relu z := by
    rw [relu]
    split
    next positive => exact (max_eq_left positive.le).symm
    next negative => exact (max_eq_right (not_lt.mp negative)).symm
  have same : router.scores deviceScale input = fun i =>
      weighted (router.routerB2.get i) (router.w2 i) fun i =>
        if 0 < weighted (router.routerB1.get i) (router.w1 i)
            (fun j => ((input.get j).toNat : R) * deviceScale) then
          weighted (router.routerB1.get i) (router.w1 i)
            fun j => ((input.get j).toNat : R) * deviceScale
        else 0 := by
    funext i
    simp only [weighted_eq, relu_eq]
    rfl
  rw [same]
  exact elects_scan _ _

theorem router_elects (input : Chunk) :
    router.forwardAvx2 (1 / 255) input = router.forwardFallback input ∧
      Elects f32Min (router.scores (1 / 255) input) (router.forwardFallback input) ∧
      Elects f32Min (router.scores avx2Scale input) (router.forwardAvx2 avx2Scale input) ∧
      Elects deviceFloor (router.scores deviceScale input) (router.forwardDevice input) :=
  ⟨router.forwardAvx2_eq input, router.forwardFallback_elects input,
    router.forwardAvx2_elects avx2Scale input, router.forwardDevice_elects input⟩

variable [IsStrictOrderedRing R]

end Scores

end Router

def brightRow : Chunk := Vector.replicate 64 255

theorem brightRow_get (j : Fin 64) : (brightRow.get j).toNat = 255 := by
  change ((Vector.replicate 64 (255 : Byte))[(j : Nat)]).toNat = 255
  rw [Vector.getElem_replicate]
  rfl

-- Expert 1 scores 2⁻¹⁴ on the CPU and nothing on the device; every other expert scores nothing.
def edgeRouter : Router ℚ where
  routerW1 := Vector.replicate _ 1
  routerB1 := Vector.replicate _ (-(64 - 1 / 2 ^ 19))
  routerW2 := Vector.ofFn fun c => if c.val / 32 = 1 then 1 else 0
  routerB2 := Vector.replicate _ 0

-- Without a lead the two scales can decide differently.
theorem device_differs : ¬∀ (router : Router ℚ) (input : Chunk),
    router.forwardDevice input = router.forwardFallback input := by
  intro same
  have row1 (i : Fin 32) (j : Fin 64) : edgeRouter.w1 i j = 1 := by
    simp [Router.w1, edgeRouter, Vector.get]
  have bias1 (i : Fin 32) : edgeRouter.routerB1.get i = -(64 - 1 / 2 ^ 19) := by
    simp [edgeRouter, Vector.get]
  have row2 (i : Expert) (j : Fin 32) : edgeRouter.w2 i j = if i = 1 then 1 else 0 := by
    have place : (i * 32 + j : Nat) / 32 = i := by omega
    change (Vector.ofFn _)[(i * 32 + j : Nat)] = _
    rw [Vector.getElem_ofFn]
    simp only [place, Fin.ext_iff]
    rfl
  have bias2 (i : Expert) : edgeRouter.routerB2.get i = 0 := by
    simp [edgeRouter, Vector.get]
  have score (scale : ℚ) (i : Expert) : edgeRouter.scores scale brightRow i =
      if i = 1 then 32 * relu (-(64 - 1 / 2 ^ 19) + 64 * (255 * scale)) else 0 := by
    simp only [Router.scores, dense, brightRow_get, row1, bias1, row2, bias2]
    split <;> simp
  have cpu : edgeRouter.forwardFallback brightRow = 1 := by
    refine (edgeRouter.forwardFallback_elects brightRow).unique
      (.inr ⟨?_, fun i less => ?_, fun i => ?_⟩)
    · rw [score]
      norm_num [relu, Router.f32Min]
    · rw [score, score, if_neg less.ne]
      norm_num [relu]
    · rw [score, score]
      split <;> norm_num [relu]
  have device : edgeRouter.forwardDevice brightRow = 0 := by
    have zero (i : Expert) : edgeRouter.scores Router.deviceScale brightRow i = 0 := by
      rw [score]
      split <;> norm_num [relu, Router.deviceScale]
    refine (edgeRouter.forwardDevice_elects brightRow).unique
      (.inr ⟨?_, fun i less => ?_, fun i => ?_⟩)
    · rw [zero]
      norm_num [Router.deviceFloor]
    · exact absurd less (Fin.not_lt_zero i)
    · rw [zero, zero]
  have both := same edgeRouter brightRow
  rw [cpu, device] at both
  exact absurd both (by decide)

end OmegaDrive
