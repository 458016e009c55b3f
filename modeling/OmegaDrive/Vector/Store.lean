import Mathlib.Algebra.Ring.Int.Defs
import OmegaDrive.Store.Database

set_option autoImplicit false

namespace OmegaDrive

class FloatArith (F : Type) where
  zero : F
  -- `>= 0.0`
  isNonneg : F → Bool
  add : F → F → F
  mul : F → F → F
  div : F → F → F
  -- `as f32`
  ofInt : Int → F
  -- `as i32`: truncating, and saturating at the ends of the range
  toI32 : F → Int

abbrev Word := BitVec 64

def countOnes (word : Word) : Nat := (List.range 64).countP word.getLsbD

/-- The word whose bits are set one after the other where `bit` holds. -/
def setBits (bit : Nat → Bool) : Word :=
  (List.range 64).foldl (fun word b => if bit b then word ||| 1#64 <<< b else word) 0#64

structure BlockSignature where
  sHigh : List Word
  sLow : List Word
  numSuperpositions : Nat
  startIdx : Nat
  endIdx : Nat
  deriving DecidableEq

structure CoreShard (F : Type) where
  keys : List AirKey
  data : List Word
  floatData : List F
  blocks : List BlockSignature

namespace CoreShard

variable {F : Type}

def new : CoreShard F := ⟨[], [], [], []⟩

section Signature

variable (data : List Word) (startIdx endIdx numBlocks : Nat)

-- `bit_counts[b]` for one word of the block's vectors.
def bitCount (wordIdx b : Nat) : Nat :=
  (List.range' startIdx (endIdx - startIdx)).countP fun vIdx =>
    (data.getD (vIdx * numBlocks + wordIdx) 0).getLsbD b

def highBit (wordIdx b : Nat) : Bool :=
  (endIdx - startIdx) * 7 / 10 ≤ bitCount data startIdx endIdx numBlocks wordIdx b

def lowBit (wordIdx b : Nat) : Bool :=
  !highBit data startIdx endIdx numBlocks wordIdx b &&
    bitCount data startIdx endIdx numBlocks wordIdx b ≤ (endIdx - startIdx) * 3 / 10

-- Every index is inside `data`, which `add` has just extended by a whole row.
def computeSignature : BlockSignature :=
  let sHigh := (List.range numBlocks).map fun wordIdx =>
    setBits (highBit data startIdx endIdx numBlocks wordIdx)
  let sLow := (List.range numBlocks).map fun wordIdx =>
    setBits (lowBit data startIdx endIdx numBlocks wordIdx)
  { sHigh, sLow
    numSuperpositions :=
      (List.zipWith (fun sh sl => countOnes (~~~(sh ||| sl))) sHigh sLow).sum % 2 ^ 32
    startIdx, endIdx }

@[simp] theorem startIdx_computeSignature :
    (computeSignature data startIdx endIdx numBlocks).startIdx = startIdx := rfl

@[simp] theorem endIdx_computeSignature :
    (computeSignature data startIdx endIdx numBlocks).endIdx = endIdx := rfl

end Signature

def blockSize : Nat := 128

-- A complete last block is left alone, a growing one is computed again, and once it is full
-- the next block is started.
def rebuiltBlocks (shard : CoreShard F) (numBlocks : Nat) : List BlockSignature :=
  let numVectors := shard.keys.length
  let expectedBlocks := numVectors / blockSize + if numVectors % blockSize ≠ 0 then 1 else 0
  match if shard.blocks.length = expectedBlocks then shard.blocks.getLast? else none with
  | some lastBlock =>
    if lastBlock.endIdx ≠ numVectors then
      shard.blocks.dropLast ++
        [computeSignature shard.data lastBlock.startIdx numVectors numBlocks]
    else shard.blocks
  | none =>
    let startBlock := shard.blocks.length
    shard.blocks ++ (List.range' startBlock (expectedBlocks - startBlock)).map fun bIdx =>
      computeSignature shard.data (bIdx * blockSize) (min ((bIdx + 1) * blockSize) numVectors)
        numBlocks

def rebuildBlocks (shard : CoreShard F) (numBlocks : Nat) : CoreShard F :=
  { shard with blocks := shard.rebuiltBlocks numBlocks }

end CoreShard

structure SharedVectorStore (F : Type) where
  shards : List (CoreShard F)
  dim : Nat
  numBlocks : Nat
  writeCounter : Nat

namespace SharedVectorStore

variable {F : Type}

-- The assertion on the dimension is the caller's proof.
def new (dim numCpus : Nat) (_aligned : dim % 64 = 0) : SharedVectorStore F :=
  { shards := List.replicate (max numCpus 4) CoreShard.new
    dim
    numBlocks := dim / 64
    writeCounter := 0 }

section Arithmetic

variable [FloatArith F]

-- Bit `i % 8` of byte `i / 8`, then eight bytes to a little-endian word.
def quantize (store : SharedVectorStore F) (floats : List F) : List Word :=
  let limit := min floats.length store.dim
  let packed : Bytes := (List.range limit).foldl (fun packed i =>
    if FloatArith.isNonneg (floats.getD i FloatArith.zero) then
      packed.modify (i / 8) (· ||| UInt8.ofNat (2 ^ (i % 8)))
    else packed) (List.replicate (store.numBlocks * 8) 0)
  (List.range store.numBlocks).map fun i =>
    (List.range 8).foldl (fun val j =>
      val ||| BitVec.ofNat 64 (packed.getD (i * 8 + j) 0).toNat <<< (j * 8)) 0#64

-- A zeroed row of `dim` floats with the vector copied over its beginning.
def padFloats (dim : Nat) (floats : List F) : List F :=
  let row := List.replicate dim FloatArith.zero
  let len := min floats.length dim
  floats.take len ++ row.drop len

def addToShard (dim numBlocks : Nat) (key : AirKey) (bitVector : List Word)
    (floatVector : List F) (shard : CoreShard F) : CoreShard F :=
  ({ shard with
      keys := shard.keys ++ [key]
      data := shard.data ++ bitVector
      floatData := shard.floatData ++ padFloats dim floatVector } : CoreShard F).rebuildBlocks
    numBlocks

def add (store : SharedVectorStore F) (key : AirKey) (bitVector : List Word)
    (floatVector : List F) : SharedVectorStore F :=
  let idx := store.writeCounter
  { store with
    shards := store.shards.modify (idx % store.shards.length)
      (addToShard store.dim store.numBlocks key bitVector floatVector)
    writeCounter := (idx + 1) % 2 ^ 64 }

end Arithmetic

def clear (store : SharedVectorStore F) : SharedVectorStore F :=
  { store with
    shards := store.shards.map fun _ => CoreShard.new
    writeCounter := 0 }

def len (store : SharedVectorStore F) : Nat :=
  (store.shards.map fun shard => shard.keys.length).sum

end SharedVectorStore

inductive StoreOp (F : Type) where
  | add (key : AirKey) (quantized floats : List F)
  | clear

namespace SharedVectorStore

variable {F : Type} [FloatArith F]

def apply (store : SharedVectorStore F) : StoreOp F → SharedVectorStore F
  | .add key quantized floats => store.add key (store.quantize quantized) floats
  | .clear => store.clear

def run (store : SharedVectorStore F) (ops : List (StoreOp F)) : SharedVectorStore F :=
  ops.foldl apply store

-- The signatures of every block of `n` vectors, the last one perhaps not full.
def blocksOf (numBlocks : Nat) (data : List Word) (n : Nat) : List BlockSignature :=
  (List.range ((n + 127) / 128)).map fun bIdx =>
    CoreShard.computeSignature data (bIdx * 128) (min ((bIdx + 1) * 128) n) numBlocks

/-- A shard holds whole rows, and one signature for each 128 of them. -/
structure Laid (dim numBlocks : Nat) (shard : CoreShard F) : Prop where
  data_length : shard.data.length = shard.keys.length * numBlocks
  float_length : shard.floatData.length = shard.keys.length * dim
  blocks_eq : shard.blocks = blocksOf numBlocks shard.data shard.keys.length

structure WellFormed (store : SharedVectorStore F) : Prop where
  blocks : store.numBlocks * 64 = store.dim
  shards : ∀ shard ∈ store.shards, Laid store.dim store.numBlocks shard

theorem length_quantize (store : SharedVectorStore F) (floats : List F) :
    (store.quantize floats).length = store.numBlocks := by
  simp [quantize]

theorem quantize_congr (store other : SharedVectorStore F) (dim : store.dim = other.dim)
    (blocks : store.numBlocks = other.numBlocks) (floats : List F) :
    store.quantize floats = other.quantize floats := by
  simp only [quantize, dim, blocks]

theorem padFloats_eq (dim : Nat) (floats : List F) : padFloats dim floats =
    floats.take dim ++ List.replicate (dim - floats.length) FloatArith.zero := by
  rcases Nat.le_total floats.length dim with short | long
  · simp [padFloats, Nat.min_eq_left short, List.take_of_length_le short]
  · simp [padFloats, Nat.min_eq_right long, Nat.sub_eq_zero_of_le long]

theorem length_padFloats (dim : Nat) (floats : List F) : (padFloats dim floats).length = dim := by
  simp only [padFloats_eq, List.length_append, List.length_take, List.length_replicate]
  omega

omit [FloatArith F] in
theorem bitCount_append (data more : List Word) (startIdx endIdx numBlocks wordIdx b : Nat)
    (inside : endIdx * numBlocks ≤ data.length) (word : wordIdx < numBlocks) :
    CoreShard.bitCount (data ++ more) startIdx endIdx numBlocks wordIdx b =
      CoreShard.bitCount data startIdx endIdx numBlocks wordIdx b := by
  apply List.countP_congr
  intro vIdx member
  have below : vIdx + 1 ≤ endIdx := by
    have := List.mem_range'_1.mp member
    omega
  have row : (vIdx + 1) * numBlocks ≤ endIdx * numBlocks := Nat.mul_le_mul_right _ below
  have index : vIdx * numBlocks + wordIdx < data.length := by
    rw [Nat.add_mul, Nat.one_mul] at row
    omega
  simp [List.getD_eq_getElem?_getD, List.getElem?_append_left index]

-- A block keeps its signature when vectors are added after it.
theorem computeSignature_append (data more : List Word) (startIdx endIdx numBlocks : Nat)
    (inside : endIdx * numBlocks ≤ data.length) :
    CoreShard.computeSignature (data ++ more) startIdx endIdx numBlocks =
      CoreShard.computeSignature data startIdx endIdx numBlocks := by
  have high : ∀ wordIdx < numBlocks, ∀ b,
      CoreShard.highBit (data ++ more) startIdx endIdx numBlocks wordIdx b =
        CoreShard.highBit data startIdx endIdx numBlocks wordIdx b := by
    intro wordIdx word b
    rw [CoreShard.highBit, bitCount_append data more _ _ _ _ b inside word]
    rfl
  have low : ∀ wordIdx < numBlocks, ∀ b,
      CoreShard.lowBit (data ++ more) startIdx endIdx numBlocks wordIdx b =
        CoreShard.lowBit data startIdx endIdx numBlocks wordIdx b := by
    intro wordIdx word b
    rw [CoreShard.lowBit, high wordIdx word b, bitCount_append data more _ _ _ _ b inside word]
    rfl
  have highs : (List.range numBlocks).map (fun wordIdx =>
        setBits (CoreShard.highBit (data ++ more) startIdx endIdx numBlocks wordIdx)) =
      (List.range numBlocks).map fun wordIdx =>
        setBits (CoreShard.highBit data startIdx endIdx numBlocks wordIdx) :=
    List.map_congr_left fun wordIdx member =>
      congrArg setBits (funext (high wordIdx (List.mem_range.mp member)))
  have lows : (List.range numBlocks).map (fun wordIdx =>
        setBits (CoreShard.lowBit (data ++ more) startIdx endIdx numBlocks wordIdx)) =
      (List.range numBlocks).map fun wordIdx =>
        setBits (CoreShard.lowBit data startIdx endIdx numBlocks wordIdx) :=
    List.map_congr_left fun wordIdx member =>
      congrArg setBits (funext (low wordIdx (List.mem_range.mp member)))
  simp only [CoreShard.computeSignature, highs, lows]

omit [FloatArith F] in
theorem laid_new (dim numBlocks : Nat) : Laid dim numBlocks (CoreShard.new : CoreShard F) :=
  ⟨by simp [CoreShard.new], by simp [CoreShard.new], by simp [CoreShard.new, blocksOf]⟩

-- Of the old blocks, only one that was not full changes when a vector is added.
theorem blocksOf_succ (numBlocks : Nat) (data bitVector : List Word) (n : Nat)
    (rows : data.length = n * numBlocks) :
    blocksOf numBlocks (data ++ bitVector) (n + 1) =
      (blocksOf numBlocks data n).take (n / 128) ++
        [CoreShard.computeSignature (data ++ bitVector) (n / 128 * 128) (n + 1) numBlocks] := by
  have count : (n + 1 + 127) / 128 = n / 128 + 1 := by omega
  have last : min ((n / 128 + 1) * 128) (n + 1) = n + 1 := by omega
  rw [blocksOf, count, List.range_succ, List.map_append, List.map_singleton, last, blocksOf,
    ← List.map_take, List.take_range, show min (n / 128) ((n + 127) / 128) = n / 128 by omega]
  congr 1
  apply List.map_congr_left
  intro bIdx member
  have before := List.mem_range.mp member
  have full : (bIdx + 1) * 128 ≤ n := by omega
  rw [Nat.min_eq_left (by omega), Nat.min_eq_left full]
  apply computeSignature_append
  rw [rows]
  exact Nat.mul_le_mul_right _ full

theorem laid_addToShard (dim numBlocks : Nat) (key : AirKey) (bitVector : List Word)
    (floats : List F) (shard : CoreShard F) (laid : Laid dim numBlocks shard)
    (width : bitVector.length = numBlocks) :
    Laid dim numBlocks (addToShard dim numBlocks key bitVector floats shard) := by
  obtain ⟨rows, floatRows, blocks⟩ := laid
  refine ⟨?_, ?_, ?_⟩
  · simp only [addToShard, CoreShard.rebuildBlocks, List.length_append, rows, width,
      List.length_singleton, Nat.add_mul, Nat.one_mul]
  · simp only [addToShard, CoreShard.rebuildBlocks, List.length_append, floatRows,
      length_padFloats, List.length_singleton, Nat.add_mul, Nat.one_mul]
  · have grown := blocksOf_succ numBlocks shard.data bitVector shard.keys.length rows
    have count : shard.blocks.length = (shard.keys.length + 127) / 128 := by
      simp [blocks, blocksOf]
    simp only [addToShard, CoreShard.rebuildBlocks, CoreShard.rebuiltBlocks, CoreShard.blockSize,
      List.length_append, List.length_singleton]
    rw [grown, ← blocks]
    by_cases full : shard.keys.length % 128 = 0
    · -- Every block is full: the next one is started.
      have expected : (shard.keys.length + 1) / 128 +
          (if (shard.keys.length + 1) % 128 ≠ 0 then 1 else 0) = shard.keys.length / 128 + 1 := by
        split <;> omega
      have length : shard.blocks.length = shard.keys.length / 128 := by omega
      rw [expected, length, if_neg (by omega), List.take_of_length_le (by omega)]
      have last : min ((shard.keys.length / 128 + 1) * 128) (shard.keys.length + 1) =
          shard.keys.length + 1 := by omega
      simp [last]
    · have expected : (shard.keys.length + 1) / 128 +
          (if (shard.keys.length + 1) % 128 ≠ 0 then 1 else 0) = shard.keys.length / 128 + 1 := by
        split <;> omega
      have length : shard.blocks.length = shard.keys.length / 128 + 1 := by omega
      have last : shard.blocks.getLast? = some (CoreShard.computeSignature shard.data
          (shard.keys.length / 128 * 128) shard.keys.length numBlocks) := by
        rw [blocks, blocksOf, show (shard.keys.length + 127) / 128 =
          shard.keys.length / 128 + 1 by omega, List.range_succ, List.map_append,
          List.map_singleton, List.getLast?_concat,
          Nat.min_eq_right (by omega)]
      have grows : (CoreShard.computeSignature shard.data (shard.keys.length / 128 * 128)
          shard.keys.length numBlocks).endIdx ≠ shard.keys.length + 1 := by
        rw [CoreShard.endIdx_computeSignature]
        omega
      rw [expected, if_pos length, last]
      apply (if_pos grows).trans
      rw [CoreShard.startIdx_computeSignature, List.dropLast_eq_take, length, Nat.add_sub_cancel]

omit [FloatArith F] in
theorem wellFormed_new (dim numCpus : Nat) (aligned : dim % 64 = 0) :
    WellFormed (new dim numCpus aligned : SharedVectorStore F) := by
  refine ⟨?_, ?_⟩
  · simp only [new]
    omega
  · intro shard member
    rw [List.eq_of_mem_replicate member]
    exact laid_new _ _

theorem dim_run (store : SharedVectorStore F) (ops : List (StoreOp F)) :
    (store.run ops).dim = store.dim := by
  induction ops generalizing store with
  | nil => rfl
  | cons op ops ih =>
    rw [run, List.foldl_cons]
    exact (ih (store.apply op)).trans (by cases op <;> rfl)

omit [FloatArith F] in
theorem wellFormed_modify (store : SharedVectorStore F) (formed : WellFormed store) (s : Nat)
    (change : CoreShard F → CoreShard F) (counter : Nat)
    (keeps : ∀ shard, Laid store.dim store.numBlocks shard →
      Laid store.dim store.numBlocks (change shard)) :
    WellFormed { store with shards := store.shards.modify s change, writeCounter := counter } := by
  refine ⟨formed.blocks, fun shard member => ?_⟩
  obtain ⟨i, inside, rfl⟩ := List.getElem_of_mem member
  rw [List.length_modify] at inside
  rw [List.getElem_modify]
  split
  next => exact keeps _ (formed.shards _ (List.getElem_mem _))
  next => exact formed.shards _ (List.getElem_mem _)

theorem wellFormed_apply (store : SharedVectorStore F) (op : StoreOp F)
    (formed : WellFormed store) : WellFormed (store.apply op) := by
  cases op with
  | add key quantized floats =>
    exact wellFormed_modify store formed _ _ _ fun shard laid =>
      laid_addToShard _ _ _ _ _ _ laid (length_quantize _ _)
  | clear =>
    refine ⟨formed.blocks, ?_⟩
    intro shard member
    obtain ⟨_, _, rfl⟩ := List.mem_map.mp member
    exact laid_new _ _

theorem wellFormed_run (store : SharedVectorStore F) (ops : List (StoreOp F))
    (formed : WellFormed store) : WellFormed (store.run ops) := by
  induction ops generalizing store with
  | nil => exact formed
  | cons op ops ih => exact ih _ (wellFormed_apply store op formed)

end SharedVectorStore

-- Small whole numbers, on which the float operations used here are exact.
instance : FloatArith Int where
  zero := 0
  isNonneg := fun f => decide (0 ≤ f)
  add := (· + ·)
  mul := (· * ·)
  div := Int.tdiv
  ofInt := id
  toI32 := fun f => max (-2 ^ 31) (min f (2 ^ 31 - 1))

end OmegaDrive
