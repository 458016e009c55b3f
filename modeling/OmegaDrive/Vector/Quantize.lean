import OmegaDrive.Shared.Bits
import OmegaDrive.Vector.Placement

set_option autoImplicit false

namespace OmegaDrive

namespace SharedVectorStore

variable {F : Type} [FloatArith F]

def bitAt (bits : List Word) (c : Nat) : Bool := (bits.getD (c / 64) 0).getLsbD (c % 64)

theorem quantize_eq (store : SharedVectorStore F) (floats : List F) :
    store.quantize floats = (List.range store.numBlocks).map fun i =>
      Bits.word fun j => (Bits.pack (fun i => FloatArith.isNonneg (floats.getD i FloatArith.zero))
        (min floats.length store.dim) (store.numBlocks * 8)).getD (i * 8 + j) 0 := rfl

theorem bitAt_quantize (store : SharedVectorStore F) (blocks : store.numBlocks * 64 = store.dim)
    (floats : List F) (c : Nat) (inside : c < store.dim) :
    bitAt (store.quantize floats) c =
      (decide (c < floats.length) && FloatArith.isNonneg (floats.getD c FloatArith.zero)) := by
  have word : c / 64 < store.numBlocks := by omega
  have byte : c / 64 * 8 + c % 64 / 8 < store.numBlocks * 8 := by omega
  have place : (c / 64 * 8 + c % 64 / 8) * 8 + c % 64 % 8 = c := by omega
  rw [bitAt, quantize_eq, List.getD_eq_getElem _ _ (by simpa using word), List.getElem_map,
    List.getElem_range, Bits.getLsbD_word _ _ (Nat.mod_lt _ (by decide)),
    Bits.testBit_pack _ _ _ _ _ (Nat.mod_lt _ (by decide)) byte, place]
  have limit : decide (c < min floats.length store.dim) = decide (c < floats.length) := by
    rw [decide_eq_decide]
    omega
  rw [limit]

theorem padFloats_getD (dim : Nat) (floats : List F) (c : Nat) (inside : c < dim) :
    (padFloats dim floats).getD c FloatArith.zero = floats.getD c FloatArith.zero := by
  simp only [padFloats_eq, List.getD_eq_getElem?_getD]
  by_cases within : c < floats.length
  · rw [List.getElem?_append_left (by rw [List.length_take]; omega),
      List.getElem?_take_of_lt inside]
  · rw [List.getElem?_append_right (by rw [List.length_take]; omega), List.length_take,
      List.getElem?_replicate_of_lt (by omega), List.getElem?_eq_none (Nat.le_of_not_lt within)]
    rfl

def RowAgrees (dim : Nat) (bits : List Word) (floats : List F) : Prop :=
  ∀ c < dim, bitAt bits c = FloatArith.isNonneg (floats.getD c FloatArith.zero)

-- The padding is not negative, and its bits are not set.
theorem rowAgrees_iff (store : SharedVectorStore F) (blocks : store.numBlocks * 64 = store.dim)
    (nonneg : FloatArith.isNonneg (FloatArith.zero : F) = true) (floats : List F) :
    RowAgrees store.dim (store.quantize floats) (padFloats store.dim floats) ↔
      store.dim ≤ floats.length := by
  constructor
  · intro agrees
    by_contra short
    have inside : floats.length < store.dim := Nat.lt_of_not_le short
    have bit := agrees floats.length inside
    rw [bitAt_quantize store blocks floats _ inside, padFloats_getD _ _ _ inside] at bit
    simp [nonneg] at bit
  · intro long c inside
    have within : c < floats.length := Nat.lt_of_lt_of_le inside long
    rw [bitAt_quantize store blocks floats c inside, padFloats_getD _ _ _ inside,
      decide_eq_true within, Bool.true_and]

def BitsAgree (store : SharedVectorStore F) : Prop :=
  ∀ shard ∈ store.shards, ∀ i < shard.keys.length,
    RowAgrees store.dim (row store.numBlocks shard i) (floatRow store.dim shard i)

theorem bitsAgree_iff (numShards dim : Nat) (positive : 0 < numShards)
    (store : SharedVectorStore F) (vectors : List (Added F))
    (placed : Placed numShards dim store vectors) :
    BitsAgree store ↔ ∀ vector ∈ vectors,
      RowAgrees store.dim (store.quantize vector.quantized) (padFloats store.dim vector.floats) := by
  obtain rfl := placed.dim_eq
  constructor
  · intro agree vector member
    have hand : ∃ s < numShards, vector ∈ dealtTo numShards s vectors :=
      RoundRobin.exists_hand positive vectors vector member
    obtain ⟨s, less, dealt⟩ := hand
    obtain ⟨i, found⟩ := List.mem_iff_getElem?.mp dealt
    have present := List.getElem?_eq_getElem (show s < store.shards.length by
      rw [placed.shards_length]
      exact less)
    obtain ⟨key, bits, floats⟩ := placed.dealt s _ present i vector found
    have rows := agree _ (List.getElem_mem _) i (List.getElem?_eq_some_iff.mp key).1
    rwa [bits, floats] at rows
  · intro each shard member i inside
    obtain ⟨s, present⟩ := List.mem_iff_getElem?.mp member
    have keys := placed.keys_eq s shard present
    rw [keys, List.length_map] at inside
    have found := List.getElem?_eq_getElem inside
    obtain ⟨_, bits, floats⟩ := placed.dealt s shard present i _ found
    rw [bits, floats]
    exact each _ (RoundRobin.mem_of_mem_dealt _ _ _ (List.mem_of_getElem? found))

theorem bitsAgree_placed (numShards dim : Nat) (positive : 0 < numShards) (aligned : dim % 64 = 0)
    (nonneg : FloatArith.isNonneg (FloatArith.zero : F) = true) (store : SharedVectorStore F)
    (vectors : List (Added F)) (placed : Placed numShards dim store vectors)
    (own : ∀ vector ∈ vectors, vector.quantized = vector.floats) :
    BitsAgree store ↔ ∀ vector ∈ vectors, dim ≤ vector.floats.length := by
  have blocks : store.numBlocks * 64 = store.dim := by
    rw [placed.blocks_eq, placed.dim_eq]
    omega
  rw [bitsAgree_iff numShards dim positive store vectors placed]
  apply forall₂_congr
  intro vector member
  rw [own vector member, rowAgrees_iff store blocks nonneg, placed.dim_eq]

end SharedVectorStore

structure ShardedVectorEngine where
  dim : Nat
  numBlocks : Nat

namespace ShardedVectorEngine

variable {F : Type} [FloatArith F]

/-- The assertion on the dimension is the caller's proof. -/
def new (dim : Nat) (_aligned : dim % 64 = 0) : ShardedVectorEngine := ⟨dim, dim / 64⟩

def setBit (u64Data : List Word) (i : Nat) : Option (List Word) :=
  if i / 64 < u64Data.length then
    some (u64Data.modify (i / 64) (· ||| 1#64 <<< (i % 64)))
  else none

-- A float that is missing panics.
def quantize (engine : ShardedVectorEngine) (floats : List F) : Option (List Word) :=
  (List.range engine.dim).foldlM (fun u64Data i => do
    let float ← floats[i]?
    if FloatArith.isNonneg float then setBit u64Data i else some u64Data)
    (List.replicate engine.numBlocks 0)

variable (engine : ShardedVectorEngine) (floats : List F)

-- After `n` turns the words hold the signs of the first `n` floats.
theorem quantize_turns (n count : Nat) (long : n ≤ floats.length) (room : n ≤ count * 64) :
    (List.range n).foldlM (fun u64Data i => do
      let float ← floats[i]?
      if FloatArith.isNonneg float then setBit u64Data i else some u64Data)
      (List.replicate count 0) =
        some (Bits.packWords (fun i => FloatArith.isNonneg (floats.getD i FloatArith.zero)) n
          count) := by
  induction n with
  | zero => rfl
  | succ n ih =>
    have found : floats[n]? = some (floats.getD n FloatArith.zero) := by
      rw [List.getD_eq_getElem _ _ (by omega), List.getElem?_eq_getElem (by omega)]
    have word : n / 64 < count := by omega
    rw [List.range_succ, List.foldlM_append, ih (by omega) (by omega)]
    simp only [Option.bind_eq_bind, Option.bind_some, List.foldlM_cons, List.foldlM_nil, found,
      Bits.packWords, Bits.packCells_succ, setBit, Bits.length_packCells, if_pos word]
    split <;> rfl

theorem quantize_short (aligned : engine.numBlocks * 64 = engine.dim)
    (short : floats.length < engine.dim) : engine.quantize floats = none := by
  have before := quantize_turns floats floats.length engine.numBlocks (Nat.le_refl _) (by omega)
  have turns : engine.dim = floats.length + (1 + (engine.dim - floats.length - 1)) := by omega
  rw [quantize, turns, List.range_add, List.foldlM_append, before, List.range_add]
  simp

end ShardedVectorEngine

namespace SharedVectorStore

variable {F : Type} [FloatArith F]

theorem getLsbD_quantize (store : SharedVectorStore F)
    (blocks : store.numBlocks * 64 = store.dim) (floats : List F) (j b : Nat) (small : b < 64) :
    ((store.quantize floats).getD j 0).getLsbD b = true ↔
      64 * j + b < store.dim ∧
        ∃ float, floats[64 * j + b]? = some float ∧ FloatArith.isNonneg float = true := by
  have word : (64 * j + b) / 64 = j := by omega
  have offset : (64 * j + b) % 64 = b := by omega
  by_cases inside : 64 * j + b < store.dim
  · have bit := bitAt_quantize store blocks floats _ inside
    rw [bitAt, word, offset] at bit
    rw [bit]
    by_cases within : 64 * j + b < floats.length
    · simp [inside, within]
    · simp [within]
  · have beyond : (store.quantize floats).length ≤ j := by
      rw [quantize_eq, List.length_map, List.length_range]
      omega
    simp [inside, List.getD_eq_getElem?_getD, List.getElem?_eq_none beyond]

theorem quantize_packWords (store : SharedVectorStore F)
    (blocks : store.numBlocks * 64 = store.dim) (floats : List F)
    (long : store.dim ≤ floats.length) :
    store.quantize floats = Bits.packWords
      (fun i => FloatArith.isNonneg (floats.getD i FloatArith.zero)) store.dim store.numBlocks := by
  have size : (store.quantize floats).length = store.numBlocks := by
    rw [quantize_eq, List.length_map, List.length_range]
  apply List.ext_getElem
  · rw [size, Bits.packWords, Bits.length_packCells]
  · intro j here there
    apply BitVec.eq_of_getLsbD_eq
    intro b small
    have inside : 64 * j + b < store.dim := by omega
    have packed := Bits.getLsbD_packWords
      (fun i => FloatArith.isNonneg (floats.getD i FloatArith.zero)) store.dim store.numBlocks j b
      small (by omega)
    have bit := bitAt_quantize store blocks floats _ inside
    have word : (64 * j + b) / 64 = j := by omega
    have offset : (64 * j + b) % 64 = b := by omega
    rw [bitAt, word, offset, List.getD_eq_getElem _ _ here] at bit
    rw [List.getD_eq_getElem _ _ there, Nat.mul_comm] at packed
    rw [bit, packed, decide_eq_true inside, decide_eq_true (by omega)]

theorem quantize_agrees (store : SharedVectorStore F) (aligned : store.dim % 64 = 0)
    (blocks : store.numBlocks = store.dim / 64) (floats : List F) :
    (∀ j b, b < 64 → (((store.quantize floats).getD j 0).getLsbD b = true ↔
      64 * j + b < store.dim ∧
        ∃ float, floats[64 * j + b]? = some float ∧ FloatArith.isNonneg float = true)) ∧
      (ShardedVectorEngine.new store.dim aligned).quantize floats =
        if store.dim ≤ floats.length then some (store.quantize floats) else none := by
  have whole : store.numBlocks * 64 = store.dim := by omega
  constructor
  · exact getLsbD_quantize store whole floats
  · rw [ShardedVectorEngine.new, ← blocks]
    split
    next long =>
      rw [quantize_packWords store whole floats long]
      exact ShardedVectorEngine.quantize_turns floats store.dim store.numBlocks long (by omega)
    next short =>
      exact ShardedVectorEngine.quantize_short _ floats whole (Nat.lt_of_not_le short)

-- A float more than the dimension asks for.
def mixedFloats : List Int := 3 :: -1 :: List.replicate 63 5

theorem quantize_agrees_full :
    (∀ j b, b < 64 →
      ((((new 64 4 rfl : SharedVectorStore Int).quantize mixedFloats).getD j 0).getLsbD b = true ↔
        64 * j + b < 64 ∧
          ∃ float, mixedFloats[64 * j + b]? = some float ∧ FloatArith.isNonneg float = true)) ∧
      (ShardedVectorEngine.new 64 rfl).quantize mixedFloats =
        some ((new 64 4 rfl : SharedVectorStore Int).quantize mixedFloats) := by
  obtain ⟨bits, packed⟩ := quantize_agrees (new 64 4 rfl) rfl rfl mixedFloats
  refine ⟨bits, packed.trans (if_pos ?_)⟩
  rw [mixedFloats, List.length_cons, List.length_cons, List.length_replicate]
  decide

end SharedVectorStore

end OmegaDrive
