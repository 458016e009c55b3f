import OmegaDrive.Vector.Quantize

set_option autoImplicit false

namespace OmegaDrive

open OptionLoop

namespace SharedVectorStore

variable {F : Type}

theorem bitAt_cons_low (word : Word) (words : List Word) (c : Nat) (low : c < 64) :
    bitAt (word :: words) c = word.getLsbD c := by
  rw [bitAt, Nat.div_eq_of_lt low, Nat.mod_eq_of_lt low]
  rfl

theorem bitAt_cons_high (word : Word) (words : List Word) (c : Nat) :
    bitAt (word :: words) (64 + c) = bitAt words c := by
  rw [bitAt, bitAt, show (64 + c) / 64 = c / 64 + 1 by omega, show (64 + c) % 64 = c % 64 by omega]
  rfl

theorem sum_countOnes (combine : Word → Word → Word) (bit : Bool → Bool → Bool)
    (bits : ∀ x y, ∀ b < 64, (combine x y).getLsbD b = bit (x.getLsbD b) (y.getLsbD b))
    (a b : List Word) (short : b.length ≤ a.length) :
    (List.zipWith (fun x y => countOnes (combine x y)) a b).sum =
      (List.range (b.length * 64)).countP fun c => bit (bitAt a c) (bitAt b c) := by
  induction b generalizing a with
  | nil => simp
  | cons y b ih =>
    cases a with
    | nil => simp at short
    | cons x a =>
      have tail := ih a (Nat.le_of_succ_le_succ short)
      have word : countOnes (combine x y) =
          (List.range 64).countP fun c => bit (bitAt (x :: a) c) (bitAt (y :: b) c) := by
        apply List.countP_congr
        intro c member
        have low := List.mem_range.mp member
        rw [bits x y c low, bitAt_cons_low x a c low, bitAt_cons_low y b c low]
      rw [List.zipWith_cons_cons, List.sum_cons, tail, word, List.length_cons, Nat.succ_mul,
        Nat.add_comm, Nat.add_comm (b.length * 64), List.range_add, List.countP_append,
        List.countP_map, Nat.add_comm]
      simp only [Function.comp_def, bitAt_cons_high]

theorem hamming_eq (a b : List Word) (short : b.length ≤ a.length) :
    hamming a b = (List.range (b.length * 64)).countP fun c => bitAt a c ^^ bitAt b c := by
  apply sum_countOnes (fun x y => x ^^^ y) xor _ a b short
  intro x y c _
  exact BitVec.getLsbD_xor

theorem hamming_not (a b : List Word) (short : b.length ≤ a.length) :
    hamming (a.map fun w => ~~~w) b =
      (List.range (b.length * 64)).countP fun c => !bitAt a c ^^ bitAt b c := by
  rw [hamming, List.zipWith_map_left]
  apply sum_countOnes (fun x y => ~~~x ^^^ y) (fun first second => !first ^^ second) _ a b short
  intro x y c low
  simp [low]

theorem getLsbD_setBits (bit : Nat → Bool) (b : Nat) (small : b < 64) :
    (setBits bit).getLsbD b = bit b := by
  suffices upTo : ∀ n ≤ 64, ((List.range n).foldl
      (fun word b => if bit b then word ||| 1#64 <<< b else word) 0#64).getLsbD b =
        (decide (b < n) && bit b) by
    have whole := upTo 64 (Nat.le_refl _)
    rwa [decide_eq_true small, Bool.true_and] at whole
  intro n few
  induction n with
  | zero => simp
  | succ n ih =>
    have before := ih (by omega)
    have later : decide (b < n + 1) = (decide (b < n) || decide (n = b)) := by
      rw [← Bool.decide_or, decide_eq_decide]
      omega
    rw [List.range_succ, List.foldl_append, List.foldl_cons, List.foldl_nil, later]
    split
    next holds =>
      rw [Bits.getLsbD_setBit _ n b (by omega), before]
      by_cases here : n = b
      · simp [here.symm, holds]
      · simp [here]
    next unheld =>
      rw [before]
      by_cases here : n = b
      · simp [here.symm, unheld]
      · simp [here]

theorem bitAt_setBits (bit : Nat → Nat → Bool) (n c : Nat) :
    bitAt ((List.range n).map fun wordIdx => setBits (bit wordIdx)) c =
      (decide (c / 64 < n) && bit (c / 64) (c % 64)) := by
  have small : c % 64 < 64 := Nat.mod_lt c (by decide)
  by_cases inside : c / 64 < n
  · rw [bitAt, List.getD_eq_getElem _ _ (by simpa using inside), List.getElem_map,
      List.getElem_range, getLsbD_setBits _ _ small]
    simp [inside]
  · rw [bitAt, List.getD_eq_default _ _ (by simpa using inside)]
    simp [inside]

def decidedBit (block : BlockSignature) (c : Nat) : Option Bool :=
  if bitAt block.sHigh c then some true
  else if bitAt block.sLow c then some false
  else none

def mismatches (dim : Nat) (query : List Word) (block : BlockSignature) : Nat :=
  (List.range dim).countP fun c => decidedBit block c == some (!bitAt query c)

theorem sum_undecided (block : BlockSignature)
    (short : block.sLow.length ≤ block.sHigh.length) :
    (List.zipWith (fun sh sl => countOnes (~~~(sh ||| sl))) block.sHigh block.sLow).sum =
      (List.range (block.sLow.length * 64)).countP fun c => decidedBit block c == none := by
  rw [sum_countOnes (fun sh sl => ~~~(sh ||| sl)) (fun high low => !(high || low)) _ _ _ short]
  · congr 1
    funext c
    rw [decidedBit]
    cases bitAt block.sHigh c <;> cases bitAt block.sLow c <;> rfl
  · intro x y c low
    simp [low]

/-- No bit is decided both ways, and the bits left undecided are counted. -/
structure Decides (numBlocks : Nat) (block : BlockSignature) : Prop where
  high_length : block.sHigh.length = numBlocks
  low_length : block.sLow.length = numBlocks
  apart : ∀ c, (bitAt block.sHigh c && bitAt block.sLow c) = false
  superpositions : block.numSuperpositions =
    (List.range (numBlocks * 64)).countP fun c => decidedBit block c == none

theorem decides_computeSignature (data : List Word) (startIdx endIdx numBlocks : Nat)
    (fits : numBlocks * 64 < 2 ^ 32) :
    Decides numBlocks (CoreShard.computeSignature data startIdx endIdx numBlocks) := by
  let block := CoreShard.computeSignature data startIdx endIdx numBlocks
  have high : block.sHigh.length = numBlocks := by simp [block, CoreShard.computeSignature]
  have low : block.sLow.length = numBlocks := by simp [block, CoreShard.computeSignature]
  constructor
  case high_length => exact high
  case low_length => exact low
  case apart =>
    intro c
    simp only [CoreShard.computeSignature, bitAt_setBits, CoreShard.lowBit]
    cases CoreShard.highBit data startIdx endIdx numBlocks (c / 64) (c % 64) <;> simp
  case superpositions =>
    have undecided := sum_undecided block (by rw [high, low])
    have bound := List.countP_le_length (p := fun c => decidedBit block c == none)
      (l := List.range (numBlocks * 64))
    rw [low] at undecided
    rw [List.length_range] at bound
    change (List.zipWith (fun sh sl => countOnes (~~~(sh ||| sl))) block.sHigh block.sLow).sum %
      2 ^ 32 = _
    rw [undecided, Nat.mod_eq_of_lt (Nat.lt_of_le_of_lt bound fits)]

theorem decides_laid {dim numBlocks : Nat} {shard : CoreShard F} (laid : Laid dim numBlocks shard)
    (fits : numBlocks * 64 < 2 ^ 32) (block : BlockSignature) (inside : block ∈ shard.blocks) :
    Decides numBlocks block := by
  rw [laid.blocks_eq] at inside
  obtain ⟨bIdx, _, rfl⟩ := List.mem_map.mp inside
  exact decides_computeSignature shard.data (bIdx * 128)
    (min ((bIdx + 1) * 128) shard.keys.length) numBlocks fits

-- A decided bit that differs is counted by both masks, an undecided one by one of them.
theorem counts_decided (block : BlockSignature) (query : List Word)
    (apart : ∀ c, (bitAt block.sHigh c && bitAt block.sLow c) = false) (coords : List Nat) :
    (coords.countP fun c => bitAt query c ^^ bitAt block.sHigh c) +
        (coords.countP fun c => !bitAt query c ^^ bitAt block.sLow c) =
      2 * (coords.countP fun c => decidedBit block c == some (!bitAt query c)) +
        coords.countP fun c => decidedBit block c == none := by
  induction coords with
  | nil => rfl
  | cons c coords ih =>
    have once := apart c
    have weights : (if (bitAt query c ^^ bitAt block.sHigh c) = true then 1 else 0) +
        (if (!bitAt query c ^^ bitAt block.sLow c) = true then 1 else 0) =
          2 * (if (decidedBit block c == some (!bitAt query c)) = true then 1 else 0) +
            if (decidedBit block c == none) = true then 1 else 0 := by
      rw [decidedBit]
      revert once
      cases bitAt query c <;> cases bitAt block.sHigh c <;> cases bitAt block.sLow c <;> decide
    simp only [List.countP_cons]
    omega

theorem popcounts_decides {numBlocks : Nat} {block : BlockSignature}
    (decides : Decides numBlocks block) (fits : numBlocks * 64 < 2 ^ 31) (query : List Word)
    (width : numBlocks ≤ query.length) :
    popcounts numBlocks query block =
      some (2 * mismatches (numBlocks * 64) query block + block.numSuperpositions) := by
  have high := hamming_eq query block.sHigh (by rwa [decides.high_length])
  have low := hamming_not query block.sLow (by rwa [decides.low_length])
  rw [decides.high_length] at high
  rw [decides.low_length] at low
  have total := counts_decided block query decides.apart (List.range (numBlocks * 64))
  rw [← high, ← low, ← decides.superpositions] at total
  have high_le := List.countP_le_length (p := fun c => bitAt query c ^^ bitAt block.sHigh c)
    (l := List.range (numBlocks * 64))
  have low_le := List.countP_le_length (p := fun c => !bitAt query c ^^ bitAt block.sLow c)
    (l := List.range (numBlocks * 64))
  rw [← high, List.length_range] at high_le
  rw [← low, List.length_range] at low_le
  rw [popcounts_eq numBlocks query block width decides.high_length decides.low_length,
    Nat.mod_eq_of_lt (by omega), total, mismatches]

theorem popcounts_short (numBlocks : Nat) (query : List Word) (block : BlockSignature)
    (short : query.length < numBlocks) : popcounts numBlocks query block = none := by
  apply foldlM_none _ _ query.length (List.mem_range.mpr short)
  intro minDist
  simp

theorem blockScore_run [FloatArith F] (dim numCpus : Nat) (aligned : dim % 64 = 0)
    (fits : dim < 2 ^ 31) (ops : List (StoreOp F)) :
    let store := (new dim numCpus aligned).run ops
    ∀ shard ∈ store.shards, ∀ block ∈ shard.blocks, ∀ query : List Word,
      (store.numBlocks ≤ query.length →
        popcounts store.numBlocks query block =
            some (2 * mismatches store.dim query block + block.numSuperpositions) ∧
          blockScore store.numBlocks query block =
            some (2 * mismatches store.dim query block)) ∧
      (query.length < store.numBlocks → blockScore store.numBlocks query block = none) := by
  intro store shard member block inside query
  have formed : WellFormed store := wellFormed_run _ ops (wellFormed_new dim numCpus aligned)
  have size : store.dim = dim := dim_run _ ops
  have width := formed.blocks
  have decides := decides_laid (formed.shards shard member) (by omega) block inside
  constructor
  · intro enough
    have total := popcounts_decides decides (by omega) query enough
    rw [width] at total
    refine ⟨total, ?_⟩
    rw [blockScore_popcounts, total, Option.map_some, Nat.add_sub_cancel]
  · intro short
    rw [blockScore_popcounts, popcounts_short _ _ _ short, Option.map_none]

/-- The third vector of the first shard leaves bit 0 undecided. -/
def undecidedStore : SharedVectorStore Int :=
  (new 64 4 aligned_word).run (List.replicate 8 (.add (AirKey.fromBytes (ascii "v")) [-1] [-1]) ++
    [.add (AirKey.fromBytes (ascii "w")) [1] [1]])

-- The query's bit 1 differs from all three vectors, and bit 0 is added once and taken off.
theorem blockScore_run_undecided :
    let block : BlockSignature := ⟨[0#64], [~~~1#64], 1, 0, 3⟩
    popcounts 1 [3#64] block = some (2 * 1 + 1) ∧ blockScore 1 [3#64] block = some (2 * 1) := by
  intro block
  have first : ∃ shard, undecidedStore.shards[0]? = some shard ∧ block ∈ shard.blocks :=
    ⟨_, rfl, by decide +kernel⟩
  obtain ⟨shard, found, present⟩ := first
  have run := (blockScore_run 64 4 aligned_word (by decide)
    (List.replicate 8 (.add (AirKey.fromBytes (ascii "v")) [-1] [-1]) ++
      [.add (AirKey.fromBytes (ascii "w")) [1] [1]])
    shard (List.mem_of_getElem? found) block present [3#64]).1 (by decide)
  have width : undecidedStore.numBlocks = 1 := rfl
  have differs : mismatches undecidedStore.dim [3#64] block = 1 := by decide +kernel
  rwa [← undecidedStore, width, differs] at run

end SharedVectorStore

end OmegaDrive
