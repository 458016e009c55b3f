import OmegaDrive.Shared.OptionLoop
import OmegaDrive.Vector.Capacity

set_option autoImplicit false

namespace OmegaDrive

open TopK OptionLoop

def hamming (a b : List Word) : Nat :=
  (List.zipWith (fun x y => countOnes (x ^^^ y)) a b).sum

theorem countOnes_le (word : Word) : countOnes word ≤ 64 := by
  have bound := List.countP_le_length (p := word.getLsbD) (l := List.range 64)
  simpa [countOnes] using bound

theorem hamming_le (a b : List Word) : hamming a b ≤ a.length * 64 := by
  induction a generalizing b with
  | nil => simp [hamming]
  | cons x a ih =>
    cases b with
    | nil => simp [hamming]
    | cons y b =>
      have tail := ih b
      have head := countOnes_le (x ^^^ y)
      simp only [hamming, List.zipWith_cons_cons, List.sum_cons, List.length_cons] at tail ⊢
      omega

theorem hamming_take_succ (a b : List Word) (n : Nat) (left : n < a.length) (right : n < b.length) :
    hamming (a.take (n + 1)) (b.take (n + 1)) =
      hamming (a.take n) (b.take n) + countOnes (a[n] ^^^ b[n]) := by
  have lengths : (a.take n).length = (b.take n).length := by
    rw [List.length_take, List.length_take]
    omega
  rw [← List.take_append_getElem left, ← List.take_append_getElem right, hamming,
    List.zipWith_append lengths, List.sum_append]
  simp [hamming]

theorem hamming_take (a b : List Word) (n : Nat) (short : b.length ≤ n) :
    hamming (a.take n) (b.take n) = hamming a b := by
  rw [hamming, ← List.take_zipWith, List.take_of_length_le]
  · rfl
  · rw [List.length_zipWith]
    omega

theorem xorCount_eq (numBlocks : Nat) (candidate query : List Word)
    (row : candidate.length = numBlocks) (width : query.length = numBlocks) :
    xorCount numBlocks candidate query = some (hamming candidate query % 2 ^ 32) := by
  suffices upTo : ∀ n ≤ numBlocks, (List.range n).foldlM (fun dist j => do
      let a ← candidate[j]?
      let b ← query[j]?
      return (dist + countOnes (a ^^^ b)) % 2 ^ 32) 0 =
        some (hamming (candidate.take n) (query.take n) % 2 ^ 32) by
    have all := upTo numBlocks (Nat.le_refl _)
    rwa [hamming_take _ _ _ (Nat.le_of_eq width)] at all
  intro n bound
  induction n with
  | zero => rfl
  | succ n ih =>
    rw [List.range_succ, List.foldlM_append, ih (by omega),
      hamming_take_succ candidate query n (by omega) (by omega)]
    simp [row, width, show n < numBlocks by omega]

namespace SharedVectorStore

variable {F : Type}

/-- The loop of `blockScore`, before the undecided bits are taken off. -/
def popcounts (numBlocks : Nat) (query : List Word) (block : BlockSignature) : Option Nat :=
  let queryLow := query.map fun w => ~~~w
  (List.range numBlocks).foldlM (fun minDist j => do
    let q ← query[j]?
    let high ← block.sHigh[j]?
    let ql ← queryLow[j]?
    let low ← block.sLow[j]?
    let minDist := (minDist + countOnes (q ^^^ high)) % 2 ^ 32
    return (minDist + countOnes (ql ^^^ low)) % 2 ^ 32) 0

theorem blockScore_popcounts (numBlocks : Nat) (query : List Word) (block : BlockSignature) :
    blockScore numBlocks query block =
      (popcounts numBlocks query block).map (· - block.numSuperpositions) := by
  rw [Option.map_eq_bind]
  rfl

theorem popcounts_eq (numBlocks : Nat) (query : List Word) (block : BlockSignature)
    (width : numBlocks ≤ query.length) (high : block.sHigh.length = numBlocks)
    (low : block.sLow.length = numBlocks) :
    popcounts numBlocks query block = some ((hamming query block.sHigh +
      hamming (query.map fun w => ~~~w) block.sLow) % 2 ^ 32) := by
  suffices upTo : ∀ n ≤ numBlocks, popcounts n query block =
      some ((hamming (query.take n) (block.sHigh.take n) +
        hamming ((query.map fun w => ~~~w).take n) (block.sLow.take n)) % 2 ^ 32) by
    have all := upTo numBlocks (Nat.le_refl _)
    rwa [hamming_take _ _ _ (Nat.le_of_eq high), hamming_take _ _ _ (Nat.le_of_eq low)] at all
  intro n bound
  induction n with
  | zero => rfl
  | succ n ih =>
    have before := ih (by omega)
    rw [popcounts] at before
    rw [popcounts, List.range_succ, List.foldlM_append, before,
      hamming_take_succ query block.sHigh n (by omega) (by omega),
      hamming_take_succ (query.map fun w => ~~~w) block.sLow n
        (by rw [List.length_map]; omega) (by omega)]
    simp [high, low, show n < query.length by omega, show n < numBlocks by omega]
    omega

-- What `blockScore` computes when every index is in range.
def scoreOf (query : List Word) (block : BlockSignature) : Nat :=
  (hamming query block.sHigh + hamming (query.map fun w => ~~~w) block.sLow) % 2 ^ 32 -
    block.numSuperpositions

theorem blockScore_eq (numBlocks : Nat) (query : List Word) (block : BlockSignature)
    (width : numBlocks ≤ query.length) (high : block.sHigh.length = numBlocks)
    (low : block.sLow.length = numBlocks) :
    blockScore numBlocks query block = some (scoreOf query block) := by
  rw [blockScore_popcounts, popcounts_eq numBlocks query block width high low]
  rfl

section Shard

variable (std : StdChoices) (numBlocks : Nat) (query : List Word) (k : Nat) (shard : CoreShard F)

def row (i : Nat) : List Word := (shard.data.drop (i * numBlocks)).take numBlocks

def candidateAt (i : Nat) : Candidate := (hamming (row numBlocks shard i) query, i)

def blockCandidates (block : BlockSignature) : List Candidate :=
  (List.range' block.startIdx (block.endIdx - block.startIdx)).map
    (candidateAt numBlocks query shard)

def candidatesOf (bIdx : Nat) : List Candidate :=
  match shard.blocks[bIdx]? with
  | none => []
  | some block => blockCandidates numBlocks query shard block

-- The distance as the scan computes it, in 32 bits.
def measuredAt (i : Nat) : Candidate := (hamming (row numBlocks shard i) query % 2 ^ 32, i)

def itemsOf (place : Nat → Candidate) (bIdx : Nat) : List Candidate :=
  match shard.blocks[bIdx]? with
  | none => []
  | some block => (List.range' block.startIdx (block.endIdx - block.startIdx)).map place

theorem candidatesOf_eq :
    candidatesOf numBlocks query shard = itemsOf shard (candidateAt numBlocks query shard) := rfl

theorem measuredAt_eq (fits : numBlocks * 64 < 2 ^ 32) :
    measuredAt numBlocks query shard = candidateAt numBlocks query shard := by
  funext i
  have bound := hamming_le (row numBlocks shard i) query
  have width : (row numBlocks shard i).length ≤ numBlocks := List.length_take_le _ _
  have small : hamming (row numBlocks shard i) query < 2 ^ 32 := by omega
  rw [measuredAt, candidateAt, Nat.mod_eq_of_lt small]

def ordered : List (Nat × Nat) :=
  (std.sort fun eval : Nat × Nat => eval.1).sort
    (shard.blocks.zipIdx.map fun (block, bIdx) => (scoreOf query block, bIdx))

end Shard

-- A block is skipped when `k` vectors of the blocks before it lie within its score.
def divide (k : Nat) (items : Nat → List Candidate) :
    List Candidate → List (Nat × Nat) → List Candidate × List Candidate
  | _, [] => ([], [])
  | before, (score, bIdx) :: rest =>
    let later := divide k items (before ++ items bIdx) rest
    if k ≤ within Prod.fst score before then (later.1, items bIdx ++ later.2)
    else (items bIdx ++ later.1, later.2)

theorem divide_perm (k : Nat) (items : Nat → List Candidate) (before : List Candidate)
    (blocks : List (Nat × Nat)) :
    ((divide k items before blocks).1 ++ (divide k items before blocks).2).Perm
      (blocks.flatMap fun block => items block.2) := by
  induction blocks generalizing before with
  | nil => exact List.Perm.refl _
  | cons block blocks ih =>
    obtain ⟨score, bIdx⟩ := block
    have later := ih (before ++ items bIdx)
    rw [divide, List.flatMap_cons]
    dsimp only
    split
    next =>
      rw [← List.append_assoc]
      apply (List.perm_append_comm.append_right _).trans
      rw [List.append_assoc]
      exact later.append_left _
    next =>
      rw [List.append_assoc]
      exact later.append_left _

theorem divide_enough (k : Nat) (items : Nat → List Candidate) (before : List Candidate)
    (blocks : List (Nat × Nat)) :
    min k (before.length + (blocks.flatMap fun block => items block.2).length) ≤
      before.length + (divide k items before blocks).1.length := by
  induction blocks generalizing before with
  | nil => exact Nat.min_le_right _ _
  | cons block blocks ih =>
    obtain ⟨score, bIdx⟩ := block
    have later := ih (before ++ items bIdx)
    have enough := within_le_length Prod.fst score before
    rw [divide, List.flatMap_cons, List.length_append]
    rw [List.length_append] at later
    dsimp only
    split
    next => omega
    next =>
      rw [List.length_append]
      omega

theorem divide_skips (k : Nat) (items : Nat → List Candidate) (before : List Candidate)
    (blocks : List (Nat × Nat))
    (covered : ∀ block ∈ blocks, k ≤ within Prod.fst block.1 before) :
    (divide k items before blocks).1 = [] := by
  induction blocks generalizing before with
  | nil => rfl
  | cons block blocks ih =>
    obtain ⟨score, bIdx⟩ := block
    have here := covered _ List.mem_cons_self
    rw [divide, if_pos here]
    apply ih _
    intro other member
    have later := covered other (List.mem_cons_of_mem _ member)
    rw [within_append]
    omega

theorem order_mono (first second : Candidate) (le : first.order ≤ second.order) :
    first.1 ≤ second.1 := by
  rcases Prod.Lex.toLex_le_toLex.mp le with less | ⟨same, _⟩
  · exact Nat.le_of_lt less
  · exact Nat.le_of_eq same

theorem located_mono (first second : Located) (le : first.order ≤ second.order) :
    first.1 ≤ second.1 := by
  rcases Prod.Lex.toLex_le_toLex.mp le with less | ⟨same, _⟩
  · exact Nat.le_of_lt less
  · exact Nat.le_of_eq same

-- The break is taken when `k` of the vectors seen so far lie within the block's score.
theorem pruned_eq (std : StdChoices) (k : Nat) (positive : 0 < k) (seen : List Candidate)
    (heap : (std.heap Candidate.order).Heap) (minDist : Nat)
    (small : Smallest Prod.fst k seen ((std.heap Candidate.order).intoIter heap)) :
    pruned std k heap minDist = some (decide (k ≤ within Prod.fst minDist seen)) := by
  have count := small.within_eq minDist
  have bound := within_le_length Prod.fst minDist ((std.heap Candidate.order).intoIter heap)
  obtain ⟨_, _, size, _⟩ := id small
  rw [pruned]
  split
  next full =>
    obtain ⟨top, peeked⟩ := (std.heap Candidate.order).peek_some heap (by omega)
    obtain ⟨member, greatest⟩ := (std.heap Candidate.order).peek_spec heap top peeked
    simp only [BinaryHeap.len] at full
    rw [peeked]
    suffices same : top.1 ≤ minDist ↔ k ≤ within Prod.fst minDist seen by
      simp [same]
    constructor
    · intro below
      have all := within_all Prod.fst minDist ((std.heap Candidate.order).intoIter heap)
        fun item inside => Nat.le_trans (order_mono item top (greatest item inside)) below
      omega
    · intro enough
      have all : within Prod.fst minDist ((std.heap Candidate.order).intoIter heap) =
          ((std.heap Candidate.order).intoIter heap).length := by omega
      simpa using List.countP_eq_length.mp all top member
  next room =>
    simp only [BinaryHeap.len] at room
    have few : ¬ k ≤ within Prod.fst minDist seen := by omega
    simp [few]

section Scan

variable {std : StdChoices} {dim numBlocks : Nat} {query : List Word} {k : Nat}
  {shard : CoreShard F}

theorem length_row (laid : Laid dim numBlocks shard) (i : Nat) (inside : i < shard.keys.length) :
    i * numBlocks + numBlocks ≤ shard.data.length ∧ (row numBlocks shard i).length = numBlocks := by
  have rows : (i + 1) * numBlocks ≤ shard.keys.length * numBlocks := Nat.mul_le_mul_right _ inside
  rw [Nat.add_mul, Nat.one_mul, ← laid.data_length] at rows
  refine ⟨rows, ?_⟩
  rw [row, List.length_take, List.length_drop]
  omega

theorem scanVector_eq (laid : Laid dim numBlocks shard) (width : query.length = numBlocks)
    (heap : (std.heap Candidate.order).Heap) (i : Nat) (inside : i < shard.keys.length) :
    scanVector std numBlocks query k shard heap i =
      (std.heap Candidate.order).offer Prod.fst k heap (measuredAt numBlocks query shard i) := by
  obtain ⟨slice, length⟩ := length_row laid i inside
  have sliced : sliceAt shard.data (i * numBlocks) numBlocks = some (row numBlocks shard i) := by
    rw [sliceAt, if_pos slice, row]
  rw [scanVector, sliced]
  simp only [Option.bind_eq_bind, Option.bind_some, xorCount_eq numBlocks _ query length width]
  rfl

theorem scanBlock_eq (laid : Laid dim numBlocks shard) (width : query.length = numBlocks)
    (heap : (std.heap Candidate.order).Heap) (bIdx : Nat) (block : BlockSignature)
    (found : shard.blocks[bIdx]? = some block) (inside : block.endIdx ≤ shard.keys.length) :
    scanBlock std numBlocks query k shard heap block =
      (std.heap Candidate.order).offers Prod.fst k heap
        (itemsOf shard (measuredAt numBlocks query shard) bIdx) := by
  rw [scanBlock, BinaryHeap.offers, itemsOf, found]
  dsimp only
  rw [List.foldlM_map]
  refine foldlM_congr _ _ _ (fun i member next => ?_) heap
  have bounds := List.mem_range'_1.mp member
  exact scanVector_eq laid width next i (by omega)

theorem scanBlocks_cons (laid : Laid dim numBlocks shard) (width : query.length = numBlocks)
    (heap : (std.heap Candidate.order).Heap) (minDist bIdx : Nat) (rest : List (Nat × Nat))
    (present : ∃ block, shard.blocks[bIdx]? = some block ∧ block.endIdx ≤ shard.keys.length) :
    scanBlocks std numBlocks query k shard heap ((minDist, bIdx) :: rest) =
      (pruned std k heap minDist).bind fun stop =>
        if stop then some heap
        else ((std.heap Candidate.order).offers Prod.fst k heap
          (itemsOf shard (measuredAt numBlocks query shard) bIdx)).bind fun heap =>
            scanBlocks std numBlocks query k shard heap rest := by
  obtain ⟨block, found, inside⟩ := present
  rw [scanBlocks, found]
  simp only [Option.bind_eq_bind, Option.bind_some,
    scanBlock_eq laid width heap bIdx block found inside]
  rfl

theorem scanBlocks_eq (laid : Laid dim numBlocks shard) (width : query.length = numBlocks)
    (positive : 0 < k) (blocks : List (Nat × Nat))
    (present : ∀ eval ∈ blocks, ∃ block, shard.blocks[eval.2]? = some block ∧
      block.endIdx ≤ shard.keys.length)
    (sorted : blocks.Pairwise fun first second => first.1 ≤ second.1)
    (seen : List Candidate) (heap : (std.heap Candidate.order).Heap)
    (small : Smallest Prod.fst k seen ((std.heap Candidate.order).intoIter heap)) :
    scanBlocks std numBlocks query k shard heap blocks =
      (std.heap Candidate.order).offers Prod.fst k heap
        (divide k (itemsOf shard (measuredAt numBlocks query shard)) seen blocks).1 := by
  induction blocks generalizing seen heap with
  | nil => rfl
  | cons eval blocks ih =>
    obtain ⟨minDist, bIdx⟩ := eval
    obtain ⟨above, rest⟩ := List.pairwise_cons.mp sorted
    rw [scanBlocks_cons laid width heap minDist bIdx blocks (present _ List.mem_cons_self),
      pruned_eq std k positive seen heap minDist small]
    by_cases stop : k ≤ within Prod.fst minDist seen
    · have skipped := divide_skips k (itemsOf shard (measuredAt numBlocks query shard)) seen
        ((minDist, bIdx) :: blocks) (by
          intro block member
          rcases List.mem_cons.mp member with rfl | later
          · exact stop
          · refine Nat.le_trans stop (List.countP_mono_left fun item _ near => ?_)
            have := above block later
            simp only [decide_eq_true_eq] at near ⊢
            omega)
      rw [skipped]
      simp [stop, BinaryHeap.offers]
    · obtain ⟨middle, scanned, chosen⟩ := (std.heap Candidate.order).offers_smallest Prod.fst
        order_mono k positive seen (itemsOf shard (measuredAt numBlocks query shard) bIdx) heap small
      have later := ih (fun other member => present other (List.mem_cons_of_mem _ member)) rest
        (seen ++ itemsOf shard (measuredAt numBlocks query shard) bIdx) middle chosen
      rw [divide, if_neg stop, BinaryHeap.offers_append, scanned]
      simp only [stop, decide_false, Option.bind_some]
      exact later

theorem blocks_cover (numBlocks : Nat) (data : List Word) (n : Nat) :
    ((blocksOf numBlocks data n).flatMap fun block =>
      List.range' block.startIdx (block.endIdx - block.startIdx)) = List.range n := by
  suffices upTo : ∀ count, ((List.range count).flatMap fun bIdx =>
      List.range' (bIdx * 128) (min ((bIdx + 1) * 128) n - bIdx * 128)) =
        List.range (min (count * 128) n) by
    have all := upTo ((n + 127) / 128)
    rw [show min ((n + 127) / 128 * 128) n = n by omega] at all
    rw [← all, blocksOf, List.flatMap_map]
    rfl
  intro count
  induction count with
  | zero => simp
  | succ count ih =>
    rw [List.range_succ, List.flatMap_append, ih, List.flatMap_singleton]
    by_cases reached : count * 128 ≤ n
    · rw [Nat.min_eq_left reached, List.range_eq_range', List.range_eq_range',
        show min ((count + 1) * 128) n = count * 128 + (min ((count + 1) * 128) n - count * 128) by
          omega, ← List.range'_append_1]
      simp
    · rw [show min ((count + 1) * 128) n - count * 128 = 0 by omega, List.range'_zero,
        List.append_nil]
      congr 1
      omega

theorem mem_blocksOf (numBlocks : Nat) (data : List Word) (n : Nat) (block : BlockSignature)
    (member : block ∈ blocksOf numBlocks data n) :
    block.endIdx ≤ n ∧ block.sHigh.length = numBlocks ∧ block.sLow.length = numBlocks := by
  obtain ⟨bIdx, _, rfl⟩ := List.mem_map.mp member
  refine ⟨Nat.min_le_right _ _, ?_, ?_⟩ <;> simp [CoreShard.computeSignature]

theorem blockEvals_eq (laid : Laid dim numBlocks shard) (width : query.length = numBlocks) :
    blockEvals numBlocks query shard =
      some (shard.blocks.zipIdx.map fun (block, bIdx) => (scoreOf query block, bIdx)) := by
  apply mapM_total _ _ _
  intro pair present
  have inside := List.mem_of_getElem? (List.mem_zipIdx_iff_getElem?.mp present)
  rw [laid.blocks_eq] at inside
  obtain ⟨_, high, low⟩ := mem_blocksOf _ _ _ _ inside
  simp [blockScore_eq numBlocks query pair.1 (Nat.le_of_eq width.symm) high low]

theorem ordered_present (laid : Laid dim numBlocks shard) :
    ∀ eval ∈ ordered std query shard, ∃ block, shard.blocks[eval.2]? = some block ∧
      block.endIdx ≤ shard.keys.length := by
  intro eval member
  have original := ((std.sort fun eval : Nat × Nat => eval.1).perm _).mem_iff.mp member
  obtain ⟨⟨block, bIdx⟩, present, rfl⟩ := List.mem_map.mp original
  have found := List.mem_zipIdx_iff_getElem?.mp present
  refine ⟨block, found, ?_⟩
  have inside := List.mem_of_getElem? found
  rw [laid.blocks_eq] at inside
  exact (mem_blocksOf _ _ _ _ inside).1

variable (std query) in
theorem itemsOf_perm (laid : Laid dim numBlocks shard) (place : Nat → Candidate) :
    ((ordered std query shard).flatMap fun eval => itemsOf shard place eval.2).Perm
      ((List.range shard.keys.length).map place) := by
  have sorted := (std.sort fun eval : Nat × Nat => eval.1).perm
    (shard.blocks.zipIdx.map fun (block, bIdx) => (scoreOf query block, bIdx))
  refine (sorted.flatMap_right _).trans (List.Perm.of_eq ?_)
  rw [List.flatMap_map]
  let items (block : BlockSignature) : List Candidate :=
    (List.range' block.startIdx (block.endIdx - block.startIdx)).map place
  have each : ∀ pair ∈ shard.blocks.zipIdx, itemsOf shard place pair.2 = items pair.1 := by
    intro pair member
    rw [itemsOf, List.mem_zipIdx_iff_getElem?.mp member]
  have cover := blocks_cover numBlocks shard.data shard.keys.length
  rw [← laid.blocks_eq] at cover
  rw [← cover, List.map_flatMap]
  calc (shard.blocks.zipIdx.flatMap fun pair => itemsOf shard place pair.2)
      = shard.blocks.zipIdx.flatMap fun pair => items pair.1 := by
        rw [List.flatMap, List.map_congr_left each, List.flatMap]
    _ = (shard.blocks.zipIdx.map Prod.fst).flatMap items := by
        rw [List.flatMap_map]
    _ = shard.blocks.flatMap items := by
        rw [List.zipIdx_map_fst]

theorem ordered_perm (laid : Laid dim numBlocks shard) :
    ((ordered std query shard).flatMap fun eval => candidatesOf numBlocks query shard eval.2).Perm
      ((List.range shard.keys.length).map (candidateAt numBlocks query shard)) := by
  rw [candidatesOf_eq]
  exact itemsOf_perm _ _ laid _

end Scan

section Store

variable (std : StdChoices) (query : List Word) (k : Nat)

def divideShard (numBlocks : Nat) (shard : CoreShard F) : List Candidate × List Candidate :=
  divide k (candidatesOf numBlocks query shard) [] (ordered std query shard)

def distances (store : SharedVectorStore F) : List Nat :=
  store.shards.flatMap fun shard =>
    (List.range shard.keys.length).map fun i => hamming (row store.numBlocks shard i) query

def lookedAt (store : SharedVectorStore F) : List Nat :=
  store.shards.flatMap fun shard =>
    (divideShard std query k store.numBlocks shard).1.map Prod.fst

def skippedAt (store : SharedVectorStore F) : List Nat :=
  store.shards.flatMap fun shard =>
    (divideShard std query k store.numBlocks shard).2.map Prod.fst

-- Each shard's bounded heap, over the pairs in the order they are scanned.
def scanPairs (pairs : List Candidate) : Option (List Candidate) :=
  ((std.heap Candidate.order).offers Prod.fst k (std.heap Candidate.order).empty pairs).map
    (std.heap Candidate.order).intoIter

theorem scanPairs_smallest (positive : 0 < k) (pairs : List Candidate) :
    ∃ result, scanPairs std k pairs = some result ∧ Smallest Prod.fst k pairs result := by
  obtain ⟨heap, offered, small⟩ :=
    (std.heap Candidate.order).offers_empty Prod.fst order_mono k positive pairs
  exact ⟨_, by rw [scanPairs, offered, Option.map_some], small⟩

theorem scanReserved_eq (store : SharedVectorStore F) (formed : WellFormed store)
    (width : query.length = store.numBlocks) (positive : 0 < k)
    (shard : CoreShard F) (member : shard ∈ store.shards) :
    scanReserved std store.numBlocks query k shard =
      scanPairs std k (divide k (itemsOf shard (measuredAt store.numBlocks query shard)) []
        (ordered std query shard)).1 := by
  have laid := formed.shards shard member
  have start := (std.heap Candidate.order).smallest_empty Prod.fst k
  have scanned := scanBlocks_eq laid width positive (ordered std query shard)
    (ordered_present laid) ((std.sort fun eval : Nat × Nat => eval.1).sorted _) [] _ start
  rw [scanReserved, scanFrom, blockEvals_eq laid width, scanPairs, ← scanned, Option.map_eq_bind]
  rfl

theorem scanReserved_measured (store : SharedVectorStore F) (formed : WellFormed store)
    (width : query.length = store.numBlocks) (positive : 0 < k)
    (shard : CoreShard F) (member : shard ∈ store.shards) :
    ∃ candidates, scanReserved std store.numBlocks query k shard = some candidates ∧
      Smallest Prod.fst k
        (divide k (itemsOf shard (measuredAt store.numBlocks query shard)) []
          (ordered std query shard)).1 candidates := by
  rw [scanReserved_eq std query k store formed width positive shard member]
  exact scanPairs_smallest std k positive _

theorem scanReserved_smallest (store : SharedVectorStore F) (formed : WellFormed store)
    (fits : store.dim < 2 ^ 32) (width : query.length = store.numBlocks) (positive : 0 < k)
    (shard : CoreShard F) (member : shard ∈ store.shards) :
    ∃ candidates, scanReserved std store.numBlocks query k shard = some candidates ∧
      Smallest Prod.fst k (divideShard std query k store.numBlocks shard).1 candidates := by
  have size := formed.blocks
  have exact' := measuredAt_eq store.numBlocks query shard (by omega)
  have measured := scanReserved_measured std query k store formed width positive shard member
  rwa [exact', ← candidatesOf_eq] at measured

end Store

end SharedVectorStore

end OmegaDrive
