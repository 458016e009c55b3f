import OmegaDrive.Shared.BinaryHeap
import OmegaDrive.Vector.Store
import Mathlib.Data.Prod.Lex

set_option autoImplicit false

namespace OmegaDrive

open TopK

/-! `none` is a panic: an index or a slice out of range, an `unwrap` of an empty heap's `peek`, or
a heap with more capacity than can be asked for. -/

-- `&data[start..start + len]`
def sliceAt {α : Type} (data : List α) (start len : Nat) : Option (List α) :=
  if start + len ≤ data.length then some ((data.drop start).take len) else none

/-- The counts of a `u32` sum wrap around. -/
def xorCount (numBlocks : Nat) (candidate query : List Word) : Option Nat :=
  (List.range numBlocks).foldlM (fun dist j => do
    let a ← candidate[j]?
    let b ← query[j]?
    return (dist + countOnes (a ^^^ b)) % 2 ^ 32) 0

def blockScore (numBlocks : Nat) (query : List Word) (block : BlockSignature) : Option Nat := do
  let queryLow := query.map fun w => ~~~w
  let minDist ← (List.range numBlocks).foldlM (fun minDist j => do
    let q ← query[j]?
    let high ← block.sHigh[j]?
    let ql ← queryLow[j]?
    let low ← block.sLow[j]?
    let minDist := (minDist + countOnes (q ^^^ high)) % 2 ^ 32
    return (minDist + countOnes (ql ^^^ low)) % 2 ^ 32) 0
  return minDist - block.numSuperpositions

/-- A distance and the place of a vector in its shard; tuples compare from the left. -/
abbrev Candidate := Nat × Nat

def Candidate.order (c : Candidate) : Nat ×ₗ Nat := toLex c

/-- A distance, a shard and a place in it. -/
abbrev Located := Nat × Nat × Nat

def Located.order (c : Located) : Nat ×ₗ Nat ×ₗ Nat := toLex (c.1, toLex c.2)

structure RerankCandidate where
  scoreInt : Int
  shardIdx : Nat
  localIdx : Nat

-- The reversed comparison: the heap's greatest candidate has the smallest score.
def RerankCandidate.order (c : RerankCandidate) : Int := -c.scoreInt

namespace SharedVectorStore

variable {F : Type} (std : StdChoices)

section Hamming

variable (numBlocks : Nat) (query : List Word) (k : Nat) (shard : CoreShard F)

def blockEvals : Option (List (Nat × Nat)) :=
  shard.blocks.zipIdx.mapM fun (block, bIdx) => do
    let minDist ← blockScore numBlocks query block
    return (minDist, bIdx)

def scanVector (heap : (std.heap Candidate.order).Heap) (i : Nat) :
    Option (std.heap Candidate.order).Heap := do
  let candidate ← sliceAt shard.data (i * numBlocks) numBlocks
  let dist ← xorCount numBlocks candidate query
  (std.heap Candidate.order).offer Prod.fst k heap (dist, i)

def scanBlock (heap : (std.heap Candidate.order).Heap) (block : BlockSignature) :
    Option (std.heap Candidate.order).Heap :=
  (List.range' block.startIdx (block.endIdx - block.startIdx)).foldlM
    (scanVector std numBlocks query k shard) heap

-- The break: the heap is full and the block's score is no lower than its greatest distance.
def pruned (heap : (std.heap Candidate.order).Heap) (minDist : Nat) : Option Bool :=
  if k ≤ (std.heap Candidate.order).len heap then do
    let top ← (std.heap Candidate.order).peek heap
    return decide (top.1 ≤ minDist)
  else some false

def scanBlocks : (std.heap Candidate.order).Heap → List (Nat × Nat) →
    Option (std.heap Candidate.order).Heap
  | heap, [] => some heap
  | heap, (minDist, bIdx) :: rest => do
    let stop ← pruned std k heap minDist
    if stop then return heap
    let block ← shard.blocks[bIdx]?
    let heap ← scanBlock std numBlocks query k shard heap block
    scanBlocks heap rest

def scanFrom (heap : (std.heap Candidate.order).Heap) : Option (List Candidate) := do
  let evals ← blockEvals numBlocks query shard
  let heap ← scanBlocks std numBlocks query k shard heap
    ((std.sort fun eval : Nat × Nat => eval.1).sort evals)
  return (std.heap Candidate.order).intoIter heap

def scanShard : Option (List Candidate) := do
  let heap ← (std.heap Candidate.order).withCapacity 16 ((k + 1) % 2 ^ 64)
  scanFrom std numBlocks query k shard heap

-- The scan once its heap is there.
def scanReserved : Option (List Candidate) :=
  scanFrom std numBlocks query k shard (std.heap Candidate.order).empty

end Hamming

def locate (shardResults : List (List Candidate)) : List Located :=
  (shardResults.zipIdx.map fun (shardRes, shardIdx) =>
    shardRes.map fun (dist, localIdx) => (dist, shardIdx, localIdx)).flatten

def keyAt (store : SharedVectorStore F) (shardIdx localIdx : Nat) : Option AirKey := do
  let shard ← store.shards[shardIdx]?
  shard.keys[localIdx]?

def search (store : SharedVectorStore F) (query : List Word) (k : Nat) :
    Option (List (AirKey × Nat)) := do
  let shardResults ← store.shards.mapM (scanShard std store.numBlocks query k)
  let heap := std.heap Located.order
  let merged ← heap.withCapacity 24 ((k + 1) % 2 ^ 64)
  let merged := heap.intoIter (heap.pushPops k merged (locate shardResults))
  let finalResults := (std.sort fun located : Located => located.1).sort merged
  finalResults.mapM fun (dist, shardIdx, localIdx) => do
    let key ← store.keyAt shardIdx localIdx
    return (key, dist)

section Rerank

variable [FloatArith F]

-- Eight sums over the chunks of eight; what is left over at the end is not added.
def dotProduct (a b : List F) : F :=
  let chunks := min (a.length / 8) (b.length / 8)
  let sums := (List.range 8).map fun j =>
    (List.range chunks).foldl (fun sum chunk =>
      FloatArith.add sum (FloatArith.mul (a.getD (chunk * 8 + j) FloatArith.zero)
        (b.getD (chunk * 8 + j) FloatArith.zero))) FloatArith.zero
  sums.foldl FloatArith.add FloatArith.zero

-- `(score * 10_000_000.0) as i32`
def toFixed (score : F) : Int := FloatArith.toI32 (FloatArith.mul score (FloatArith.ofInt 10000000))

-- `score_int as f32 / 10_000_000.0`
def ofFixed (scoreInt : Int) : F :=
  FloatArith.div (FloatArith.ofInt scoreInt) (FloatArith.ofInt 10000000)

section Shard

variable (dim : Nat) (queryFloat : List F) (k : Nat) (shard : CoreShard F)
  (candidates : List Candidate)

def rerankFrom (best : (std.heap RerankCandidate.order).Heap) : Option (List (Nat × F)) := do
  let heap := std.heap RerankCandidate.order
  let best ← candidates.foldlM (fun best (_, localIdx) => do
    let candidate ← sliceAt shard.floatData (localIdx * dim) dim
    heap.offer RerankCandidate.order k best
      ⟨toFixed (dotProduct queryFloat candidate), 0, localIdx⟩) best
  return (heap.intoIter best).map fun c => (c.localIdx, ofFixed c.scoreInt)

def rerankShard : Option (List (Nat × F)) := do
  let best ← (std.heap RerankCandidate.order).withCapacity 24 ((k + 1) % 2 ^ 64)
  rerankFrom std dim queryFloat k shard candidates best

-- The reranking once its heap is there.
def rerankReserved : Option (List (Nat × F)) :=
  rerankFrom std dim queryFloat k shard candidates (std.heap RerankCandidate.order).empty

end Shard

-- How many candidates the coarse stage keeps of each shard.
def rPerShard (store : SharedVectorStore F) (k : Nat) : Nat :=
  let totalVectors := store.len
  let r := min (max (totalVectors / 500) 1000) totalVectors
  max (r / store.shards.length) k

def searchReranked (store : SharedVectorStore F) (queryBin : List Word) (queryFloat : List F)
    (k : Nat) : Option (List (AirKey × F)) :=
  if store.len = 0 then some []
  else do
    let shardCandidates ←
      store.shards.mapM (scanShard std store.numBlocks queryBin (store.rPerShard k))
    let shardReranked ← (store.shards.zip shardCandidates).mapM fun (shard, candidates) =>
      rerankShard std store.dim queryFloat k shard candidates
    let heap := std.heap RerankCandidate.order
    let final ← heap.withCapacity 24 ((k + 1) % 2 ^ 64)
    let final := heap.pushPops k final
      (shardReranked.zipIdx.map fun (shardRes, shardIdx) =>
        shardRes.map fun (localIdx, score) =>
          (⟨toFixed score, shardIdx, localIdx⟩ : RerankCandidate)).flatten
    let finalResults := (std.sort RerankCandidate.order).sort (heap.intoIter final)
    finalResults.mapM fun c => do
      let key ← store.keyAt c.shardIdx c.localIdx
      return (key, ofFixed c.scoreInt)

end Rerank

end SharedVectorStore

end OmegaDrive
