import OmegaDrive.Vector.Rerank
import OmegaDrive.Vector.Sharded

set_option autoImplicit false

namespace OmegaDrive

open TopK OptionLoop

namespace VectorBench

variable {F : Type} [FloatArith F] (std : StdChoices)

/-- The loop is that of the server. -/
def dotProduct (a b : List F) : F := SharedVectorStore.dotProduct a b

def CoreShard.rerank (shard : CoreShard F) (dim : Nat) (queryFloat : List F) (k : Nat)
    (candidates : List (Nat × Nat)) : Option (List (Nat × F)) := do
  let heap := std.heap RerankCandidate.order
  let best ← heap.withCapacity 24 ((k + 1) % 2 ^ 64)
  let best ← candidates.foldlM (fun best (localIdx, _) => do
    let candidate ← sliceAt shard.floatData (localIdx * dim) dim
    let score := dotProduct queryFloat candidate
    return heap.pushPop k best ⟨SharedVectorStore.toFixed score, 0, localIdx⟩) best
  return (heap.intoIter best).map fun c => (c.localIdx, SharedVectorStore.ofFixed c.scoreInt)

def rPerShard (numShards totalVectors k : Nat) : Nat :=
  max (min (max (totalVectors / 100) 1000) totalVectors / numShards) k

theorem reserves_budget {numShards totalVectors k : Nat} (few : totalVectors < 2 ^ 64)
    (room : Reserves 24 k) : Reserves 16 (rPerShard numShards totalVectors k) := by
  have below := Nat.div_le_self (min (max (totalVectors / 100) 1000) totalVectors) numShards
  exact reserves_max (by omega) room

-- Without a shard, the division panics.
def ShardedVectorEngine.searchShardedRerankedParallel (engine : ShardedVectorEngine F)
    (queryBin : List Word) (queryFloat : List F) (k : Nat) : Option (List (AirKey × F)) :=
  let totalVectors := (engine.shards.map fun shard => shard.keys.length).sum
  if engine.shards.length = 0 then none
  else do
    let shardCandidates ← engine.shards.mapM fun shard =>
      shard.search std queryBin engine.numBlocks (rPerShard engine.shards.length totalVectors k)
    let shardReranked ← (engine.shards.zip shardCandidates).mapM fun (shard, candidates) =>
      shard.rerank std engine.dim queryFloat k candidates
    let heap := std.heap RerankCandidate.order
    let final ← heap.withCapacity 24 ((k + 1) % 2 ^ 64)
    let final := heap.pushPops k final
      (shardReranked.zipIdx.map fun (shardRes, shardIdx) =>
        shardRes.map fun (localIdx, score) =>
          (⟨SharedVectorStore.toFixed score, shardIdx, localIdx⟩ : RerankCandidate)).flatten
    let finalResults := (std.sort RerankCandidate.order).sort (heap.intoIter final)
    finalResults.mapM fun c => do
      let key ← engine.keyAt c.shardIdx c.localIdx
      return (key, SharedVectorStore.ofFixed c.scoreInt)

section Shard

variable (dim : Nat) (query : List F)

def pick (hand : List (AirKey × List F)) (i : Nat) : AirKey × List F := hand.getD i (⟨""⟩, [])

def fixedScore (vector : AirKey × List F) : Int :=
  SharedVectorStore.toFixed (dotProduct query vector.2)

def scored (hand : List (AirKey × List F)) (candidate : Candidate) : RerankCandidate :=
  ⟨fixedScore query (pick hand candidate.2), 0, candidate.2⟩

omit [FloatArith F] in
theorem pick_found {hand : List (AirKey × List F)} {i : Nat} {vector : AirKey × List F}
    (found : hand[i]? = some vector) : pick hand i = vector := by
  rw [pick, List.getD_eq_getElem?_getD, found, Option.getD_some]

variable {dim query}

theorem mem_candidates {hand : List (AirKey × List F)} {candidate : Candidate}
    (member : candidate ∈ candidates dim query hand) :
    ∃ vector, hand[candidate.2]? = some vector ∧ candidate.1 = near dim query vector := by
  obtain ⟨⟨vector, i⟩, inside, rfl⟩ := List.mem_map.mp member
  exact ⟨vector, List.mem_zipIdx_iff_getElem?.mp inside, rfl⟩

theorem picked_smallest {hand : List (AirKey × List F)} {r : Nat} {chosen : List Candidate}
    (small : Smallest Prod.fst r (candidates dim query hand) chosen) :
    Smallest (near dim query) r hand (chosen.map fun candidate => pick hand candidate.2) := by
  have distances : ∀ candidate ∈ candidates dim query hand,
      near dim query (pick hand candidate.2) = candidate.1 := by
    intro candidate member
    obtain ⟨vector, found, measured⟩ := mem_candidates member
    rw [pick_found found, measured]
  have vectors : (candidates dim query hand).map (fun candidate => pick hand candidate.2) =
      hand := by
    have picks : ∀ entry ∈ hand.zipIdx, pick hand entry.2 = entry.1 :=
      fun _ member => pick_found (List.mem_zipIdx_iff_getElem?.mp member)
    rw [candidates, List.map_map]
    exact (List.map_congr_left picks).trans (List.zipIdx_map_fst 0 hand)
  have moved := small.map_on (fun candidate => pick hand candidate.2) (near dim query) (by
    intro first firstIn second secondIn below
    rwa [distances first firstIn, distances second secondIn])
  rwa [vectors] at moved

theorem Holds.floatRow {hand : List (AirKey × List F)} {shard : CoreShard F}
    (holds : Holds dim hand shard) (full : ∀ vector ∈ hand, vector.2.length = dim) (i : Nat)
    (vector : AirKey × List F) (found : hand[i]? = some vector) :
    sliceAt shard.floatData (i * dim) dim = some vector.2 := by
  let padded (vector : AirKey × List F) : List F := SharedVectorStore.padFloats dim vector.2
  have unpadded : ∀ vector ∈ hand, padded vector = vector.2 := by
    intro vector member
    have length := full vector member
    simp [padded, SharedVectorStore.padFloats_eq, length, List.take_of_length_le]
  have floats : shard.floatData = hand.flatMap padded := by
    rw [holds.floats_eq, List.flatMap_def, List.flatMap_def, List.map_congr_left unpadded]
  have size (vector : AirKey × List F) : (padded vector).length = dim :=
    SharedVectorStore.length_padFloats dim vector.2
  have record := Records.recordAt_flatMap padded size hand i vector found
  have length := Records.length_flatMap padded size hand
  have inside : (i + 1) * dim ≤ hand.length * dim :=
    Nat.mul_le_mul_right _ (List.getElem?_eq_some_iff.mp found).1
  rw [Nat.add_mul, Nat.one_mul, ← length, ← floats] at inside
  rw [sliceAt, if_pos inside, floats, ← unpadded vector (List.mem_of_getElem? found), ← record,
    Records.recordAt]

theorem CoreShard.rerank_smallest {hand : List (AirKey × List F)} {shard : CoreShard F}
    (holds : Holds dim hand shard) (full : ∀ vector ∈ hand, vector.2.length = dim) (r k : Nat)
    (chosen : List Candidate) (small : Smallest Prod.fst r (candidates dim query hand) chosen)
    (room : Reserves 24 k) :
    ∃ best : List RerankCandidate,
      shard.rerank std dim query k (chosen.map fun (dist, idx) => (idx, dist)) =
        some (best.map fun c => (c.localIdx, SharedVectorStore.ofFixed c.scoreInt)) ∧
      Smallest RerankCandidate.order k (chosen.map (scored query hand)) best := by
  let heap := std.heap RerankCandidate.order
  have steps : (chosen.map fun (dist, idx) => (idx, dist)).foldlM (fun best (localIdx, _) => do
      let candidate ← sliceAt shard.floatData (localIdx * dim) dim
      let score := dotProduct query candidate
      return heap.pushPop k best ⟨SharedVectorStore.toFixed score, 0, localIdx⟩) heap.empty =
      some (heap.pushPops k heap.empty (chosen.map (scored query hand))) := by
    rw [List.foldlM_map, BinaryHeap.pushPops, List.foldl_map]
    apply foldlM_total
    intro candidate member best
    obtain ⟨vector, found, _⟩ := mem_candidates (small.subset candidate member)
    simp [holds.floatRow full candidate.2 vector found, scored, fixedScore, pick_found found]
  refine ⟨heap.intoIter (heap.pushPops k heap.empty (chosen.map (scored query hand))), ?_, ?_⟩
  · rw [CoreShard.rerank, heap.withCapacity_room room]
    exact congrArg (Option.bind · _) steps
  · exact heap.pushPops_empty RerankCandidate.order (fun _ _ below => below) k _

end Shard

section Engine

variable {dim : Nat} {query : List F} {engine : ShardedVectorEngine F} {k r : Nat}
  {hands : List (List (AirKey × List F))} {chosen : List (List Candidate)}
  (held : List.Forall₂ (Holds dim) hands engine.shards)
  (each : List.Forall₂ (fun hand chosen => Smallest Prod.fst r (candidates dim query hand) chosen)
    hands chosen)

-- A vector's score as it is listed: it has been an `f32` in between.
def listedScore (query : List F) (vector : AirKey × List F) : Int :=
  SharedVectorStore.toFixed (SharedVectorStore.ofFixed (fixedScore query vector) : F)

def scoredEntry (hands : List (List (AirKey × List F))) (c : RerankCandidate) :
    (AirKey × List F) × Int :=
  (pick (hands.getD c.shardIdx []) c.localIdx, c.scoreInt)

def kept (hands : List (List (AirKey × List F))) (chosen : List (List Candidate)) :
    List (List (AirKey × List F)) :=
  (hands.zip chosen).map fun pair => pair.2.map fun candidate => pick pair.1 candidate.2

def rescored (query : List F) (hands : List (List (AirKey × List F)))
    (chosen : List (List Candidate)) : List (List RerankCandidate) :=
  (hands.zip chosen).map fun pair => pair.2.map (scored query pair.1)

include each

theorem kept_smallest : List.Forall₂ (Smallest (near dim query) r) hands (kept hands chosen) := by
  have firsts := List.map_fst_zip (Nat.le_of_eq each.length_eq)
  rw [kept]
  nth_rewrite 1 [← firsts]
  rw [List.forall₂_map_left_iff, List.forall₂_map_right_iff, List.forall₂_same]
  intro pair member
  exact picked_smallest ((List.forall₂_iff_zip.mp each).2 member)

omit each in
theorem map_offered :
    (SharedVectorStore.offered F (rescored query hands chosen)).map (scoredEntry hands) =
      (kept hands chosen).flatten.map fun vector => (vector, listedScore query vector) := by
  let listed (vector : AirKey × List F) : (AirKey × List F) × Int :=
    (vector, listedScore query vector)
  let vectorsOf (pair : List (AirKey × List F) × List Candidate) : List (AirKey × List F) :=
    pair.2.map fun candidate => pick pair.1 candidate.2
  have entries : ∀ entry ∈ (hands.zip chosen).zipIdx,
      (entry.1.2.map fun candidate => scoredEntry hands
        (SharedVectorStore.handedOver F entry.2 (scored query entry.1.1 candidate))) =
      (vectorsOf entry.1).map listed := by
    rintro ⟨⟨hand, candidates⟩, s⟩ member
    have dealt := (List.getElem?_zip_eq_some.mp (List.mem_zipIdx_iff_getElem?.mp member)).1
    have own : hands.getD s [] = hand := by
      rw [List.getD_eq_getElem?_getD, dealt, Option.getD_some]
    rw [List.map_map]
    refine List.map_congr_left fun candidate _ => ?_
    simp only [scoredEntry, SharedVectorStore.handedOver, scored, own]
    rfl
  calc (SharedVectorStore.offered F (rescored query hands chosen)).map (scoredEntry hands)
      = ((hands.zip chosen).zipIdx.map fun entry => entry.1.2.map fun candidate =>
          scoredEntry hands
            (SharedVectorStore.handedOver F entry.2 (scored query entry.1.1 candidate))).flatten := by
        simp [SharedVectorStore.offered, rescored, List.map_flatten, List.zipIdx_map,
          Function.comp_def]
    _ = ((hands.zip chosen).zipIdx.map fun entry => (vectorsOf entry.1).map listed).flatten := by
        rw [List.map_congr_left entries]
    _ = ((hands.zip chosen).map fun pair => (vectorsOf pair).map listed).flatten :=
        congrArg List.flatten (map_zipIdx_fst (fun pair => (vectorsOf pair).map listed) _)
    _ = (kept hands chosen).flatten.map listed := by
        rw [kept, List.map_flatten, List.map_map]
        rfl

theorem mem_offered (c : RerankCandidate)
    (member : c ∈ SharedVectorStore.offered F (rescored query hands chosen)) :
    ∃ hand vector, hands[c.shardIdx]? = some hand ∧ hand[c.localIdx]? = some vector := by
  obtain ⟨part, present, inside⟩ := List.mem_flatten.mp member
  obtain ⟨⟨best, s⟩, located, rfl⟩ := List.mem_map.mp present
  obtain ⟨first, firstIn, rfl⟩ := List.mem_map.mp inside
  obtain ⟨⟨hand, candidates⟩, paired, rfl⟩ := Option.map_eq_some_iff.mp
    ((List.getElem?_map ..).symm.trans (List.mem_zipIdx_iff_getElem?.mp located))
  obtain ⟨candidate, candidateIn, rfl⟩ := List.mem_map.mp firstIn
  have small := (List.forall₂_iff_zip.mp each).2 (List.mem_of_getElem? paired)
  obtain ⟨vector, found, _⟩ := mem_candidates (small.subset candidate candidateIn)
  exact ⟨hand, vector, (List.getElem?_zip_eq_some.mp paired).1, found⟩

omit each in
-- The conversion in between does not change which scores are the highest.
theorem reranked_smallest
    (mono : ∀ low high : Int, low ≤ high → SharedVectorStore.toFixed (F := F)
      (SharedVectorStore.ofFixed low) ≤ SharedVectorStore.toFixed (F := F)
        (SharedVectorStore.ofFixed high))
    (parts bests : List (List RerankCandidate))
    (best : List.Forall₂ (Smallest RerankCandidate.order k) parts bests) :
    Smallest RerankCandidate.order k (SharedVectorStore.offered F parts)
      (SharedVectorStore.mergeReranked std k (bests.map fun best => best.map fun c =>
        (c.localIdx, (SharedVectorStore.ofFixed c.scoreInt : F)))) := by
  have merged := SharedVectorStore.mergeReranked_smallest std k (bests.map fun best =>
    best.map fun c => (c.localIdx, (SharedVectorStore.ofFixed c.scoreInt : F)))
  rw [SharedVectorStore.offered_scored] at merged
  refine Smallest.flatten ?_ merged
  rw [List.forall₂_map_left_iff, List.forall₂_map_right_iff]
  apply (related_zipIdx best 0).imp
  rintro ⟨part, s⟩ ⟨chosen, _⟩ ⟨rfl, small⟩
  apply small.map_mono (SharedVectorStore.handedOver F s)
  intro first second below
  exact Int.neg_le_neg (mono _ _ (Int.neg_le_neg_iff.mp below))

end Engine

theorem kept_whole {dim numShards r : Nat} {query : List F} (positive : 0 < numShards)
    (vectors : List (AirKey × List F)) {chosen : List (List Candidate)}
    (each : List.Forall₂ (fun hand chosen => Smallest Prod.fst r (candidates dim query hand) chosen)
      (handsOf numShards vectors) chosen) (enough : vectors.length ≤ numShards * r) :
    (kept (handsOf numShards vectors) chosen).flatten.Perm vectors := by
  have small : ∀ hand ∈ handsOf numShards vectors, hand.length ≤ r := by
    intro hand member
    obtain ⟨s, inside, rfl⟩ := List.mem_map.mp member
    have size : (RoundRobin.dealt numShards id s vectors).length =
        (vectors.length + numShards - 1 - s) / numShards :=
      RoundRobin.length_dealt s (List.mem_range.mp inside) vectors fun _ _ => rfl
    rw [size]
    apply Nat.le_of_lt_succ
    rw [Nat.div_lt_iff_lt_mul positive, Nat.succ_mul, Nat.mul_comm]
    omega
  have all := (related_inside (kept_smallest each)).imp fun hand kept both =>
    (both.2.all (small hand both.1)).symm
  exact (List.Perm.flatten_congr all).symm.trans (handsOf_perm positive vectors)

section Loading

variable {dim numShards : Nat} {engine : ShardedVectorEngine F} {vectors : List (AirKey × List F)}
  (dealt : Dealt dim numShards engine vectors)

include dealt

theorem Dealt.total (positive : 0 < numShards) :
    (engine.shards.map fun shard => shard.keys.length).sum = vectors.length := by
  have lengths : (engine.shards.map fun shard => shard.keys.length) =
      (handsOf numShards vectors).map List.length :=
    map_of_related _ _ _ _ (dealt.held.imp fun hand shard holds => by
      rw [holds.keys_eq, List.length_map])
  rw [lengths, ← List.length_flatten, (handsOf_perm positive vectors).length_eq]

theorem Dealt.rerank (aligned : dim % 64 = 0)
    (full : ∀ vector ∈ vectors, vector.2.length = dim) (query : List F) (r k : Nat)
    (coarse : Reserves 16 r) (room : Reserves 24 k) :
    ∃ chosen shardCandidates bests,
      (engine.shards.mapM fun shard => shard.search std (signs dim query) engine.numBlocks r) =
        some shardCandidates ∧
      ((engine.shards.zip shardCandidates).mapM fun (shard, candidates) =>
        shard.rerank std engine.dim query k candidates) =
          some (bests.map fun best : List RerankCandidate => best.map fun c =>
            (c.localIdx, SharedVectorStore.ofFixed c.scoreInt)) ∧
      List.Forall₂ (fun hand chosen => Smallest Prod.fst r (candidates dim query hand) chosen)
        (handsOf numShards vectors) chosen ∧
      List.Forall₂ (Smallest RerankCandidate.order k)
        (rescored query (handsOf numShards vectors) chosen) bests := by
  have hands : ∀ hand ∈ handsOf numShards vectors, ∀ vector ∈ hand, vector.2.length = dim := by
    intro hand member vector inside
    obtain ⟨s, _, rfl⟩ := List.mem_map.mp member
    exact full vector (RoundRobin.mem_of_mem_dealt _ _ _ inside)
  obtain ⟨chosen, searched, each⟩ := mapM_along
    (fun shard : CoreShard F => shard.search std (signs dim query) engine.numBlocks r)
    (fun results : List Candidate => results.map fun (dist, idx) => (idx, dist))
    (fun hand results => Smallest Prod.fst r (candidates dim query hand) results)
    dealt.held (by
      intro hand shard holds
      rw [dealt.blocks_eq]
      exact CoreShard.search_smallest std aligned holds coarse)
  obtain ⟨bests, reranked, best⟩ := mapM_along
    (fun pair : CoreShard F × List (Nat × Nat) => pair.1.rerank std engine.dim query k pair.2)
    (fun best : List RerankCandidate => best.map fun c =>
      (c.localIdx, (SharedVectorStore.ofFixed c.scoreInt : F)))
    (fun pair best =>
      Smallest RerankCandidate.order k (pair.2.map (scored query pair.1)) best)
    (related_zips (fun results : List Candidate => results.map fun (dist, idx) => (idx, dist))
      (related_inside dealt.held) each) (by
      rintro ⟨hand, candidates⟩ ⟨shard, _⟩ ⟨⟨member, holds⟩, small, rfl⟩
      rw [dealt.dim_eq]
      exact CoreShard.rerank_smallest std holds (hands hand member) r k candidates small
        room)
  exact ⟨chosen, _, bests, searched, reranked, each, List.forall₂_map_left_iff.mpr best⟩

end Loading

theorem reranked_best (dim numShards k : Nat) (aligned : dim % 64 = 0) (positive : 0 < numShards)
    (room : Reserves 24 k)
    (mono : ∀ low high : Int, low ≤ high → SharedVectorStore.toFixed (F := F)
      (SharedVectorStore.ofFixed low) ≤ SharedVectorStore.toFixed (F := F)
        (SharedVectorStore.ofFixed high))
    (vectors : List (AirKey × List F)) (few : vectors.length < 2 ^ 64)
    (full : ∀ vector ∈ vectors, vector.2.length = dim) (query : List F)
    (queryFull : query.length = dim) :
    let budget := rPerShard numShards vectors.length k
    ∃ engine queryBin kept, ∃ results : List ((AirKey × List F) × Int),
      (ShardedVectorEngine.new dim numShards aligned).load vectors = some engine ∧
      engine.quantize query = some queryBin ∧
      List.Forall₂ (Smallest (fun vector => distance dim vector.2 query % 2 ^ 32) budget)
        (handsOf numShards vectors) kept ∧
      engine.searchShardedRerankedParallel std queryBin query k =
        some (results.map fun entry => (entry.1.1, SharedVectorStore.ofFixed entry.2)) ∧
      results.Pairwise (fun first second => second.2 ≤ first.2) ∧
      Smallest (fun entry => -entry.2) k
        (kept.flatten.map fun vector => (vector, listedScore query vector)) results ∧
      (vectors.length ≤ numShards * budget → Smallest (fun entry => -entry.2) k
        (vectors.map fun vector => (vector, listedScore query vector)) results) := by
  intro budget
  obtain ⟨engine, filled, bits, dealt⟩ :=
    loaded dim numShards aligned positive vectors full query queryFull
  obtain ⟨chosen, shardCandidates, bests, searched, reranked, each, best⟩ :=
    dealt.rerank std aligned full query budget k (reserves_budget few room) room
  let hands := handsOf numShards vectors
  let final := SharedVectorStore.mergeReranked std k (bests.map fun best => best.map fun c =>
    (c.localIdx, (SharedVectorStore.ofFixed c.scoreInt : F)))
  have small : Smallest RerankCandidate.order k
      (SharedVectorStore.offered F (rescored query hands chosen)) final :=
    reranked_smallest std mono _ bests best
  have keys : ∀ c ∈ final, (do
      let key ← engine.keyAt c.shardIdx c.localIdx
      return (key, (SharedVectorStore.ofFixed c.scoreInt : F))) =
      some ((scoredEntry hands c).1.1, SharedVectorStore.ofFixed (scoredEntry hands c).2) := by
    intro c member
    obtain ⟨hand, vector, own, found⟩ := mem_offered each c (small.subset c member)
    have held : hands.getD c.shardIdx [] = hand := by
      rw [List.getD_eq_getElem?_getD, own, Option.getD_some]
    rw [keyAt_held dealt.held _ _ hand vector own found, scoredEntry, held, pick_found found]
    rfl
  have listed : Smallest (fun entry : (AirKey × List F) × Int => -entry.2) k
      ((kept hands chosen).flatten.map fun vector => (vector, listedScore query vector))
      (final.map (scoredEntry hands)) := by
    rw [← map_offered]
    exact small.map_of (scoredEntry hands) _ fun _ => rfl
  refine ⟨engine, signs dim query, kept hands chosen, final.map (scoredEntry hands), filled, bits,
    kept_smallest each, ?_, ?_, listed, fun enough => ?_⟩
  · have sharded : engine.shards.length ≠ 0 := by
      rw [dealt.shards_length]
      exact Nat.ne_of_gt positive
    rw [ShardedVectorEngine.searchShardedRerankedParallel, if_neg sharded, dealt.shards_length,
      dealt.total positive, searched, Option.bind_eq_bind, Option.bind_some,
      reranked, Option.bind_eq_bind, Option.bind_some]
    dsimp only
    rw [(std.heap RerankCandidate.order).withCapacity_room room, Option.bind_eq_bind,
      Option.bind_some, List.map_map]
    exact mapM_total _ _ final keys
  · refine List.pairwise_map.mpr ((SharedVectorStore.mergeReranked_sorted std k _).imp ?_)
    intro first second below
    exact Int.neg_le_neg_iff.mp below
  · exact listed.perm ((kept_whole positive vectors each enough).map _).symm

theorem fixed_mono (low high : Int) (below : low ≤ high) :
    SharedVectorStore.toFixed (SharedVectorStore.ofFixed low : Int) ≤
      SharedVectorStore.toFixed (SharedVectorStore.ofFixed high : Int) := by
  have divided : low.tdiv 10000000 ≤ high.tdiv 10000000 := Int.tdiv_le_tdiv (by decide) below
  simp only [SharedVectorStore.toFixed, SharedVectorStore.ofFixed, FloatArith.mul, FloatArith.div,
    FloatArith.ofInt, FloatArith.toI32, id_eq]
  omega

theorem reranked_best_five :
    ∃ engine queryBin kept, ∃ results : List ((AirKey × List Int) × Int),
      (ShardedVectorEngine.new 64 2 rfl).load five = some engine ∧
      engine.quantize ones = some queryBin ∧
      List.Forall₂ (Smallest (fun vector => distance 64 vector.2 ones % 2 ^ 32) 3)
        (handsOf 2 five) kept ∧
      engine.searchShardedRerankedParallel StdChoices.lists queryBin ones 3 =
        some (results.map fun entry => (entry.1.1, SharedVectorStore.ofFixed entry.2)) ∧
      results.Pairwise (fun first second => second.2 ≤ first.2) ∧
      Smallest (fun entry => -entry.2) 3
        (kept.flatten.map fun vector => (vector, listedScore ones vector)) results ∧
      (5 ≤ 2 * 3 → Smallest (fun entry => -entry.2) 3
        (five.map fun vector => (vector, listedScore ones vector)) results) :=
  reranked_best StdChoices.lists 64 2 3 rfl (by decide) (by decide) fixed_mono five (by decide)
    five_full ones List.length_replicate

end VectorBench

end OmegaDrive
