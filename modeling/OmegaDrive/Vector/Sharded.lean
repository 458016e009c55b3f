import OmegaDrive.Vector.Pruning
import OmegaDrive.Vector.Scores

set_option autoImplicit false

namespace OmegaDrive

open TopK OptionLoop

namespace VectorBench

structure AirKey where
  text : String
  deriving DecidableEq

structure CoreShard (F : Type) where
  keys : List AirKey
  data : List Word
  floatData : List F

structure ShardedVectorEngine (F : Type) extends OmegaDrive.ShardedVectorEngine where
  shards : List (CoreShard F)

namespace CoreShard

variable {F : Type}

def new : CoreShard F := ⟨[], [], []⟩

-- `none` is an index or a slice out of range, or a heap with too much capacity.
def search (std : StdChoices) (shard : CoreShard F) (query : List Word) (numBlocks k : Nat) :
    Option (List (Nat × Nat)) := do
  let heap := std.heap Candidate.order
  let kept ← heap.withCapacity 16 ((k + 1) % 2 ^ 64)
  let kept ← (List.range shard.keys.length).foldlM (fun kept i => do
    let candidate ← sliceAt shard.data (i * numBlocks) numBlocks
    let dist ← xorCount numBlocks candidate query
    return heap.pushPop k kept (dist, i)) kept
  let results := (std.sort fun result : Candidate => result.1).sort (heap.intoIter kept)
  return results.map fun (dist, idx) => (idx, dist)

end CoreShard

namespace ShardedVectorEngine

variable {F : Type}

def new (dim numShards : Nat) (aligned : dim % 64 = 0) : ShardedVectorEngine F :=
  { OmegaDrive.ShardedVectorEngine.new dim aligned with
    shards := List.replicate numShards CoreShard.new }

/-- Without a shard, the remainder panics. -/
def add (engine : ShardedVectorEngine F) (key : AirKey) (bitVector : List Word)
    (floatVector : List F) (globalIdx : Nat) : Option (ShardedVectorEngine F) :=
  if engine.shards.length = 0 then none
  else
    let shardIdx := globalIdx % engine.shards.length
    some { engine with
      shards := engine.shards.modify shardIdx fun shard =>
        ⟨shard.keys ++ [key], shard.data ++ bitVector, shard.floatData ++ floatVector⟩ }

def keyAt (engine : ShardedVectorEngine F) (shardIdx localIdx : Nat) : Option AirKey := do
  let shard ← engine.shards[shardIdx]?
  shard.keys[localIdx]?

def searchShardedParallel (std : StdChoices) (engine : ShardedVectorEngine F)
    (queryBin : List Word) (k : Nat) : Option (List (AirKey × Nat)) := do
  let shardResults ← engine.shards.mapM fun shard =>
    shard.search std queryBin engine.numBlocks k
  let heap := std.heap Located.order
  let merged ← heap.withCapacity 24 ((k + 1) % 2 ^ 64)
  let merged := heap.pushPops k merged
    (shardResults.zipIdx.map fun (shardRes, shardIdx) =>
      shardRes.map fun (localIdx, dist) => (dist, shardIdx, localIdx)).flatten
  let finalResults := (std.sort fun located : Located => located.1).sort (heap.intoIter merged)
  finalResults.mapM fun (dist, shardIdx, localIdx) => do
    let key ← engine.keyAt shardIdx localIdx
    return (key, dist)

variable [FloatArith F]

-- The bits are set in `main`, by the loop of `quantize`.
def load (engine : ShardedVectorEngine F) (vectors : List (AirKey × List F)) :
    Option (ShardedVectorEngine F) :=
  vectors.zipIdx.foldlM (fun engine ((key, floatVector), globalIdx) => do
    let bitVector ← engine.quantize floatVector
    engine.add key bitVector floatVector globalIdx) engine

end ShardedVectorEngine

theorem map_zipIdx_fst {α β : Type} (image : α → β) (items : List α) :
    (items.zipIdx.map fun entry => image entry.1) = items.map image := by
  have firsts := congrArg (List.map image) (List.zipIdx_map_fst 0 items)
  rwa [List.map_map] at firsts

variable {F : Type} [FloatArith F] (std : StdChoices)

def signs (dim : Nat) (floats : List F) : List Word :=
  Bits.packWords (fun i => FloatArith.isNonneg (floats.getD i FloatArith.zero)) dim (dim / 64)

def distance (dim : Nat) (floats other : List F) : Nat :=
  (List.range dim).countP fun i =>
    FloatArith.isNonneg (floats.getD i FloatArith.zero) ^^
      FloatArith.isNonneg (other.getD i FloatArith.zero)

theorem length_signs (dim : Nat) (floats : List F) : (signs dim floats).length = dim / 64 := by
  rw [signs, Bits.packWords, Bits.length_packCells]

theorem hamming_signs (dim : Nat) (aligned : dim % 64 = 0) (floats other : List F) :
    hamming (signs dim floats) (signs dim other) = distance dim floats other := by
  have blocks : dim / 64 * 64 = dim := by omega
  have bit (floats : List F) (c : Nat) (inside : c < dim) :
      SharedVectorStore.bitAt (signs dim floats) c =
        FloatArith.isNonneg (floats.getD c FloatArith.zero) := by
    have word : c / 64 * 64 + c % 64 = c := by omega
    rw [SharedVectorStore.bitAt, signs,
      Bits.getLsbD_packWords _ _ _ _ _ (Nat.mod_lt _ (by decide)) (by omega), word,
      decide_eq_true inside, Bool.true_and]
  rw [SharedVectorStore.hamming_eq _ _ (by simp [length_signs]), length_signs, blocks, distance]
  apply List.countP_congr
  intro c member
  rw [bit floats c (List.mem_range.mp member), bit other c (List.mem_range.mp member)]

structure Holds (dim : Nat) (hand : List (AirKey × List F)) (shard : CoreShard F) : Prop where
  keys_eq : shard.keys = hand.map Prod.fst
  data_eq : shard.data = hand.flatMap fun vector => signs dim vector.2
  floats_eq : shard.floatData = hand.flatMap Prod.snd

theorem Holds.row {dim : Nat} {hand : List (AirKey × List F)} {shard : CoreShard F}
    (holds : Holds dim hand shard) (i : Nat) (vector : AirKey × List F)
    (found : hand[i]? = some vector) :
    sliceAt shard.data (i * (dim / 64)) (dim / 64) = some (signs dim vector.2) := by
  have record := Records.recordAt_flatMap (fun vector : AirKey × List F => signs dim vector.2)
    (fun vector => length_signs dim vector.2) hand i vector found
  have length := Records.length_flatMap (fun vector : AirKey × List F => signs dim vector.2)
    (fun vector => length_signs dim vector.2) hand
  have inside : (i + 1) * (dim / 64) ≤ hand.length * (dim / 64) :=
    Nat.mul_le_mul_right _ (List.getElem?_eq_some_iff.mp found).1
  rw [Nat.add_mul, Nat.one_mul, ← length, ← holds.data_eq] at inside
  rw [sliceAt, if_pos inside, holds.data_eq, ← record, Records.recordAt]

section Search

variable (dim : Nat) (query : List F) (k : Nat)

-- The distance as a `u32` sum has it.
def near (vector : AirKey × List F) : Nat := distance dim vector.2 query % 2 ^ 32

def candidates (hand : List (AirKey × List F)) : List Candidate :=
  hand.zipIdx.map fun (vector, i) => (near dim query vector, i)

variable {dim query k}

theorem CoreShard.search_smallest (aligned : dim % 64 = 0) {hand : List (AirKey × List F)}
    {shard : CoreShard F} (holds : Holds dim hand shard) (room : Reserves 16 k) :
    ∃ results, shard.search std (signs dim query) (dim / 64) k =
        some (results.map fun (dist, idx) => (idx, dist)) ∧
      Smallest Prod.fst k (candidates dim query hand) results := by
  let heap := std.heap Candidate.order
  have count : shard.keys.length = hand.length := by rw [holds.keys_eq, List.length_map]
  have range : List.range shard.keys.length = hand.zipIdx.map Prod.snd := by
    rw [count, List.zipIdx_map_snd, List.range_eq_range']
  have steps : (List.range shard.keys.length).foldlM (fun kept i => do
      let candidate ← sliceAt shard.data (i * (dim / 64)) (dim / 64)
      let dist ← xorCount (dim / 64) candidate (signs dim query)
      return heap.pushPop k kept (dist, i)) heap.empty =
      some (heap.pushPops k heap.empty (candidates dim query hand)) := by
    rw [range, List.foldlM_map, BinaryHeap.pushPops, candidates, List.foldl_map]
    apply foldlM_total
    rintro ⟨vector, i⟩ member kept
    have found := List.mem_zipIdx_iff_getElem?.mp member
    have row := holds.row i vector found
    have dist := xorCount_eq (dim / 64) (signs dim vector.2) (signs dim query) (length_signs dim _)
      (length_signs dim _)
    rw [hamming_signs dim aligned] at dist
    simp [row, dist, near]
  refine ⟨(std.sort fun result : Candidate => result.1).sort
    (heap.intoIter (heap.pushPops k heap.empty (candidates dim query hand))), ?_, ?_⟩
  · rw [CoreShard.search, heap.withCapacity_room room]
    exact congrArg (Option.bind · _) steps
  · exact (heap.pushPops_empty Prod.fst SharedVectorStore.order_mono k _).kept_perm
      ((std.sort fun result : Candidate => result.1).perm _)

def entryAt (engine : ShardedVectorEngine F) (place : Located) : AirKey × Nat :=
  ((engine.keyAt place.2.1 place.2.2).getD ⟨""⟩, place.1)

def places (dim : Nat) (query : List F) (hands : List (List (AirKey × List F))) : List Located :=
  SharedVectorStore.locate (hands.map (candidates dim query))

theorem mem_places (dim : Nat) (query : List F) (hands : List (List (AirKey × List F)))
    (place : Located) (member : place ∈ places dim query hands) :
    ∃ hand vector, hands[place.2.1]? = some hand ∧ hand[place.2.2]? = some vector ∧
      place.1 = near dim query vector := by
  obtain ⟨part, present, inside⟩ := List.mem_flatten.mp member
  obtain ⟨⟨candidates, s⟩, located, rfl⟩ := List.mem_map.mp present
  obtain ⟨⟨dist, i⟩, candidate, rfl⟩ := List.mem_map.mp inside
  obtain ⟨hand, held, rfl⟩ :=
    Option.map_eq_some_iff.mp
      ((List.getElem?_map ..).symm.trans (List.mem_zipIdx_iff_getElem?.mp located))
  obtain ⟨⟨vector, _⟩, found, same⟩ := List.mem_map.mp candidate
  obtain ⟨rfl, rfl⟩ := Prod.mk.inj same
  exact ⟨hand, vector, held, List.mem_zipIdx_iff_getElem?.mp found, rfl⟩

section Loaded

variable {engine : ShardedVectorEngine F} {hands : List (List (AirKey × List F))}
  (held : List.Forall₂ (Holds dim) hands engine.shards)

include held

theorem keyAt_held (s i : Nat) (hand : List (AirKey × List F)) (vector : AirKey × List F)
    (dealt : hands[s]? = some hand) (found : hand[i]? = some vector) :
    engine.keyAt s i = some vector.1 := by
  obtain ⟨shard, present, holds⟩ := related_getElem? held.flip s hand dealt
  simp [ShardedVectorEngine.keyAt, present, holds.keys_eq, found]

theorem map_places : (places dim query hands).map (entryAt engine) =
    hands.flatten.map fun vector => (vector.1, near dim query vector) := by
  let measured (vector : AirKey × List F) : AirKey × Nat := (vector.1, near dim query vector)
  have each : ∀ entry ∈ hands.zipIdx,
      (candidates dim query entry.1).map (fun c => entryAt engine (c.1, entry.2, c.2)) =
        entry.1.map measured := by
    rintro ⟨hand, s⟩ member
    have dealt := List.mem_zipIdx_iff_getElem?.mp member
    have keys : ∀ place ∈ hand.zipIdx,
        entryAt engine (near dim query place.1, s, place.2) =
          (place.1.1, near dim query place.1) := by
      rintro ⟨vector, i⟩ inside
      have found := List.mem_zipIdx_iff_getElem?.mp inside
      rw [entryAt, keyAt_held held s i hand vector dealt found]
      rfl
    rw [candidates, List.map_map]
    exact (List.map_congr_left keys).trans (map_zipIdx_fst measured hand)
  calc (places dim query hands).map (entryAt engine)
      = (hands.zipIdx.map fun entry => (candidates dim query entry.1).map fun c =>
          entryAt engine (c.1, entry.2, c.2)).flatten := by
        simp [places, SharedVectorStore.locate, List.map_flatten, List.zipIdx_map,
          Function.comp_def]
    _ = (hands.zipIdx.map fun entry => entry.1.map measured).flatten := by
        rw [List.map_congr_left each]
    _ = (hands.map fun hand => hand.map measured).flatten :=
        congrArg List.flatten (map_zipIdx_fst (List.map measured) hands)
    _ = hands.flatten.map measured := List.map_flatten.symm

omit held [FloatArith F] in
theorem locate_turned (chosen : List (List Candidate)) :
    ((chosen.map fun results => results.map fun (dist, idx) => (idx, dist)).zipIdx.map
      fun (shardRes, shardIdx) => shardRes.map fun (localIdx, dist) =>
        ((dist, shardIdx, localIdx) : Located)).flatten = SharedVectorStore.locate chosen := by
  simp [SharedVectorStore.locate, List.zipIdx_map, Function.comp_def]

variable (query k) in
theorem search_held (aligned : dim % 64 = 0) (blocks : engine.numBlocks = dim / 64)
    (room : Reserves 24 k) :
    ∃ results, engine.searchShardedParallel std (signs dim query) k = some results ∧
      Smallest Prod.snd k (hands.flatten.map fun vector => (vector.1, near dim query vector))
        results ∧
      results.Pairwise fun first second => first.2 ≤ second.2 := by
  let byDistance (place : Located) : Nat := place.1
  obtain ⟨chosen, searched, each⟩ := mapM_along
    (fun shard : CoreShard F => shard.search std (signs dim query) engine.numBlocks k)
    (fun results : List Candidate => results.map fun (dist, idx) => (idx, dist))
    (fun hand results => Smallest Prod.fst k (candidates dim query hand) results)
    held (by
      intro hand shard holds
      rw [blocks]
      exact CoreShard.search_smallest std aligned holds room.smaller)
  let final := (std.sort byDistance).sort (SharedVectorStore.mergeShards std k chosen)
  have small : Smallest byDistance k (places dim query hands) final :=
    (SharedVectorStore.mergeShards_parts std k _ chosen
      (List.forall₂_map_left_iff.mpr each)).kept_perm ((std.sort byDistance).perm _)
  have keys : ∀ place ∈ final, (do
      let key ← engine.keyAt place.2.1 place.2.2
      return (key, place.1)) = some (entryAt engine place) := by
    intro place member
    obtain ⟨hand, vector, dealt, found, _⟩ :=
      mem_places dim query hands place (small.subset place member)
    rw [entryAt, keyAt_held held _ _ hand vector dealt found]
    rfl
  refine ⟨final.map (entryAt engine), ?_, ?_, ?_⟩
  · rw [← mapM_total _ _ final keys, ShardedVectorEngine.searchShardedParallel, searched,
      Option.bind_eq_bind, Option.bind_some]
    dsimp only
    rw [(std.heap Located.order).withCapacity_room room, locate_turned]
    rfl
  · rw [← map_places held]
    exact small.map_of (entryAt engine) Prod.snd fun _ => rfl
  · exact List.pairwise_map.mpr ((std.sort byDistance).sorted _)

end Loaded

end Search

theorem related_modify {α β : Type} {related : α → β → Prop} {items : List α} {values : List β}
    (all : List.Forall₂ related items values) (change : α → α) (update : β → β)
    (each : ∀ item value, related item value → related (change item) (update value)) (s : Nat) :
    List.Forall₂ related (items.modify s change) (values.modify s update) := by
  induction all generalizing s with
  | nil => simp
  | cons head tail ih =>
    cases s with
    | zero => exact .cons (each _ _ head) tail
    | succ s => exact .cons head (ih s)

def handsOf {α : Type} (numShards : Nat) (vectors : List α) : List (List α) :=
  (List.range numShards).map fun s => RoundRobin.dealt numShards id s vectors

theorem handsOf_concat {α : Type} (numShards : Nat) (vectors : List α) (vector : α) :
    handsOf numShards (vectors ++ [vector]) =
      (handsOf numShards vectors).modify (vectors.length % numShards) (· ++ [vector]) := by
  apply List.ext_getElem
  · simp [handsOf]
  · intro s here there
    simp only [handsOf, List.getElem_map, List.getElem_range, List.getElem_modify,
      RoundRobin.dealt_append, id_eq]
    split
    next => rfl
    next => rw [List.append_nil]

theorem handsOf_perm {α : Type} {numShards : Nat} (positive : 0 < numShards) (vectors : List α) :
    (handsOf numShards vectors).flatten.Perm vectors :=
  RoundRobin.dealt_perm positive vectors

structure Dealt (dim numShards : Nat) (engine : ShardedVectorEngine F)
    (vectors : List (AirKey × List F)) : Prop where
  dim_eq : engine.dim = dim
  blocks_eq : engine.numBlocks = dim / 64
  shards_length : engine.shards.length = numShards
  held : List.Forall₂ (Holds dim) (handsOf numShards vectors) engine.shards

theorem dealt_new (dim numShards : Nat) (aligned : dim % 64 = 0) :
    Dealt dim numShards (ShardedVectorEngine.new dim numShards aligned : ShardedVectorEngine F)
      [] := by
  refine ⟨rfl, rfl, by simp [ShardedVectorEngine.new], ?_⟩
  apply List.forall₂_iff_zip.mpr
  constructor
  · simp [ShardedVectorEngine.new, handsOf]
  · intro hand shard member
    obtain ⟨dealt, held⟩ := List.of_mem_zip member
    obtain ⟨s, _, rfl⟩ := List.mem_map.mp dealt
    rw [List.eq_of_mem_replicate held]
    exact ⟨rfl, rfl, rfl⟩

section Loading

variable {dim numShards : Nat} {engine : ShardedVectorEngine F} {vectors : List (AirKey × List F)}
  (dealt : Dealt dim numShards engine vectors)

include dealt

theorem Dealt.quantize (aligned : dim % 64 = 0) (floats : List F) (full : floats.length = dim) :
    engine.quantize floats = some (signs dim floats) := by
  rw [OmegaDrive.ShardedVectorEngine.quantize, dealt.dim_eq, dealt.blocks_eq]
  exact OmegaDrive.ShardedVectorEngine.quantize_turns floats dim (dim / 64) (by omega) (by omega)

theorem Dealt.add (positive : 0 < numShards) (key : AirKey) (floats : List F) :
    ∃ next, engine.add key (signs dim floats) floats vectors.length = some next ∧
      Dealt dim numShards next (vectors ++ [(key, floats)]) := by
  obtain ⟨dims, blocks, shards, held⟩ := dealt
  refine ⟨_, if_neg (by omega), dims, blocks, by simpa using shards, ?_⟩
  rw [handsOf_concat, shards]
  apply related_modify held
  rintro hand shard ⟨keys, data, floatData⟩
  exact ⟨by simp [keys], by simp [data], by simp [floatData]⟩

theorem Dealt.load (aligned : dim % 64 = 0) (positive : 0 < numShards)
    (more : List (AirKey × List F)) (full : ∀ vector ∈ more, vector.2.length = dim) :
    ∃ loaded,
      (more.zipIdx vectors.length).foldlM (fun engine ((key, floatVector), globalIdx) => do
        let bitVector ← engine.quantize floatVector
        engine.add key bitVector floatVector globalIdx) engine = some loaded ∧
      Dealt dim numShards loaded (vectors ++ more) := by
  induction more generalizing engine vectors with
  | nil => exact ⟨engine, rfl, by rwa [List.append_nil]⟩
  | cons vector more ih =>
    obtain ⟨key, floats⟩ := vector
    have bits := dealt.quantize aligned floats (full _ List.mem_cons_self)
    obtain ⟨next, added, nextDealt⟩ := dealt.add positive key floats
    obtain ⟨loaded, rest, whole⟩ := ih nextDealt fun other member =>
      full other (List.mem_cons_of_mem _ member)
    refine ⟨loaded, ?_, by simpa using whole⟩
    rw [List.length_append, List.length_singleton] at rest
    rw [List.zipIdx_cons, List.foldlM_cons]
    simp only [bits, added, Option.bind_eq_bind, Option.bind_some]
    exact rest

variable (k : Nat)

theorem Dealt.search (aligned : dim % 64 = 0) (positive : 0 < numShards) (query : List F)
    (room : Reserves 24 k) :
    ∃ results, engine.searchShardedParallel std (signs dim query) k = some results ∧
      Smallest Prod.snd k (vectors.map fun vector => (vector.1, near dim query vector)) results ∧
      results.Pairwise fun first second => first.2 ≤ second.2 := by
  obtain ⟨results, found, small, sorted⟩ :=
    search_held std query k dealt.held aligned dealt.blocks_eq room
  exact ⟨results, found, small.perm ((handsOf_perm positive vectors).map _).symm, sorted⟩

end Loading

theorem loaded (dim numShards : Nat) (aligned : dim % 64 = 0) (positive : 0 < numShards)
    (vectors : List (AirKey × List F)) (full : ∀ vector ∈ vectors, vector.2.length = dim)
    (query : List F) (queryFull : query.length = dim) :
    ∃ engine : ShardedVectorEngine F,
      (ShardedVectorEngine.new dim numShards aligned).load vectors = some engine ∧
      engine.quantize query = some (signs dim query) ∧ Dealt dim numShards engine vectors := by
  obtain ⟨engine, filled, dealt⟩ :=
    (dealt_new dim numShards aligned).load aligned positive vectors full
  exact ⟨engine, filled, dealt.quantize aligned query queryFull, dealt⟩

theorem sharded_nearest (dim numShards k : Nat) (aligned : dim % 64 = 0) (positive : 0 < numShards)
    (room : Reserves 24 k)
    (vectors : List (AirKey × List F)) (full : ∀ vector ∈ vectors, vector.2.length = dim)
    (query : List F) (queryFull : query.length = dim) :
    ∃ engine queryBin results,
      (ShardedVectorEngine.new dim numShards aligned).load vectors = some engine ∧
      engine.quantize query = some queryBin ∧
      engine.searchShardedParallel std queryBin k = some results ∧
      Smallest Prod.snd k
        (vectors.map fun vector => (vector.1, distance dim vector.2 query % 2 ^ 32)) results ∧
      results.Pairwise fun first second => first.2 ≤ second.2 := by
  obtain ⟨engine, filled, bits, dealt⟩ :=
    loaded dim numShards aligned positive vectors full query queryFull
  obtain ⟨results, found, small, sorted⟩ := dealt.search std k aligned positive query room
  exact ⟨engine, signs dim query, results, filled, bits, found, small, sorted⟩

-- Five vectors in two shards.
def five : List (AirKey × List Int) :=
  [2, -1, 0, -3, 5].map fun x => (⟨toString x⟩, List.replicate 64 x)

def ones : List Int := List.replicate 64 1

theorem five_full : ∀ vector ∈ five, vector.2.length = 64 := by
  intro vector member
  obtain ⟨x, _, rfl⟩ := List.mem_map.mp member
  exact List.length_replicate

theorem sharded_nearest_five :
    ∃ engine queryBin results,
      (ShardedVectorEngine.new 64 2 rfl).load five = some engine ∧
      engine.quantize ones = some queryBin ∧
      engine.searchShardedParallel StdChoices.lists queryBin 2 = some results ∧
      Smallest Prod.snd 2 (five.map fun vector =>
        (vector.1, distance 64 vector.2 ones % 2 ^ 32)) results ∧
      results.Pairwise fun first second => first.2 ≤ second.2 :=
  sharded_nearest StdChoices.lists 64 2 2 rfl (by decide) (by decide) five five_full ones
    List.length_replicate

end VectorBench

end OmegaDrive
