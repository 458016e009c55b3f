import OmegaDrive.Vector.Recall

set_option autoImplicit false

namespace OmegaDrive

open TopK OptionLoop

namespace SharedVectorStore

variable (std : StdChoices) (k : Nat)

/-! The two stages of `search`: a bounded heap for each shard, then one that is pushed and popped. -/

def located (shardIdx : Nat) (candidate : Candidate) : Located :=
  (candidate.1, shardIdx, candidate.2)

def mergeShards (shardResults : List (List Candidate)) : List Located :=
  let heap := std.heap Located.order
  heap.intoIter (heap.pushPops k heap.empty (locate shardResults))

theorem search_eq {F : Type} (store : SharedVectorStore F) (query : List Word)
    (room : Reserves 24 k) :
    store.search std query k =
      (store.shards.mapM (scanReserved std store.numBlocks query k)).bind fun shardResults =>
        ((std.sort fun place : Located => place.1).sort (mergeShards std k shardResults)).mapM
          fun place => do
            let key ← store.keyAt place.2.1 place.2.2
            return (key, place.1) := by
  simp only [search, scanShard_room std _ _ room.smaller,
    (std.heap Located.order).withCapacity_room room]
  rfl

theorem mergeShards_smallest (shardResults : List (List Candidate)) :
    Smallest (fun place : Located => place.1) k (locate shardResults)
      (mergeShards std k shardResults) :=
  (std.heap Located.order).pushPops_empty (fun place : Located => place.1) located_mono k _

theorem map_locate (parts : List (List Candidate)) :
    (locate parts).map Prod.fst = parts.flatten.map Prod.fst := by
  have places : (locate parts).map Prod.fst =
      (parts.zipIdx.map ((fun part => part.map Prod.fst) ∘ Prod.fst)).flatten := by
    simp [locate, List.map_flatten, Function.comp_def]
  rw [places, ← List.map_map, List.zipIdx_map_fst, List.map_flatten]

theorem mergeShards_parts (parts shardResults : List (List Candidate))
    (each : List.Forall₂ (Smallest Prod.fst k) parts shardResults) :
    Smallest (fun place : Located => place.1) k (locate parts)
      (mergeShards std k shardResults) := by
  have moved : List.Forall₂ (Smallest (fun place : Located => place.1) k)
      (parts.zipIdx.map fun part => part.1.map (located part.2))
      (shardResults.zipIdx.map fun shardRes => shardRes.1.map (located shardRes.2)) := by
    rw [List.forall₂_map_left_iff, List.forall₂_map_right_iff]
    apply (related_zipIdx each 0).imp
    rintro ⟨part, shardIdx⟩ ⟨shardRes, _⟩ ⟨rfl, small⟩
    exact small.map_of (located shardIdx) _ fun _ => rfl
  exact Smallest.flatten moved (mergeShards_smallest std k shardResults)

theorem merged_smallest (positive : 0 < k) (shards scanned : List (List Candidate))
    (order : List.Forall₂ List.Perm scanned shards) :
    ∃ shardResults, scanned.mapM (scanPairs std k) = some shardResults ∧
      ((mergeShards std k shardResults).map Prod.fst).Perm
        (((shards.flatten.map Prod.fst).insertionSort (· ≤ ·)).take k) := by
  obtain ⟨shardResults, run, each⟩ := mapM_related (scanPairs std k) (Smallest Prod.fst k) scanned
    fun pairs _ => scanPairs_smallest std k positive pairs
  refine ⟨shardResults, run, ?_⟩
  have merged := (mergeShards_parts std k scanned shardResults each).map
  have union := (List.Perm.flatten_congr order).map Prod.fst
  rw [map_locate] at merged
  exact (merged.perm union.symm).sorted

-- The distance at the cut-off occurs in both shards, and is kept once.
theorem merged_smallest_two :
    ∃ shardResults, [[(1, 1), (2, 0)], [(1, 0)]].mapM (scanPairs StdChoices.lists 1) =
        some shardResults ∧
      ((mergeShards StdChoices.lists 1 shardResults).map Prod.fst).Perm
        ((([[(2, 0), (1, 1)], [(1, 0)]].flatten.map Prod.fst).insertionSort (· ≤ ·)).take 1) :=
  merged_smallest StdChoices.lists 1 (by decide) [[(2, 0), (1, 1)], [(1, 0)]]
    [[(1, 1), (2, 0)], [(1, 0)]]
    (.cons (List.Perm.swap _ _ _) (.cons (List.Perm.refl _) .nil))

end SharedVectorStore

end OmegaDrive
