import OmegaDrive.Vector.Pruning
import OmegaDrive.Vector.Rerank

set_option autoImplicit false

namespace OmegaDrive

open TopK OptionLoop

namespace SharedVectorStore

variable {F : Type} (std : StdChoices)

theorem pruned_zero (minDist : Nat) :
    pruned std 0 (std.heap Candidate.order).empty minDist = none := by
  have nothing := (std.heap Candidate.order).peek_none _ (std.heap Candidate.order).intoIter_empty
  rw [pruned, if_pos (Nat.zero_le _), nothing]
  rfl

variable {dim numBlocks : Nat} {query : List Word} {shard : CoreShard F}

variable (query) in
theorem ordered_nonempty (laid : Laid dim numBlocks shard) (stored : shard.keys ≠ []) :
    ordered std query shard ≠ [] := by
  intro nothing
  have perm := itemsOf_perm std query laid (fun i => (0, i))
  rw [nothing, List.flatMap_nil] at perm
  have empty : (List.range shard.keys.length).map (fun i => ((0, i) : Candidate)) = [] :=
    perm.nil_eq.symm
  simp [stored] at empty

theorem scanReserved_zero (laid : Laid dim numBlocks shard) (width : query.length = numBlocks)
    (stored : shard.keys ≠ []) : scanReserved std numBlocks query 0 shard = none := by
  have some_blocks := ordered_nonempty std query laid stored
  rw [ordered] at some_blocks
  rw [scanReserved, scanFrom, blockEvals_eq laid width]
  simp only [Option.bind_eq_bind, Option.bind_some]
  obtain ⟨⟨minDist, bIdx⟩, rest, order⟩ := List.exists_cons_of_ne_nil some_blocks
  rw [order, scanBlocks, pruned_zero]
  rfl

theorem scanReserved_empty (laid : Laid dim numBlocks shard) (k : Nat) (nothing : shard.keys = []) :
    scanReserved std numBlocks query k shard = some [] := by
  have blocks : shard.blocks = [] := by simp [laid.blocks_eq, blocksOf, nothing]
  have order : (std.sort fun eval : Nat × Nat => eval.1).sort [] = [] :=
    ((std.sort fun eval : Nat × Nat => eval.1).perm []).eq_nil
  simp [scanReserved, scanFrom, blockEvals, blocks, order, scanBlocks,
    (std.heap Candidate.order).intoIter_empty]

theorem divide_nonempty (k : Nat) (positive : 0 < k) (items : Nat → List Candidate)
    (blocks : List (Nat × Nat)) (some_items : blocks.flatMap (fun block => items block.2) ≠ []) :
    (divide k items [] blocks).1 ≠ [] := by
  induction blocks with
  | nil => exact absurd rfl some_items
  | cons block blocks ih =>
    obtain ⟨score, bIdx⟩ := block
    rw [divide, if_neg (by simp [within]; omega)]
    by_cases here : items bIdx = []
    · rw [List.flatMap_cons, here, List.nil_append] at some_items
      rw [here]
      exact ih some_items
    · simp [here]

theorem scanReserved_nonempty (store : SharedVectorStore F) (formed : WellFormed store)
    (width : query.length = store.numBlocks) (k : Nat) (positive : 0 < k)
    (member : shard ∈ store.shards) (stored : shard.keys ≠ []) :
    ∃ candidates, scanReserved std store.numBlocks query k shard = some candidates ∧
      candidates ≠ [] := by
  obtain ⟨candidates, scanned, small⟩ :=
    scanReserved_measured std query k store formed width positive shard member
  obtain ⟨_, _, size, _⟩ := small
  have perm := itemsOf_perm std query (formed.shards shard member)
    (measuredAt store.numBlocks query shard)
  have looked := divide_nonempty k positive (itemsOf shard (measuredAt store.numBlocks query shard))
    (ordered std query shard) (by
      intro nothing
      rw [nothing] at perm
      have empty := perm.nil_eq
      simp [stored] at empty)
  refine ⟨candidates, scanned, List.length_pos_iff.mp ?_⟩
  have some_looked := List.length_pos_iff.mpr looked
  omega

theorem rerankReserved_zero [FloatArith F] (queryFloat : List F) (candidates : List Candidate)
    (some_candidates : candidates ≠ []) :
    rerankReserved std dim queryFloat 0 shard candidates = none := by
  obtain ⟨candidate, rest, rfl⟩ := List.exists_cons_of_ne_nil some_candidates
  have nothing := (std.heap RerankCandidate.order).peek_none _
    (std.heap RerankCandidate.order).intoIter_empty
  have offer (item : RerankCandidate) : (std.heap RerankCandidate.order).offer
      RerankCandidate.order 0 (std.heap RerankCandidate.order).empty item = none := by
    rw [BinaryHeap.offer, if_neg (Nat.not_lt_zero _), nothing]
  simp only [rerankReserved, rerankFrom, List.foldlM_cons, offer]
  cases sliceAt shard.floatData (candidate.2 * dim) dim <;> rfl

section Store

variable (store : SharedVectorStore F) (formed : WellFormed store) (k : Nat)

theorem exists_stored (stored : store.len ≠ 0) : ∃ shard ∈ store.shards, shard.keys ≠ [] := by
  obtain ⟨count, member, positive⟩ :=
    List.sum_pos_iff_exists_pos_nat.mp (Nat.pos_of_ne_zero stored)
  obtain ⟨shard, present, rfl⟩ := List.mem_map.mp member
  exact ⟨shard, present, List.length_pos_iff.mp positive⟩

include formed

theorem search_some (width : query.length = store.numBlocks) (positive : 0 < k)
    (room : Reserves 24 k) :
    ∃ results, store.search std query k = some results := by
  obtain ⟨shardResults, scanned, each⟩ := mapM_related _ _ store.shards fun shard member =>
    scanReserved_inside std store formed query width k positive shard member
  have chosen := (mergeShards_smallest std k shardResults).kept_perm
    ((std.sort fun place : Located => place.1).perm (mergeShards std k shardResults))
  obtain ⟨results, found, _⟩ := mapM_related
    (fun place : Located => do
      let key ← store.keyAt place.2.1 place.2.2
      return (key, place.1))
    (fun _ _ => True) _ (by
      intro place member
      obtain ⟨part, present, inPart⟩ := List.mem_flatten.mp (chosen.subset place member)
      obtain ⟨⟨candidates, shardIdx⟩, located, rfl⟩ := List.mem_map.mp present
      obtain ⟨candidate, kept, rfl⟩ := List.mem_map.mp inPart
      obtain ⟨shard, shardFound, inside⟩ := related_getElem? each shardIdx candidates
        (List.mem_zipIdx_iff_getElem?.mp located)
      obtain ⟨key, keyFound⟩ := keyAt_inside store shardIdx candidate.2 shard shardFound
        (inside candidate kept)
      exact ⟨(key, candidate.1), by rw [keyFound]; rfl, trivial⟩)
  refine ⟨results, ?_⟩
  rw [search_eq std k store query room, scanned]
  exact found

theorem search_empty (nothing : store.len = 0) (room : Reserves 24 k) :
    store.search std query k = some [] := by
  have scanned : store.shards.mapM (scanReserved std store.numBlocks query k) =
      some (store.shards.map fun _ => []) :=
    mapM_total _ _ _ fun shard member =>
      scanReserved_empty std (formed.shards shard member) k (keys_of_len store nothing shard member)
  have places : locate (store.shards.map fun _ => []) = [] := by
    rw [locate, List.zipIdx_map, List.map_map]
    exact List.flatten_eq_nil_iff.mpr fun part member => by
      obtain ⟨_, _, rfl⟩ := List.mem_map.mp member
      rfl
  have order : (std.sort fun place : Located => place.1).sort [] = [] :=
    ((std.sort fun place : Located => place.1).perm []).eq_nil
  rw [search_eq std k store query room, scanned, Option.bind_some, mergeShards, places]
  simp [BinaryHeap.pushPops, (std.heap Located.order).intoIter_empty, order]

theorem search_panics (width : query.length = store.numBlocks) (stored : store.len ≠ 0) :
    store.search std query 0 = none := by
  obtain ⟨shard, member, some_keys⟩ := exists_stored store stored
  have scanned := mapM_none (scanReserved std store.numBlocks query 0) store.shards shard member
    (scanReserved_zero std (formed.shards shard member) width some_keys)
  rw [search_eq std 0 store query (by decide), scanned]
  rfl

variable [FloatArith F] (queryFloat : List F)

theorem searchReranked_some (width : query.length = store.numBlocks) (positive : 0 < k)
    (room : Reserved store k) :
    ∃ results, store.searchReranked std query queryFloat k = some results := by
  by_cases stored : store.len = 0
  · exact ⟨[], by simp [searchReranked, stored]⟩
  · obtain ⟨shardCandidates, scanned, inside⟩ := mapM_related _ _ store.shards
      fun shard member => scanReserved_inside std store formed query width (rPerShard store k)
        (Nat.lt_of_lt_of_le positive (Nat.le_max_right _ _)) shard member
    obtain ⟨_, _, results, _, _, found, _⟩ := searchReranked_stages std store query queryFloat k
      formed positive stored room shardCandidates scanned inside
    exact ⟨results, found⟩

-- The coarse stage panics when the budget is zero too, and the second stage when it is not.
theorem searchReranked_panics (width : query.length = store.numBlocks) (stored : store.len ≠ 0) :
    store.searchReranked std query queryFloat 0 = none := by
  by_cases room : Reserved store 0
  swap
  · exact searchReranked_refused std store 0 query queryFloat stored room
  obtain ⟨shard, member, some_keys⟩ := exists_stored store stored
  rw [searchReranked_eq std store query queryFloat 0 room, if_neg stored]
  generalize store.rPerShard 0 = budget
  rcases Nat.eq_zero_or_pos budget with rfl | positive
  · have scanned := mapM_none (scanReserved std store.numBlocks query 0) store.shards shard member
      (scanReserved_zero std (formed.shards shard member) width some_keys)
    rw [scanned]
    rfl
  · obtain ⟨shardCandidates, scanned, each⟩ := mapM_related
      (scanReserved std store.numBlocks query budget)
      (fun (shard : CoreShard F) (candidates : List Candidate) =>
        shard.keys ≠ [] → candidates ≠ []) store.shards fun shard member => by
          by_cases nothing : shard.keys = []
          · exact ⟨[], scanReserved_empty std (formed.shards shard member) budget nothing,
              fun some_keys => absurd nothing some_keys⟩
          · obtain ⟨candidates, scanned, found⟩ :=
              scanReserved_nonempty std store formed width budget positive member nothing
            exact ⟨candidates, scanned, fun _ => found⟩
    obtain ⟨candidates, pair, found⟩ := related_zip each shard member
    have reranked := mapM_none
      (fun pair : CoreShard F × List Candidate =>
        rerankReserved std store.dim queryFloat 0 pair.1 pair.2)
      (store.shards.zip shardCandidates) (shard, candidates) pair
      (rerankReserved_zero std queryFloat candidates (found some_keys))
    rw [scanned]
    simp only [Option.bind_eq_bind, Option.bind_some, rerankCandidates]
    rw [reranked]
    rfl

end Store

theorem searches_total [FloatArith F] (dim numCpus : Nat) (aligned : dim % 64 = 0)
    (ops : List (StoreOp F)) (floats : List F) (k : Nat) :
    let store := (new dim numCpus aligned).run ops
    let query := store.quantize floats
    Reserved store k →
      (store.search std query k ≠ none ∧ store.searchReranked std query floats k ≠ none ↔
        0 < k ∨ store.len = 0) := by
  intro store query room
  have formed : WellFormed store := wellFormed_run _ ops (wellFormed_new dim numCpus aligned)
  have width : query.length = store.numBlocks := length_quantize store floats
  constructor
  · rintro ⟨answered, _⟩
    by_contra neither
    obtain ⟨zero, stored⟩ := not_or.mp neither
    obtain rfl : k = 0 := Nat.eq_zero_of_not_pos zero
    exact answered (search_panics std store formed width stored)
  · rintro (positive | nothing)
    · obtain ⟨results, found⟩ := search_some std store formed k width positive room.heaps
      obtain ⟨reranked, answered⟩ :=
        searchReranked_some std store formed k floats width positive room
      exact ⟨by simp [found], by simp [answered]⟩
    · exact ⟨by simp [search_empty std store formed k nothing room.heaps],
        by simp [searchReranked, nothing]⟩

theorem searches_total_crowded :
    (crowdedStore [0]).search StdChoices.lists ((crowdedStore [0]).quantize [-1]) 2 ≠ none ∧
      (crowdedStore [0]).searchReranked StdChoices.lists ((crowdedStore [0]).quantize [-1]) [-1]
        2 ≠ none :=
  (searches_total StdChoices.lists 64 4 rfl (crowdedOps [0]) [-1] 2
    (reserved_of_heaps _ 2 (by rw [← crowdedStore, len_crowded quantize_far]; decide)
      (by decide))).mpr (Or.inl (by decide))

-- Asking for no vector panics both searches of a store that holds one.
theorem searches_panic :
    let store := (new 64 4 rfl : SharedVectorStore Int).run
      [.add (AirKey.fromBytes (ascii "v")) [1] [1]]
    store.len = 1 ∧ store.search StdChoices.lists (store.quantize [1]) 0 = none ∧
      store.searchReranked StdChoices.lists (store.quantize [1]) [1] 0 = none := by
  intro store
  have formed : WellFormed store := wellFormed_run _ _ (wellFormed_new 64 4 rfl)
  have stored : store.len = 1 := by decide
  have width : (store.quantize [1]).length = store.numBlocks := length_quantize store [1]
  exact ⟨stored, search_panics _ store formed width (by omega),
    searchReranked_panics _ store formed [1] width (by omega)⟩

end SharedVectorStore

end OmegaDrive
