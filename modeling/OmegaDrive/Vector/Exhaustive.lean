import OmegaDrive.Vector.Results
import OmegaDrive.Vector.Sharded

set_option autoImplicit false

namespace OmegaDrive

open TopK OptionLoop

namespace SharedVectorStore

variable {F : Type} [FloatArith F]

theorem Placed.measured {numShards dim : Nat} {store : SharedVectorStore F}
    {vectors : List (Added F)} (placed : Placed numShards dim store vectors) (query : List Word)
    (s : Nat) (shard : CoreShard F) (present : store.shards[s]? = some shard) :
    ((List.range shard.keys.length).map fun i => hamming (row store.numBlocks shard i) query) =
      (dealtTo numShards s vectors).map fun vector =>
        hamming (store.quantize vector.quantized) query := by
  have count : shard.keys.length = (dealtTo numShards s vectors).length := by
    rw [placed.keys_eq s shard present, List.length_map]
  apply List.ext_getElem
  · simp [count]
  · intro i here there
    rw [List.length_map] at there
    obtain ⟨_, bits, _⟩ :=
      placed.dealt s shard present i _ (List.getElem?_eq_getElem there)
    simp [bits]

theorem Placed.distances {numShards dim : Nat} (positive : 0 < numShards)
    {store : SharedVectorStore F} {vectors : List (Added F)}
    (placed : Placed numShards dim store vectors) (query : List Word) :
    (store.distances query).Perm
      (vectors.map fun vector => hamming (store.quantize vector.quantized) query) := by
  let measure (vector : Added F) : Nat := hamming (store.quantize vector.quantized) query
  have each : (store.shards.map fun shard =>
      (List.range shard.keys.length).map fun i => hamming (row store.numBlocks shard i) query) =
      (List.range numShards).map fun s => (dealtTo numShards s vectors).map measure := by
    apply List.ext_getElem
    · simp [placed.shards_length]
    · intro s here there
      rw [List.length_map] at here
      simp only [List.getElem_map, List.getElem_range]
      exact placed.measured query s _ (List.getElem?_eq_getElem here)
  have dealt : ((List.range numShards).flatMap fun s => dealtTo numShards s vectors).Perm vectors :=
    RoundRobin.dealt_perm positive vectors
  have measured := dealt.map measure
  rw [List.map_flatMap] at measured
  rw [SharedVectorStore.distances, List.flatMap_def, each]
  exact measured

end SharedVectorStore

namespace VectorBench

variable {F : Type} [FloatArith F] (std : StdChoices)

def uploads (name : AirKey → OmegaDrive.AirKey) (vectors : List (AirKey × List F)) :
    List (StoreOp F) :=
  vectors.map fun vector => .add (name vector.1) vector.2 vector.2

omit [FloatArith F] in
open SharedVectorStore in
theorem added_uploads (name : AirKey → OmegaDrive.AirKey) (vectors : List (AirKey × List F)) :
    added (uploads name vectors) =
      vectors.map fun vector => ⟨name vector.1, vector.2, vector.2⟩ := by
  induction vectors using List.reverseRecOn with
  | nil => rfl
  | append_singleton vectors vector ih =>
    rw [uploads] at ih
    rw [uploads, List.map_append, List.map_singleton, added_concat, ih, List.map_append]
    rfl

theorem near_eq (dim : Nat) (fits : dim < 2 ^ 32) (query : List F) (vector : AirKey × List F) :
    near dim query vector = distance dim vector.2 query := by
  have bound := List.countP_le_length (l := List.range dim) (p := fun i =>
    FloatArith.isNonneg (vector.2.getD i FloatArith.zero) ^^
      FloatArith.isNonneg (query.getD i FloatArith.zero))
  rw [List.length_range] at bound
  exact Nat.mod_eq_of_lt (Nat.lt_of_le_of_lt bound fits)

theorem quantize_signs {dim : Nat} {store : SharedVectorStore F} (aligned : dim % 64 = 0)
    (dims : store.dim = dim) (blocks : store.numBlocks = dim / 64) (floats : List F)
    (full : floats.length = dim) : store.quantize floats = signs dim floats := by
  have packed := SharedVectorStore.quantize_packWords store (by omega) floats (by omega)
  rwa [dims, blocks] at packed

theorem search_behind (dim numShards numCpus k : Nat) (aligned : dim % 64 = 0)
    (fits : dim < 2 ^ 32) (positive : 0 < numShards) (wanted : 0 < k) (room : Reserves 24 k)
    (name : AirKey → OmegaDrive.AirKey) (vectors : List (AirKey × List F))
    (full : ∀ vector ∈ vectors, vector.2.length = dim) (query : List F)
    (queryFull : query.length = dim) :
    let store := (SharedVectorStore.new dim numCpus aligned).run (uploads name vectors)
    let bits := store.quantize query
    ∃ engine results found,
      (ShardedVectorEngine.new dim numShards aligned).load vectors = some engine ∧
      engine.quantize query = some bits ∧
      engine.searchShardedParallel std bits k = some results ∧
      store.search std bits k = some found ∧
      List.Forall₂ (· ≤ ·) (results.map Prod.snd) (found.map Prod.snd) ∧
      (results.map Prod.snd = found.map Prod.snd ↔
        ∀ distance ∈ store.skippedAt std bits k,
          k ≤ within id distance (store.lookedAt std bits k)) := by
  intro store bits
  have placed : SharedVectorStore.Placed (max numCpus 4) dim store (SharedVectorStore.added
      (uploads name vectors)) := SharedVectorStore.placed_run (max numCpus 4) dim _
  have formed : SharedVectorStore.WellFormed store :=
    SharedVectorStore.wellFormed_runEmpty (max numCpus 4) dim aligned _
  have same : bits = signs dim query :=
    quantize_signs aligned placed.dim_eq placed.blocks_eq query queryFull
  have size : store.dim < 2 ^ 32 := by rwa [placed.dim_eq]
  have width : bits.length = store.numBlocks := SharedVectorStore.length_quantize store query
  obtain ⟨engine, filled, quantized, dealt⟩ :=
    loaded dim numShards aligned positive vectors full query queryFull
  obtain ⟨results, answered, nearest, sorted⟩ := dealt.search std k aligned positive query room
  obtain ⟨found, listed, looked⟩ :=
    SharedVectorStore.search_looked std bits k store formed size width wanted room
  obtain ⟨other, again, listing⟩ :=
    SharedVectorStore.search_listing std store formed size bits width k wanted room
  obtain rfl : found = other := Option.some.inj (listed.symm.trans again)
  have parted := SharedVectorStore.lookedAt_skippedAt std bits k store formed
  have measured : (store.distances bits).Perm
      (vectors.map fun vector => near dim query vector) := by
    have all := placed.distances (by omega) bits
    rw [added_uploads, List.map_map] at all
    refine all.trans (List.Perm.of_eq (List.map_congr_left fun vector member => ?_))
    rw [near_eq dim fits, ← hamming_signs dim aligned, same, Function.comp_apply,
      quantize_signs aligned placed.dim_eq placed.blocks_eq vector.2 (full vector member)]
  have whole : Smallest id k (store.distances bits) (results.map Prod.snd) := by
    have values := nearest.map
    rw [List.map_map] at values
    exact values.perm measured
  have lengths : (results.map Prod.snd).length = (found.map Prod.snd).length := by
    have stored := SharedVectorStore.len_run (max numCpus 4) dim (by omega) (uploads name vectors)
    rw [added_uploads, List.length_map] at stored
    rw [List.length_map, List.length_map, nearest.length, listing.size, List.length_map]
    exact congrArg (min k) stored.symm
  have nearestFirst := List.pairwise_map.mpr sorted
  have foundFirst := List.pairwise_map.mpr listing.ordered
  have fewer (bound : Nat) : within id bound (store.lookedAt std bits k) ≤
      within id bound (store.distances bits) := by
    rw [← within_perm id bound parted, within_append]
    exact Nat.le_add_right _ _
  have covered := smallest_with_iff (store.skippedAt std bits k) looked
  refine ⟨engine, results, found, filled, quantized.trans (congrArg some same.symm), ?_, listed,
    whole.ahead looked fewer lengths nearestFirst foundFirst, ?_, fun enough => ?_⟩
  · rw [same]
    exact answered
  · intro equal
    rw [equal] at whole
    exact covered.mp (whole.perm parted)
  · have every := (covered.mpr enough).perm parted.symm
    exact (whole.unique every).eq_of_pairwise' nearestFirst foundFirst

theorem word_aligned : 64 % 64 = 0 := rfl

def fiveStore : SharedVectorStore Int :=
  (SharedVectorStore.new 64 4 word_aligned).run
    (uploads (fun _ => OmegaDrive.AirKey.fromBytes (ascii "v")) five)

theorem search_behind_five :
    ∃ engine results found,
      (ShardedVectorEngine.new 64 2 rfl).load five = some engine ∧
      engine.quantize ones = some (fiveStore.quantize ones) ∧
      engine.searchShardedParallel StdChoices.lists (fiveStore.quantize ones) 2 = some results ∧
      fiveStore.search StdChoices.lists (fiveStore.quantize ones) 2 = some found ∧
      List.Forall₂ (· ≤ ·) (results.map Prod.snd) (found.map Prod.snd) ∧
      (results.map Prod.snd = found.map Prod.snd ↔
        ∀ distance ∈ fiveStore.skippedAt StdChoices.lists (fiveStore.quantize ones) 2,
          2 ≤ within id distance
            (fiveStore.lookedAt StdChoices.lists (fiveStore.quantize ones) 2)) :=
  search_behind StdChoices.lists 64 2 4 2 rfl (by decide) (by decide) (by decide) (by decide)
    (fun _ => OmegaDrive.AirKey.fromBytes (ascii "v")) five five_full ones List.length_replicate

end VectorBench

end OmegaDrive
