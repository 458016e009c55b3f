import OmegaDrive.Vector.Pruning
import OmegaDrive.Vector.Rerank

set_option autoImplicit false

namespace OmegaDrive

open TopK OptionLoop

theorem min_sum_congr {α β : Type} (k : Nat) (count : α → Nat) (other : β → Nat)
    {items : List α} {values : List β}
    (each : List.Forall₂ (fun item value => min k (count item) = min k (other value))
      items values) :
    min k (items.map count).sum = min k (values.map other).sum := by
  induction each with
  | nil => rfl
  | cons head tail ih =>
    simp only [List.map_cons, List.sum_cons]
    omega

theorem map_firsts {α β : Type} (count : α → Nat) (pairs : List (α × β)) :
    (pairs.map fun pair => count pair.1) = (pairs.map Prod.fst).map count := by
  rw [List.map_map]
  rfl

namespace SharedVectorStore

variable {F : Type} (std : StdChoices)

/-- The entries are those of distinct places of the store, each with the key and the measure of its
own place, in the order of the measures. -/
structure Listing {β : Type} (store : SharedVectorStore F) (size : Nat)
    (measure : CoreShard F → Nat → β) (before : β → β → Prop) (results : List (AirKey × β)) :
    Prop where
  size : results.length = size
  ordered : results.Pairwise fun first second => before first.2 second.2
  places : ∃ places : List (Nat × Nat), places.Nodup ∧
    List.Forall₂ (fun place result => ∃ shard, store.shards[place.1]? = some shard ∧
      shard.keys[place.2]? = some result.1 ∧ result.2 = measure shard place.2) places results

theorem divide_places {dim numBlocks : Nat} {shard : CoreShard F} (laid : Laid dim numBlocks shard)
    (query : List Word) (k : Nat) (place : Nat → Candidate) (own : ∀ i, (place i).2 = i) :
    let looked := (divide k (itemsOf shard place) [] (ordered std query shard)).1
    (looked.map Prod.snd).Nodup ∧ min k looked.length = min k shard.keys.length := by
  intro looked
  have all := (divide_perm k (itemsOf shard place) [] (ordered std query shard)).trans
    (itemsOf_perm std query laid place)
  have enough := divide_enough k (itemsOf shard place) [] (ordered std query shard)
  have whole := (itemsOf_perm std query laid place).length_eq
  have total := all.length_eq
  have slots := all.map Prod.snd
  have range : ((List.range shard.keys.length).map place).map Prod.snd =
      List.range shard.keys.length := by
    rw [List.map_map]
    exact (List.map_congr_left fun i _ => own i).trans (List.map_id _)
  rw [range, List.map_append] at slots
  rw [List.length_map, List.length_range] at whole total
  rw [List.length_append] at total
  rw [whole, List.length_nil] at enough
  refine ⟨(List.nodup_append.mp (slots.nodup_iff.mpr List.nodup_range)).1, ?_⟩
  change min k (divide k (itemsOf shard place) [] (ordered std query shard)).1.length = _
  omega

theorem keys_of_keyAt (store : SharedVectorStore F) (shardIdx localIdx : Nat)
    (shard : CoreShard F) (present : store.shards[shardIdx]? = some shard) (key : AirKey)
    (found : store.keyAt shardIdx localIdx = some key) : shard.keys[localIdx]? = some key := by
  simpa [keyAt, present] using found

theorem looked_places (store : SharedVectorStore F) (formed : WellFormed store)
    (query : List Word) (k : Nat) :
    let looked := (lookedParts std query k store.numBlocks store.shards 0).flatten
    (looked.map Prod.snd).Nodup ∧ min k looked.length = min k store.len := by
  intro looked
  have each (shard : CoreShard F) (member : shard ∈ store.shards) :=
    divide_places std (formed.shards shard member) query k
      (candidateAt store.numBlocks query shard) fun _ => rfl
  constructor
  · have places := nodup_slots
      (fun shard : CoreShard F => (divideShard std query k store.numBlocks shard).1) Prod.snd
      store.shards 0 fun shard member => (each shard member).1
    simpa [looked, lookedParts, List.flatMap, List.map_flatten, Function.comp_def, located]
      using places
  · have lengths := congrArg List.length (map_lookedParts std query k store.numBlocks store.shards)
    simp only [List.length_map, List.length_flatMap] at lengths
    rw [lengths]
    exact min_sum_congr k (fun shard => (divideShard std query k store.numBlocks shard).1.length)
      (fun shard : CoreShard F => shard.keys.length)
      (List.forall₂_same.mpr fun shard member => (each shard member).2)

theorem search_listing (store : SharedVectorStore F) (formed : WellFormed store)
    (fits : store.dim < 2 ^ 32) (query : List Word) (width : query.length = store.numBlocks)
    (k : Nat) (positive : 0 < k) (room : Reserves 24 k) :
    ∃ results, store.search std query k = some results ∧
      Listing store (min k store.len) (fun shard i => hamming (row store.numBlocks shard i) query)
        (fun first second => first ≤ second) results := by
  obtain ⟨places, results, found, chosen, sorted, related⟩ :=
    search_places std query k store formed fits width positive room
  obtain ⟨distinct, enough⟩ := looked_places std store formed query k
  refine ⟨results, found, ?_, ?_, places.map Prod.snd, chosen.nodup_map Prod.snd distinct, ?_⟩
  · rw [← related.length_eq, chosen.length, enough]
  · have same := map_of_related (fun place : Located => place.1) Prod.snd places results
      (related.imp fun _ _ both => both.2)
    rw [← List.pairwise_map (f := Prod.snd), same]
    exact List.pairwise_map.mpr sorted
  · rw [List.forall₂_map_left_iff]
    refine (related_inside related).imp fun place result ⟨member, keyFound, measured⟩ => ?_
    obtain ⟨shard, present, _, distance⟩ :=
      mem_lookedParts std query k store formed place (chosen.subset place member)
    exact ⟨shard, present, keys_of_keyAt store _ _ shard present _ keyFound,
      measured.trans distance⟩

section Reranked

variable [FloatArith F]

omit [FloatArith F] in
theorem scan_places (store : SharedVectorStore F) (formed : WellFormed store) (query : List Word)
    (width : query.length = store.numBlocks) (k : Nat) (positive : 0 < k)
    (shard : CoreShard F) (member : shard ∈ store.shards) :
    ∃ candidates, scanReserved std store.numBlocks query k shard = some candidates ∧
      (∀ candidate ∈ candidates, candidate.2 < shard.keys.length) ∧
      (candidates.map Prod.snd).Nodup ∧ candidates.length = min k shard.keys.length := by
  obtain ⟨candidates, scanned, small⟩ :=
    scanReserved_measured std query k store formed width positive shard member
  obtain ⟨other, again, inside⟩ :=
    scanReserved_inside std store formed query width k positive shard member
  obtain rfl : candidates = other := Option.some.inj (scanned.symm.trans again)
  obtain ⟨distinct, enough⟩ := divide_places std (formed.shards shard member) query k
    (measuredAt store.numBlocks query shard) fun _ => rfl
  exact ⟨candidates, scanned, inside, small.nodup_map Prod.snd distinct, small.length.trans enough⟩

section Offered

variable (store : SharedVectorStore F) (queryFloat : List F) (k : Nat)
  (shardCandidates : List (List Candidate)) (shardReranked : List (List RerankCandidate))
  (related : List.Forall₂ (fun (pair : CoreShard F × List Candidate) best =>
      Smallest RerankCandidate.order k
        (pair.2.map fun candidate => scoredAt store.dim queryFloat pair.1 candidate.2) best)
    (store.shards.zip shardCandidates) shardReranked)

include related

theorem offered_distinct
    (distinct : ∀ pair ∈ store.shards.zip shardCandidates, (pair.2.map Prod.snd).Nodup) :
    ((offered F shardReranked).map fun c => (c.shardIdx, c.localIdx)).Nodup := by
  have slots : ∀ best ∈ shardReranked, (best.map RerankCandidate.localIdx).Nodup := by
    intro best member
    obtain ⟨pair, inside, small⟩ := related_mem related best member
    apply small.nodup_map
    rw [List.map_map]
    exact distinct pair inside
  have places := nodup_slots id RerankCandidate.localIdx shardReranked 0 slots
  simpa [offered, List.flatMap, List.map_flatten, Function.comp_def, handedOver] using places

theorem offered_enough {count : Nat} (enough : k ≤ count)
    (paired : store.shards.length = shardCandidates.length)
    (sizes : ∀ pair ∈ store.shards.zip shardCandidates,
      pair.2.length = min count pair.1.keys.length) :
    min k (offered F shardReranked).length = min k store.len := by
  have parts := min_sum_congr k (fun pair : CoreShard F × List Candidate => pair.1.keys.length)
    List.length ((related_inside related).imp fun pair best both => by
      have few := sizes pair both.1
      have kept := both.2.length
      rw [List.length_map] at kept
      omega)
  have total : (offered F shardReranked).length = (shardReranked.map List.length).sum := by
    have firsts := map_firsts List.length shardReranked.zipIdx
    rw [List.zipIdx_map_fst] at firsts
    rw [← firsts]
    simp [offered, List.length_flatten, Function.comp_def]
  have whole : ((store.shards.zip shardCandidates).map fun pair => pair.1.keys.length).sum =
      store.len := by
    rw [map_firsts fun shard : CoreShard F => shard.keys.length,
      List.map_fst_zip (Nat.le_of_eq paired)]
    rfl
  rw [total, ← parts, whole]

end Offered

theorem searchReranked_listing (store : SharedVectorStore F) (formed : WellFormed store)
    (queryBin : List Word) (width : queryBin.length = store.numBlocks) (queryFloat : List F)
    (k : Nat) (positive : 0 < k) (room : Reserved store k) :
    ∃ entries : List (AirKey × Int), store.searchReranked std queryBin queryFloat k =
        some (entries.map fun entry => (entry.1, ofFixed entry.2)) ∧
      Listing store (min k store.len)
        (fun shard i => toFixed (ofFixed (scoreAt store.dim queryFloat shard i) : F))
        (fun first second => second ≤ first) entries := by
  by_cases nothing : store.len = 0
  · refine ⟨[], by simp [searchReranked, nothing], ?_, .nil, [], .nil, .nil⟩
    rw [nothing, Nat.min_zero, List.length_nil]
  · have enough : k ≤ rPerShard store k := Nat.le_max_right _ _
    obtain ⟨shardCandidates, scanned, each⟩ := mapM_related _ _ store.shards
      (scan_places std store formed queryBin width (rPerShard store k) (by omega))
    obtain ⟨shardReranked, places, entries, related, chosen, sorted, found, same⟩ :=
      searchReranked_places std store queryBin queryFloat k formed positive nothing room
        shardCandidates scanned (each.imp fun _ _ all => all.1)
    have pairs : ∀ pair ∈ store.shards.zip shardCandidates,
        (∀ candidate ∈ pair.2, candidate.2 < pair.1.keys.length) ∧
        (pair.2.map Prod.snd).Nodup ∧
        pair.2.length = min (rPerShard store k) pair.1.keys.length :=
      fun _ inside => (List.forall₂_iff_zip.mp each).2 inside
    have distinct := offered_distinct store queryFloat k shardCandidates shardReranked related
      fun pair inside => (pairs pair inside).2.1
    have lengths := offered_enough store queryFloat k shardCandidates shardReranked related enough
      each.length_eq fun pair inside => (pairs pair inside).2.2
    refine ⟨entries, found, ?_, ?_, places.map fun c => (c.shardIdx, c.localIdx),
      chosen.nodup_map _ distinct, ?_⟩
    · rw [← same.length_eq, chosen.length, lengths]
    · have scores := map_of_related RerankCandidate.scoreInt Prod.snd places entries
        (same.imp fun _ _ both => both.2)
      rw [← List.pairwise_map (f := Prod.snd) (R := fun first second : Int => second ≤ first),
        scores]
      refine List.pairwise_map.mpr (sorted.imp fun below => ?_)
      exact Int.neg_le_neg_iff.mp below
    · rw [List.forall₂_map_left_iff]
      apply (related_inside same).imp
      intro c entry all
      obtain ⟨member, keyFound, score⟩ := all
      obtain ⟨shard, present, _, measured⟩ := mem_offered store queryFloat k shardCandidates
        (fun pair inside => (pairs pair inside).1) shardReranked related c (chosen.subset c member)
      exact ⟨shard, present, keys_of_keyAt store _ _ shard present _ keyFound,
        score.trans measured⟩

-- An answer says that the heaps were granted; an empty store is asked for those of `search` alone.
theorem reserved_of_answers (store : SharedVectorStore F) (query : List Word)
    (queryFloat : List F) (k : Nat) (found : store.search std query k ≠ none)
    (answered : store.searchReranked std query queryFloat k ≠ none) : Reserved store k := by
  have room : Reserves 24 k := by
    by_contra beyond
    exact found (search_refused std store k query beyond)
  by_cases nothing : store.len = 0
  · exact reserved_of_heaps store k (by omega) room
  · by_contra beyond
    exact answered (searchReranked_refused std store k query queryFloat nothing beyond)

theorem searches_listing (dim numCpus : Nat) (aligned : dim % 64 = 0) (fits : dim < 2 ^ 32)
    (ops : List (StoreOp F)) (query : List Word) (queryFloat : List F) (k : Nat)
    (positive : 0 < k) :
    let store := (new dim numCpus aligned).run ops
    query.length = store.numBlocks →
      (((∃ results, store.search std query k = some results ∧
          Listing store (min k (added ops).length)
            (fun shard i => hamming (row store.numBlocks shard i) query)
            (fun first second => first ≤ second) results) ∧
        ∃ entries : List (AirKey × Int),
          store.searchReranked std query queryFloat k =
            some (entries.map fun entry => (entry.1, ofFixed entry.2)) ∧
          Listing store (min k (added ops).length)
            (fun shard i => toFixed (ofFixed (scoreAt store.dim queryFloat shard i) : F))
            (fun first second => second ≤ first) entries) ↔
        Reserved store k) := by
  intro store width
  have formed : WellFormed store := wellFormed_run _ ops (wellFormed_new dim numCpus aligned)
  have size : store.dim < 2 ^ 32 := by rwa [show store.dim = dim from dim_run _ ops]
  have stored : store.len = (added ops).length :=
    len_run (max numCpus 4) dim (by omega) ops
  rw [← stored]
  constructor
  · rintro ⟨⟨results, found, _⟩, entries, answered, _⟩
    exact reserved_of_answers std store query queryFloat k (by simp [found]) (by simp [answered])
  · intro room
    exact ⟨search_listing std store formed size query width k positive room.heaps,
      searchReranked_listing std store formed query width queryFloat k positive room⟩

section Spread

/-- Four vectors at different distances from the query, and 509 more like the third of them. -/
def spreadOps : List (StoreOp Int) :=
  [.add (AirKey.fromBytes (ascii "a")) [1, 1] [1, 1], .add (AirKey.fromBytes (ascii "b")) [-1] [-1],
    .add (AirKey.fromBytes (ascii "c")) [1] [1], .add (AirKey.fromBytes (ascii "d")) [1, 1, 1]
      [1, 1, 1]] ++
  List.replicate 509 (.add (AirKey.fromBytes (ascii "far")) [0] [0])

def spreadStore : SharedVectorStore Int := (new 64 4 aligned_word).run spreadOps

theorem added_spread : (added spreadOps).length = 513 := by
  rw [length_added spreadOps, spreadOps, List.length_append, List.length_replicate]
  · rfl
  · intro op member
    rcases List.mem_append.mp member with first | rest
    · rintro rfl
      simp at first
    · rw [List.eq_of_mem_replicate rest]
      simp

theorem skipped_spread :
    skippedAt StdChoices.lists (spreadStore.quantize [-1]) 3 spreadStore ≠ [] := by
  have formed : WellFormed spreadStore := wellFormed_run _ _ (wellFormed_new 64 4 rfl)
  have placed : Placed 4 64 spreadStore (added spreadOps) := placed_run 4 64 spreadOps
  have query : spreadStore.quantize [-1] = [0#64] :=
    (quantize_congr _ _ placed.dim_eq placed.blocks_eq [-1]).trans quantize_near
  have first : 0 < spreadStore.shards.length := by rw [placed.shards_length]; decide
  have found := List.getElem?_eq_getElem first
  have member := List.mem_of_getElem? found
  have laid := formed.shards _ member
  rw [placed.dim_eq, placed.blocks_eq] at laid
  have size := placed.length_keys 0 _ found (by rw [added_spread]; decide)
  rw [added_spread] at size
  rw [query]
  exact skippedAt_two laid (by decide) (by decide) spreadStore placed.blocks_eq member size

theorem searches_listing_spread :
    skippedAt StdChoices.lists (spreadStore.quantize [-1]) 3 spreadStore ≠ [] ∧
    (∃ results, spreadStore.search StdChoices.lists (spreadStore.quantize [-1]) 3 = some results ∧
      Listing spreadStore 3
        (fun shard i => hamming (row spreadStore.numBlocks shard i) (spreadStore.quantize [-1]))
        (fun first second => first ≤ second) results) ∧
    ∃ entries : List (AirKey × Int),
      spreadStore.searchReranked StdChoices.lists (spreadStore.quantize [-1]) [-1] 3 =
        some (entries.map fun entry => (entry.1, ofFixed entry.2)) ∧
      Listing spreadStore 3
        (fun shard i => toFixed (ofFixed (scoreAt spreadStore.dim [-1] shard i) : Int))
        (fun first second => second ≤ first) entries := by
  have count : spreadStore.len = 513 := (len_run 4 64 (by decide) spreadOps).trans added_spread
  have listed := (searches_listing StdChoices.lists 64 4 rfl (by decide) spreadOps
    (spreadStore.quantize [-1]) [-1] 3 (by decide) (length_quantize spreadStore [-1])).mpr
    (reserved_of_heaps _ 3 (by rw [← spreadStore, count]; decide) (by decide))
  rw [added_spread] at listed
  exact ⟨skipped_spread, listed⟩

end Spread

-- Asked for 2^60 of one stored vector, both searches panic.
theorem searches_overflow :
    let store := (new 64 4 rfl : SharedVectorStore Int).run
      [.add (AirKey.fromBytes (ascii "v")) [1] [1]]
    store.len = 1 ∧ store.search StdChoices.lists (store.quantize [1]) (2 ^ 60) = none ∧
      store.searchReranked StdChoices.lists (store.quantize [1]) [1] (2 ^ 60) = none := by
  intro store
  have beyond : ¬ Reserves 24 (2 ^ 60) := by decide
  have stored : store.len = 1 := by decide
  exact ⟨stored, search_refused _ store _ _ beyond,
    searchReranked_refused _ store _ _ _ (by omega) fun reserved => beyond reserved.heaps⟩

end Reranked

end SharedVectorStore

end OmegaDrive
