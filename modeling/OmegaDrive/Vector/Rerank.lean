import Mathlib.Data.List.Nodup
import OmegaDrive.Vector.Placement

set_option autoImplicit false

namespace OmegaDrive

open TopK OptionLoop

theorem nodup_slots {α β : Type} (part : α → List β) (slot : β → Nat) (items : List α)
    (start : Nat) (each : ∀ item ∈ items, ((part item).map slot).Nodup) :
    ((items.zipIdx start).flatMap fun entry =>
      (part entry.1).map fun value => (entry.2, slot value)).Nodup := by
  induction items generalizing start with
  | nil => simp
  | cons item items ih =>
    have rest := ih (start + 1) fun other member => each other (List.mem_cons_of_mem _ member)
    have first := each item List.mem_cons_self
    rw [List.zipIdx_cons, List.flatMap_cons]
    refine List.Nodup.append ?_ rest ?_
    · apply List.Nodup.of_map Prod.snd
      rwa [List.map_map]
    · -- The later items have greater indices.
      intro place here later
      obtain ⟨_, _, rfl⟩ := List.mem_map.mp here
      obtain ⟨entry, found, inside⟩ := List.mem_flatMap.mp later
      obtain ⟨_, _, same⟩ := List.mem_map.mp inside
      have above := List.le_snd_of_mem_zipIdx found
      have equal := congrArg Prod.fst same
      dsimp only at equal
      omega

namespace SharedVectorStore

variable {F : Type} [FloatArith F] (std : StdChoices)

def scoreAt (dim : Nat) (queryFloat : List F) (shard : CoreShard F) (i : Nat) : Int :=
  toFixed (dotProduct queryFloat (floatRow dim shard i))

def scoredAt (dim : Nat) (queryFloat : List F) (shard : CoreShard F) (i : Nat) :
    RerankCandidate :=
  ⟨scoreAt dim queryFloat shard i, 0, i⟩

omit [FloatArith F] in
theorem scanReserved_inside (store : SharedVectorStore F) (formed : WellFormed store)
    (query : List Word) (width : query.length = store.numBlocks) (k : Nat) (positive : 0 < k)
    (shard : CoreShard F) (member : shard ∈ store.shards) :
    ∃ candidates, scanReserved std store.numBlocks query k shard = some candidates ∧
      ∀ candidate ∈ candidates, candidate.2 < shard.keys.length := by
  obtain ⟨candidates, scanned, small⟩ :=
    scanReserved_measured std query k store formed width positive shard member
  refine ⟨candidates, scanned, fun candidate inside => ?_⟩
  have looked := small.subset candidate inside
  have whole := (divide_perm k (itemsOf shard (measuredAt store.numBlocks query shard)) []
    (ordered std query shard)).mem_iff.mp (List.mem_append_left _ looked)
  obtain ⟨i, below, rfl⟩ :=
    List.mem_map.mp ((itemsOf_perm _ _ (formed.shards shard member) _).mem_iff.mp whole)
  exact List.mem_range.mp below

omit [FloatArith F] in
theorem sliceAt_floatRow {dim numBlocks : Nat} {shard : CoreShard F}
    (laid : Laid dim numBlocks shard) (i : Nat) (inside : i < shard.keys.length) :
    sliceAt shard.floatData (i * dim) dim = some (floatRow dim shard i) := by
  have rows : (i + 1) * dim ≤ shard.keys.length * dim := Nat.mul_le_mul_right _ inside
  rw [Nat.add_mul, Nat.one_mul, ← laid.float_length] at rows
  rw [sliceAt, if_pos rows, floatRow]

theorem rerankReserved_offers {dim numBlocks : Nat} {shard : CoreShard F}
    (laid : Laid dim numBlocks shard) (queryFloat : List F) (k : Nat) (candidates : List Candidate)
    (inside : ∀ candidate ∈ candidates, candidate.2 < shard.keys.length) :
    let heap := std.heap RerankCandidate.order
    rerankReserved std dim queryFloat k shard candidates =
      (heap.offers RerankCandidate.order k heap.empty
        (candidates.map fun candidate => scoredAt dim queryFloat shard candidate.2)).map fun best =>
          (heap.intoIter best).map fun c => (c.localIdx, ofFixed c.scoreInt) := by
  intro heap
  have steps := foldlM_congr
    (fun best (candidate : Candidate) => do
      let floats ← sliceAt shard.floatData (candidate.2 * dim) dim
      heap.offer RerankCandidate.order k best
        ⟨toFixed (dotProduct queryFloat floats), 0, candidate.2⟩)
    (fun best candidate =>
      heap.offer RerankCandidate.order k best (scoredAt dim queryFloat shard candidate.2))
    candidates (by
      intro candidate member best
      rw [sliceAt_floatRow laid candidate.2 (inside candidate member)]
      rfl) heap.empty
  rw [BinaryHeap.offers, List.foldlM_map, ← steps]
  simp only [rerankReserved, rerankFrom, Option.map_eq_bind]
  rfl

theorem rerankReserved_by {D : Type} [LinearOrder D] {dim numBlocks : Nat} {shard : CoreShard F}
    (laid : Laid dim numBlocks shard) (queryFloat : List F) (k : Nat) (candidates : List Candidate)
    (inside : ∀ candidate ∈ candidates, candidate.2 < shard.keys.length)
    (measure : RerankCandidate → D)
    (taken : let heap := std.heap RerankCandidate.order
      let items := candidates.map fun candidate => scoredAt dim queryFloat shard candidate.2
      ∃ final, heap.offers RerankCandidate.order k heap.empty items = some final ∧
        Smallest measure k items (heap.intoIter final)) :
    ∃ best : List RerankCandidate, rerankReserved std dim queryFloat k shard candidates =
        some (best.map fun c => (c.localIdx, ofFixed c.scoreInt)) ∧
      Smallest measure k
        (candidates.map fun candidate => scoredAt dim queryFloat shard candidate.2) best := by
  obtain ⟨final, offered, small⟩ := taken
  refine ⟨(std.heap RerankCandidate.order).intoIter final, ?_, small⟩
  rw [rerankReserved_offers std laid queryFloat k candidates inside, offered]
  rfl

theorem offers_score (k : Nat) (positive : 0 < k) (items : List RerankCandidate) :
    let heap := std.heap RerankCandidate.order
    ∃ final, heap.offers RerankCandidate.order k heap.empty items = some final ∧
      Smallest RerankCandidate.order k items (heap.intoIter final) :=
  (std.heap RerankCandidate.order).offers_empty RerankCandidate.order (fun _ _ below => below) k
    positive items

theorem rerankReserved_smallest {dim numBlocks : Nat} {shard : CoreShard F}
    (laid : Laid dim numBlocks shard) (queryFloat : List F) (k : Nat) (positive : 0 < k)
    (candidates : List Candidate)
    (inside : ∀ candidate ∈ candidates, candidate.2 < shard.keys.length) :
    ∃ best : List RerankCandidate, rerankReserved std dim queryFloat k shard candidates =
        some (best.map fun c => (c.localIdx, ofFixed c.scoreInt)) ∧
      Smallest RerankCandidate.order k
        (candidates.map fun candidate => scoredAt dim queryFloat shard candidate.2) best :=
  rerankReserved_by std laid queryFloat k candidates inside RerankCandidate.order
    (offers_score std k positive _)

def mergeReranked (k : Nat) (shardReranked : List (List (Nat × F))) : List RerankCandidate :=
  let heap := std.heap RerankCandidate.order
  let final := heap.pushPops k heap.empty
    (shardReranked.zipIdx.map fun (shardRes, shardIdx) =>
      shardRes.map fun (localIdx, score) =>
        (⟨toFixed score, shardIdx, localIdx⟩ : RerankCandidate)).flatten
  (std.sort RerankCandidate.order).sort (heap.intoIter final)

theorem mergeReranked_smallest (k : Nat) (shardReranked : List (List (Nat × F))) :
    Smallest RerankCandidate.order k
      (shardReranked.zipIdx.map fun (shardRes, shardIdx) =>
        shardRes.map fun (localIdx, score) =>
          (⟨toFixed score, shardIdx, localIdx⟩ : RerankCandidate)).flatten
      (mergeReranked std k shardReranked) := by
  have merged := (std.heap RerankCandidate.order).pushPops_empty RerankCandidate.order
    (fun _ _ below => below) k
    (shardReranked.zipIdx.map fun (shardRes, shardIdx) =>
      shardRes.map fun (localIdx, score) =>
        (⟨toFixed score, shardIdx, localIdx⟩ : RerankCandidate)).flatten
  exact merged.kept_perm ((std.sort RerankCandidate.order).perm _)

theorem mergeReranked_sorted (k : Nat) (shardReranked : List (List (Nat × F))) :
    (mergeReranked std k shardReranked).Pairwise
      fun first second => first.order ≤ second.order :=
  (std.sort RerankCandidate.order).sorted _

/-- What `search_reranked` makes of the candidates of the coarse stage, the keys apart. -/
def rerankCandidates (store : SharedVectorStore F) (queryFloat : List F) (k : Nat)
    (shardCandidates : List (List Candidate)) : Option (List RerankCandidate) := do
  let shardReranked ← (store.shards.zip shardCandidates).mapM fun (shard, candidates) =>
    rerankReserved std store.dim queryFloat k shard candidates
  return mergeReranked std k shardReranked

-- The candidates as the last stage receives them: the score has been an `f32` in between.
def handedOver (F : Type) [FloatArith F] (shardIdx : Nat) (c : RerankCandidate) :
    RerankCandidate :=
  ⟨toFixed (ofFixed c.scoreInt : F), shardIdx, c.localIdx⟩

def offered (F : Type) [FloatArith F] (shardReranked : List (List RerankCandidate)) :
    List RerankCandidate :=
  (shardReranked.zipIdx.map fun (best, shardIdx) => best.map (handedOver F shardIdx)).flatten

theorem offered_scored (shardReranked : List (List RerankCandidate)) :
    ((shardReranked.map fun best => best.map fun c =>
        (c.localIdx, (ofFixed c.scoreInt : F))).zipIdx.map fun part => part.1.map fun scored =>
      (⟨toFixed scored.2, part.2, scored.1⟩ : RerankCandidate)).flatten =
    offered F shardReranked := by
  rw [offered, List.zipIdx_map, List.map_map]
  refine congrArg List.flatten (List.map_congr_left fun part _ => ?_)
  simp [handedOver, Function.comp_def]

omit [FloatArith F] in
theorem keyAt_inside (store : SharedVectorStore F) (shardIdx localIdx : Nat) (shard : CoreShard F)
    (found : store.shards[shardIdx]? = some shard) (inside : localIdx < shard.keys.length) :
    ∃ key, store.keyAt shardIdx localIdx = some key :=
  ⟨shard.keys[localIdx], by simp [keyAt, found, inside]⟩

omit [FloatArith F] in
theorem keys_of_len (store : SharedVectorStore F) (nothing : store.len = 0) (shard : CoreShard F)
    (member : shard ∈ store.shards) : shard.keys = [] := by
  have zero := List.sum_eq_zero_iff_forall_eq_nat.mp nothing _ (List.mem_map_of_mem member)
  exact List.eq_nil_of_length_eq_zero zero

section Stages

variable (store : SharedVectorStore F) (queryBin : List Word) (queryFloat : List F) (k : Nat)

section Offered

variable (shardCandidates : List (List Candidate))
  (inside : ∀ pair ∈ store.shards.zip shardCandidates,
    ∀ candidate ∈ pair.2, candidate.2 < pair.1.keys.length)
  (shardReranked : List (List RerankCandidate))
  (related : List.Forall₂ (fun (pair : CoreShard F × List Candidate) best =>
      Smallest RerankCandidate.order k
        (pair.2.map fun candidate => scoredAt store.dim queryFloat pair.1 candidate.2) best)
    (store.shards.zip shardCandidates) shardReranked)

include inside related

theorem mem_offered (c : RerankCandidate) (member : c ∈ offered F shardReranked) :
    ∃ shard, store.shards[c.shardIdx]? = some shard ∧ c.localIdx < shard.keys.length ∧
      c.scoreInt = toFixed (ofFixed (scoreAt store.dim queryFloat shard c.localIdx) : F) := by
  obtain ⟨part, present, inPart⟩ := List.mem_flatten.mp member
  obtain ⟨⟨best, shardIdx⟩, located, rfl⟩ := List.mem_map.mp present
  obtain ⟨kept, keptIn, rfl⟩ := List.mem_map.mp inPart
  obtain ⟨pair, pairFound, small⟩ := related_getElem? related shardIdx best
    (List.mem_zipIdx_iff_getElem?.mp located)
  obtain ⟨candidate, wasCandidate, rfl⟩ := List.mem_map.mp (small.subset kept keptIn)
  exact ⟨pair.1, (List.getElem?_zip_eq_some.mp pairFound).1,
    inside pair (List.mem_of_getElem? pairFound) candidate wasCandidate, rfl⟩

theorem keyAt_offered (c : RerankCandidate) (member : c ∈ offered F shardReranked) :
    ∃ key, store.keyAt c.shardIdx c.localIdx = some key := by
  obtain ⟨shard, found, bound, _⟩ :=
    mem_offered store queryFloat k shardCandidates inside shardReranked related c member
  exact keyAt_inside store c.shardIdx c.localIdx shard found bound

end Offered

theorem searchReranked_eq (room : Reserved store k) :
    store.searchReranked std queryBin queryFloat k =
    (if store.len = 0 then some []
    else do
      let shardCandidates ←
        store.shards.mapM (scanReserved std store.numBlocks queryBin (rPerShard store k))
      let finalResults ← rerankCandidates std store queryFloat k shardCandidates
      finalResults.mapM fun c => do
        let key ← store.keyAt c.shardIdx c.localIdx
        return (key, ofFixed c.scoreInt)) := by
  simp only [searchReranked, scanShard_room std _ _ room.coarse,
    rerankShard_room std _ _ room.heaps, (std.heap RerankCandidate.order).withCapacity_room room.heaps]
  simp [rerankCandidates, mergeReranked, Option.bind_assoc]

theorem rerankCandidates_stages {D : Type} [LinearOrder D] (formed : WellFormed store)
    (shardCandidates : List (List Candidate))
    (inside : ∀ pair ∈ store.shards.zip shardCandidates,
      ∀ candidate ∈ pair.2, candidate.2 < pair.1.keys.length)
    (measure : RerankCandidate → D)
    (taken : ∀ pair ∈ store.shards.zip shardCandidates,
      let heap := std.heap RerankCandidate.order
      let items := pair.2.map fun candidate => scoredAt store.dim queryFloat pair.1 candidate.2
      ∃ final, heap.offers RerankCandidate.order k heap.empty items = some final ∧
        Smallest measure k items (heap.intoIter final)) :
    ∃ shardReranked,
      List.Forall₂ (fun (pair : CoreShard F × List Candidate) best =>
          Smallest measure k
            (pair.2.map fun candidate => scoredAt store.dim queryFloat pair.1 candidate.2) best)
        (store.shards.zip shardCandidates) shardReranked ∧
      rerankCandidates std store queryFloat k shardCandidates =
        some (mergeReranked std k (shardReranked.map fun best =>
          best.map fun c => (c.localIdx, (ofFixed c.scoreInt : F)))) := by
  obtain ⟨shardReranked, reranked, related⟩ := mapM_image
    (fun pair : CoreShard F × List Candidate =>
      rerankReserved std store.dim queryFloat k pair.1 pair.2)
    (fun best : List RerankCandidate => best.map fun c => (c.localIdx, ofFixed c.scoreInt))
    (fun pair best => Smallest measure k
      (pair.2.map fun candidate => scoredAt store.dim queryFloat pair.1 candidate.2) best)
    (store.shards.zip shardCandidates) fun pair member =>
      rerankReserved_by std (formed.shards _ (List.of_mem_zip member).1) queryFloat k pair.2
        (inside pair member) measure (taken pair member)
  refine ⟨shardReranked, related, ?_⟩
  rw [rerankCandidates, reranked]
  rfl

theorem rerankCandidates_places (formed : WellFormed store) (positive : 0 < k)
    (shardCandidates : List (List Candidate))
    (inside : List.Forall₂ (fun (shard : CoreShard F) candidates =>
        ∀ candidate ∈ candidates, candidate.2 < shard.keys.length)
      store.shards shardCandidates) :
    ∃ shardReranked places,
      List.Forall₂ (fun (pair : CoreShard F × List Candidate) best =>
          Smallest RerankCandidate.order k
            (pair.2.map fun candidate => scoredAt store.dim queryFloat pair.1 candidate.2) best)
        (store.shards.zip shardCandidates) shardReranked ∧
      Smallest RerankCandidate.order k (offered F shardReranked) places ∧
      places.Pairwise (fun first second => first.order ≤ second.order) ∧
      rerankCandidates std store queryFloat k shardCandidates = some places := by
  obtain ⟨shardReranked, related, reranked⟩ := rerankCandidates_stages std store queryFloat k
    formed shardCandidates (fun _ member => (List.forall₂_iff_zip.mp inside).2 member)
    RerankCandidate.order fun _ _ => offers_score std k positive _
  have merged := mergeReranked_smallest std k (shardReranked.map fun best =>
    best.map fun c => (c.localIdx, (ofFixed c.scoreInt : F)))
  rw [offered_scored] at merged
  exact ⟨shardReranked, _, related, merged, mergeReranked_sorted std k _, reranked⟩

theorem searchReranked_places (formed : WellFormed store) (positive : 0 < k)
    (stored : store.len ≠ 0) (room : Reserved store k) (shardCandidates : List (List Candidate))
    (scanned : store.shards.mapM (scanReserved std store.numBlocks queryBin (rPerShard store k)) =
      some shardCandidates)
    (inside : List.Forall₂ (fun (shard : CoreShard F) candidates =>
        ∀ candidate ∈ candidates, candidate.2 < shard.keys.length)
      store.shards shardCandidates) :
    ∃ shardReranked places, ∃ entries : List (AirKey × Int),
      List.Forall₂ (fun (pair : CoreShard F × List Candidate) best =>
          Smallest RerankCandidate.order k
            (pair.2.map fun candidate => scoredAt store.dim queryFloat pair.1 candidate.2) best)
        (store.shards.zip shardCandidates) shardReranked ∧
      Smallest RerankCandidate.order k (offered F shardReranked) places ∧
      places.Pairwise (fun first second => first.order ≤ second.order) ∧
      store.searchReranked std queryBin queryFloat k =
        some (entries.map fun entry => (entry.1, ofFixed entry.2)) ∧
      List.Forall₂ (fun (c : RerankCandidate) entry =>
        store.keyAt c.shardIdx c.localIdx = some entry.1 ∧ entry.2 = c.scoreInt) places entries := by
  obtain ⟨shardReranked, places, related, chosen, sorted, reranked⟩ :=
    rerankCandidates_places std store queryFloat k formed positive shardCandidates inside
  obtain ⟨entries, found, same⟩ := mapM_image
    (fun c : RerankCandidate => do
      let key ← store.keyAt c.shardIdx c.localIdx
      return (key, (ofFixed c.scoreInt : F)))
    (fun entry : AirKey × Int => (entry.1, (ofFixed entry.2 : F)))
    (fun c entry => store.keyAt c.shardIdx c.localIdx = some entry.1 ∧ entry.2 = c.scoreInt)
    places (by
      intro c member
      obtain ⟨key, keyFound⟩ := keyAt_offered store queryFloat k shardCandidates
        (fun _ present => (List.forall₂_iff_zip.mp inside).2 present) shardReranked related c
        (chosen.subset c member)
      exact ⟨(key, c.scoreInt), by rw [keyFound]; rfl, keyFound, rfl⟩)
  refine ⟨shardReranked, places, entries, related, chosen, sorted, ?_, same⟩
  rw [searchReranked_eq std store queryBin queryFloat k room, if_neg stored, scanned]
  simp only [Option.bind_eq_bind, Option.bind_some]
  rw [reranked]
  exact found

theorem searchReranked_stages (formed : WellFormed store) (positive : 0 < k)
    (stored : store.len ≠ 0) (room : Reserved store k) (shardCandidates : List (List Candidate))
    (scanned : store.shards.mapM (scanReserved std store.numBlocks queryBin (rPerShard store k)) =
      some shardCandidates)
    (inside : List.Forall₂ (fun (shard : CoreShard F) candidates =>
        ∀ candidate ∈ candidates, candidate.2 < shard.keys.length)
      store.shards shardCandidates) :
    ∃ shardReranked places results,
      List.Forall₂ (fun (pair : CoreShard F × List Candidate) best =>
          Smallest RerankCandidate.order k
            (pair.2.map fun candidate => scoredAt store.dim queryFloat pair.1 candidate.2) best)
        (store.shards.zip shardCandidates) shardReranked ∧
      Smallest RerankCandidate.order k (offered F shardReranked) places ∧
      store.searchReranked std queryBin queryFloat k = some results ∧
      results.map Prod.snd = places.map fun c => ofFixed c.scoreInt := by
  obtain ⟨shardReranked, places, entries, related, chosen, _, found, same⟩ :=
    searchReranked_places std store queryBin queryFloat k formed positive stored room
      shardCandidates scanned inside
  refine ⟨shardReranked, places, _, related, chosen, found, ?_⟩
  rw [List.map_map]
  exact map_of_related (fun c : RerankCandidate => (ofFixed c.scoreInt : F))
    (fun entry : AirKey × Int => (ofFixed entry.2 : F)) places entries
    (same.imp fun _ _ both => congrArg ofFixed both.2)

end Stages

end SharedVectorStore

end OmegaDrive
