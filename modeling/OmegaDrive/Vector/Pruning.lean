import Mathlib.Data.List.Perm.Basic
import OmegaDrive.Vector.Merge

set_option autoImplicit false

namespace OmegaDrive

open TopK OptionLoop

namespace SharedVectorStore

variable {F : Type} (std : StdChoices) (query : List Word) (k : Nat)

def lookedParts (numBlocks : Nat) (shards : List (CoreShard F)) (start : Nat) :
    List (List Located) :=
  (shards.zipIdx start).map fun (shard, shardIdx) =>
    (divideShard std query k numBlocks shard).1.map (located shardIdx)

theorem flatten_lookedParts (numBlocks : Nat) (shards : List (CoreShard F)) :
    (lookedParts std query k numBlocks shards 0).flatten =
      locate (shards.map fun shard => (divideShard std query k numBlocks shard).1) := by
  simp only [locate, lookedParts, List.zipIdx_map, List.map_map]
  rfl

theorem map_lookedParts (numBlocks : Nat) (shards : List (CoreShard F)) :
    (lookedParts std query k numBlocks shards 0).flatten.map Prod.fst =
      shards.flatMap fun shard => (divideShard std query k numBlocks shard).1.map Prod.fst := by
  rw [flatten_lookedParts, map_locate, List.map_flatten, List.map_map]
  rfl

theorem mem_divideShard (dim numBlocks : Nat) (shard : CoreShard F)
    (laid : Laid dim numBlocks shard) (candidate : Candidate)
    (member : candidate ∈ (divideShard std query k numBlocks shard).1) :
    ∃ i < shard.keys.length, candidateAt numBlocks query shard i = candidate := by
  have present := (divide_perm k (candidatesOf numBlocks query shard) []
    (ordered std query shard)).mem_iff.mp (List.mem_append_left _ member)
  obtain ⟨i, inside, same⟩ := List.mem_map.mp ((ordered_perm laid).mem_iff.mp present)
  exact ⟨i, List.mem_range.mp inside, same⟩

theorem mem_lookedParts (store : SharedVectorStore F) (formed : WellFormed store) (place : Located)
    (member : place ∈ (lookedParts std query k store.numBlocks store.shards 0).flatten) :
    ∃ shard, store.shards[place.2.1]? = some shard ∧ place.2.2 < shard.keys.length ∧
      place.1 = hamming (row store.numBlocks shard place.2.2) query := by
  obtain ⟨part, present, inside⟩ := List.mem_flatten.mp member
  obtain ⟨⟨shard, shardIdx⟩, found, rfl⟩ := List.mem_map.mp present
  obtain ⟨candidate, looked, rfl⟩ := List.mem_map.mp inside
  have shardFound := List.mem_zipIdx_iff_getElem?.mp found
  obtain ⟨i, bound, rfl⟩ := mem_divideShard std query k store.dim store.numBlocks shard
    (formed.shards shard (List.mem_of_getElem? shardFound)) candidate looked
  exact ⟨shard, shardFound, bound, rfl⟩

theorem keyAt_some (store : SharedVectorStore F) (formed : WellFormed store) (place : Located)
    (member : place ∈ (lookedParts std query k store.numBlocks store.shards 0).flatten) :
    ∃ key, store.keyAt place.2.1 place.2.2 = some key := by
  obtain ⟨shard, found, bound, _⟩ := mem_lookedParts std query k store formed place member
  exact ⟨shard.keys[place.2.2], by simp [keyAt, found, bound]⟩

theorem search_places (store : SharedVectorStore F) (formed : WellFormed store)
    (fits : store.dim < 2 ^ 32) (width : query.length = store.numBlocks) (positive : 0 < k)
    (room : Reserves 24 k) :
    ∃ places results, store.search std query k = some results ∧
      Smallest (fun place : Located => place.1) k
        (lookedParts std query k store.numBlocks store.shards 0).flatten places ∧
      places.Pairwise (fun first second => first.1 ≤ second.1) ∧
      List.Forall₂ (fun (place : Located) result =>
        store.keyAt place.2.1 place.2.2 = some result.1 ∧ result.2 = place.1) places results := by
  obtain ⟨shardResults, scanned, each⟩ := mapM_related _ _ store.shards
    (scanReserved_smallest std query k store formed fits width positive)
  let merged := mergeShards std k shardResults
  let sorted := (std.sort fun place : Located => place.1).sort merged
  have chosen : Smallest (fun place : Located => place.1) k
      (lookedParts std query k store.numBlocks store.shards 0).flatten sorted := by
    have parts : List.Forall₂ (Smallest Prod.fst k)
        (store.shards.map fun shard => (divideShard std query k store.numBlocks shard).1)
        shardResults := List.forall₂_map_left_iff.mpr each
    rw [flatten_lookedParts]
    exact (mergeShards_parts std k _ shardResults parts).kept_perm
      ((std.sort fun place : Located => place.1).perm merged)
  have keys : ∀ place ∈ sorted, ∃ key, store.keyAt place.2.1 place.2.2 = some key :=
    fun place member => keyAt_some std query k store formed place (chosen.subset place member)
  obtain ⟨results, found, related⟩ := mapM_related
    (fun place : Located => do
      let key ← store.keyAt place.2.1 place.2.2
      return (key, place.1))
    (fun place result => store.keyAt place.2.1 place.2.2 = some result.1 ∧ result.2 = place.1)
    sorted (by
      intro place member
      obtain ⟨key, present⟩ := keys place member
      exact ⟨(key, place.1), by simp [present], present, rfl⟩)
  refine ⟨sorted, results, ?_, chosen, (std.sort fun place : Located => place.1).sorted merged,
    related⟩
  rw [search_eq std k store query room, scanned, Option.bind_some]
  exact found

theorem search_looked (store : SharedVectorStore F) (formed : WellFormed store)
    (fits : store.dim < 2 ^ 32) (width : query.length = store.numBlocks) (positive : 0 < k)
    (room : Reserves 24 k) :
    ∃ results, store.search std query k = some results ∧
      Smallest id k (store.lookedAt std query k) (results.map Prod.snd) := by
  obtain ⟨places, results, found, chosen, _, related⟩ :=
    search_places std query k store formed fits width positive room
  have same := map_of_related (fun place : Located => place.1) Prod.snd places results
    (related.imp fun _ _ both => both.2)
  refine ⟨results, found, ?_⟩
  rw [same, lookedAt, ← map_lookedParts]
  exact chosen.map

theorem lookedAt_skippedAt (store : SharedVectorStore F) (formed : WellFormed store) :
    (store.lookedAt std query k ++ store.skippedAt std query k).Perm (store.distances query) := by
  rw [lookedAt, skippedAt, distances]
  refine (List.flatMap_append_perm _ _ _).trans (List.Perm.flatMap_left _ fun shard member => ?_)
  have divided := ((divide_perm k (candidatesOf store.numBlocks query shard) []
    (ordered std query shard)).trans (ordered_perm (formed.shards shard member))).map Prod.fst
  rw [List.map_append, List.map_map] at divided
  exact divided

theorem search_exact (dim numCpus : Nat) (aligned : dim % 64 = 0) (fits : dim < 2 ^ 32)
    [FloatArith F] (ops : List (StoreOp F)) (floats : List F) (positive : 0 < k) :
    let store := (new dim numCpus aligned).run ops
    let query := store.quantize floats
    (∃ results, store.search std query k = some results ∧
        Smallest id k (store.distances query) (results.map Prod.snd)) ↔
      Reserves 24 k ∧ ∀ distance ∈ store.skippedAt std query k,
        k ≤ within id distance (store.lookedAt std query k) := by
  intro store query
  have formed : WellFormed store := wellFormed_run _ ops (wellFormed_new dim numCpus aligned)
  have width : query.length = store.numBlocks := length_quantize store floats
  have size : store.dim < 2 ^ 32 := by rwa [show store.dim = dim from dim_run _ ops]
  by_cases room : Reserves 24 k
  swap
  · simp [search_refused std store k query room, room]
  rw [and_iff_right room]
  obtain ⟨results, found, small⟩ := search_looked std query k store formed size width positive room
  have exact' : Smallest id k ((store.lookedAt std query k ++ store.skippedAt std query k).map id)
        ((results.map Prod.snd).map id) ↔ ∀ distance ∈ store.skippedAt std query k,
          k ≤ within id distance (store.lookedAt std query k) :=
    smallest_without small
  rw [List.map_id, List.map_id] at exact'
  have whole : Smallest id k (store.distances query) (results.map Prod.snd) ↔
      Smallest id k (store.lookedAt std query k ++ store.skippedAt std query k)
        (results.map Prod.snd) := by
    have perm := lookedAt_skippedAt std query k store formed
    exact ⟨fun all => all.perm perm, fun all => all.perm perm.symm⟩
  have answer := whole.trans exact'
  rw [found]
  constructor
  · rintro ⟨other, same, all⟩
    cases Option.some.inj same
    exact answer.mp all
  · intro covered
    exact ⟨results, rfl, answer.mpr covered⟩

theorem setBits_true : setBits (fun _ => true) = BitVec.allOnes 64 := by decide
theorem setBits_false : setBits (fun _ => false) = 0#64 := by decide

-- A block of one vector scores twice the query's zero bits, whatever the vector is.
theorem computeSignature_single (data : List Word) (i numBlocks : Nat) :
    CoreShard.computeSignature data i (i + 1) numBlocks =
      ⟨List.replicate numBlocks (BitVec.allOnes 64), List.replicate numBlocks 0#64, 0, i, i + 1⟩ := by
  have high : CoreShard.highBit data i (i + 1) numBlocks = fun _ _ => true := by
    funext wordIdx b
    simp [CoreShard.highBit]
  have low : CoreShard.lowBit data i (i + 1) numBlocks = fun _ _ => false := by
    funext wordIdx b
    simp [CoreShard.lowBit, high]
  have none_set : countOnes 0#64 = 0 := by decide
  simp [CoreShard.computeSignature, high, low, setBits_true, setBits_false, List.map_const',
    List.zipWith_replicate', none_set]

theorem run_rounds [FloatArith F] (key : AirKey) (quantized floats : List F) (rounds : Nat)
    (small : 4 * rounds < 2 ^ 64) :
    (new 64 4 rfl : SharedVectorStore F).run
        (List.replicate (4 * rounds) (.add key quantized floats)) =
      { shards := List.replicate 4 ((addToShard 64 1 key
          ((new 64 4 rfl : SharedVectorStore F).quantize quantized) floats)^[rounds] CoreShard.new)
        dim := 64
        numBlocks := 1
        writeCounter := 4 * rounds } := by
  induction rounds with
  | zero => rfl
  | succ rounds ih =>
    have step := ih (by omega)
    rw [run] at step ⊢
    rw [Nat.mul_succ, List.replicate_add, List.foldl_append, step, Function.iterate_succ_apply']
    generalize (addToShard 64 1 key
      ((new 64 4 rfl : SharedVectorStore F).quantize quantized) floats)^[rounds]
        CoreShard.new = shard
    have zero : 4 * rounds % 4 = 0 := by omega
    have one : (4 * rounds + 1) % 2 ^ 64 = 4 * rounds + 1 := by omega
    have two : (4 * rounds + 1 + 1) % 2 ^ 64 = 4 * rounds + 2 := by omega
    have three : (4 * rounds + 2 + 1) % 2 ^ 64 = 4 * rounds + 3 := by omega
    have four : (4 * rounds + 3 + 1) % 2 ^ 64 = 4 * rounds + 4 := by omega
    have oneShard : (4 * rounds + 1) % 4 = 1 := by omega
    have twoShard : (4 * rounds + 2) % 4 = 2 := by omega
    have threeShard : (4 * rounds + 3) % 4 = 3 := by omega
    simp only [List.replicate, List.foldl_cons, List.foldl_nil, apply, add, List.length_cons,
      List.length_nil, zero, one, two, three, four, oneShard, twoShard, threeShard,
      List.modify_zero_cons, List.modify_succ_cons, Nat.zero_add, Nat.reduceAdd]
    rfl

section Two

theorem scoreOf_le (block : BlockSignature) : scoreOf [0#64] block ≤ 128 := by
  have high := hamming_le [0#64] block.sHigh
  have low := hamming_le ([0#64].map fun w => ~~~w) block.sLow
  simp only [List.length_map, List.length_singleton] at high low
  rw [scoreOf]
  omega

variable {shard : CoreShard F} (laid : Laid 64 1 shard) (size : shard.keys.length = 129)

include laid size

theorem blocks_two : shard.blocks =
    [CoreShard.computeSignature shard.data 0 128 1,
      CoreShard.computeSignature shard.data 128 129 1] := by
  rw [laid.blocks_eq, size]
  rfl

theorem ordered_two : ∃ score ≤ 128, ordered StdChoices.lists [0#64] shard =
    [(score, 0), (128, 1)] := by
  have last : scoreOf [0#64] (CoreShard.computeSignature shard.data 128 129 1) = 128 := by
    rw [computeSignature_single]
    decide
  have bound := scoreOf_le (CoreShard.computeSignature shard.data 0 128 1)
  refine ⟨_, bound, ?_⟩
  rw [ordered, blocks_two laid size]
  simp only [List.zipIdx_cons, List.zipIdx_nil, List.map_cons, List.map_nil, last]
  simp [StdChoices.lists, UnstableSort.ofInsertion, bound]

theorem candidates_two :
    candidatesOf 1 [0#64] shard 0 = (List.range 128).map (candidateAt 1 [0#64] shard) ∧
      candidatesOf 1 [0#64] shard 1 = [candidateAt 1 [0#64] shard 128] := by
  constructor
  · rw [candidatesOf, blocks_two laid size, List.range_eq_range']
    rfl
  · rw [candidatesOf, blocks_two laid size]
    change (List.range' 128 (129 - 128)).map (candidateAt 1 [0#64] shard) = _
    rw [show 129 - 128 = 1 from rfl, List.range'_one, List.map_singleton]

-- The second block scores 128, which no distance in the first one exceeds.
theorem divide_two {k : Nat} (positive : 0 < k) (few : k ≤ 128) :
    divideShard StdChoices.lists [0#64] k 1 shard =
      ((List.range 128).map (candidateAt 1 [0#64] shard), [candidateAt 1 [0#64] shard 128]) := by
  obtain ⟨score, _, order⟩ := ordered_two laid size
  obtain ⟨first, second⟩ := candidates_two laid size
  have near : within Prod.fst 128 (candidatesOf 1 [0#64] shard 0) = 128 := by
    rw [within_all, first]
    · simp
    · intro candidate member
      rw [first] at member
      obtain ⟨i, _, rfl⟩ := List.mem_map.mp member
      have bound := hamming_le (row 1 shard i) [0#64]
      have width : (row 1 shard i).length ≤ 1 := by simp [row]
      simp only [candidateAt]
      omega
  have nothing : ¬ k ≤ within Prod.fst score ([] : List Candidate) := by simp [within]; omega
  rw [divideShard, order, divide, divide, divide, if_neg nothing, List.nil_append, if_pos (by omega)]
  simp [first, second]

omit size in
theorem skippedAt_two {k : Nat} (positive : 0 < k) (few : k ≤ 128) (store : SharedVectorStore F)
    (width : store.numBlocks = 1) (member : shard ∈ store.shards)
    (size : shard.keys.length = 129) :
    skippedAt StdChoices.lists [0#64] k store ≠ [] := by
  intro nothing
  have here := List.flatMap_eq_nil_iff.mp nothing shard member
  rw [width, divide_two laid size positive few] at here
  cases here

end Two

section Crowded

-- 512 vectors at distance one from the query.
def crowd : List (StoreOp Int) :=
  List.replicate (4 * 128) (.add (AirKey.fromBytes (ascii "far")) [0] [0])

/-- Then one more, alone in the second block of the first shard. -/
def crowdedOps (floats : List Int) : List (StoreOp Int) :=
  crowd ++ [.add (AirKey.fromBytes (ascii "last")) floats floats]

def crowdedStore (floats : List Int) : SharedVectorStore Int :=
  (new 64 4 rfl).run (crowdedOps floats)

def fullShard : CoreShard Int :=
  (addToShard 64 1 (AirKey.fromBytes (ascii "far")) [1#64] [0])^[128] CoreShard.new

def firstShard (w : Word) (floats : List Int) : CoreShard Int :=
  addToShard 64 1 (AirKey.fromBytes (ascii "last")) [w] floats fullShard

theorem iterate_addToShard (key : AirKey) (floats : List Int) (n : Nat) :
    ((addToShard 64 1 key [1#64] floats)^[n] CoreShard.new).data = List.replicate n 1#64 ∧
      ((addToShard 64 1 key [1#64] floats)^[n] CoreShard.new).keys.length = n := by
  induction n with
  | zero => exact ⟨rfl, rfl⟩
  | succ n ih =>
    rw [Function.iterate_succ_apply', List.replicate_succ']
    simp [addToShard, CoreShard.rebuildBlocks, ih]

theorem data_full : fullShard.data = List.replicate 128 1#64 ∧ fullShard.keys.length = 128 :=
  iterate_addToShard _ _ _

theorem row_full (more : List Word) (i : Nat) (inside : i < 128) :
    ((List.replicate 128 1#64 ++ more).drop (i * 1)).take 1 = [1#64] := by
  rw [Nat.mul_one, List.drop_append_of_le_length (by simp; omega), List.drop_replicate,
    show 128 - i = 127 - i + 1 by omega, List.replicate_succ]
  rfl

theorem distance_full (shard : CoreShard Int) (more : List Word)
    (data : shard.data = List.replicate 128 1#64 ++ more) (i : Nat) (inside : i < 128) :
    hamming (row 1 shard i) [0#64] = 1 := by
  rw [row, data, row_full more i inside]
  decide

theorem quantize_new (shards : List (CoreShard Int)) (writeCounter : Nat) (floats : List Int) :
    (⟨shards, 64, 1, writeCounter⟩ : SharedVectorStore Int).quantize floats =
      (new 64 4 rfl : SharedVectorStore Int).quantize floats :=
  quantize_congr _ _ rfl rfl floats

section Last

variable {floats : List Int} {w : Word}
  (bits : (new 64 4 rfl : SharedVectorStore Int).quantize floats = [w])

include bits in
theorem crowdedStore_eq :
    crowdedStore floats = ⟨[firstShard w floats, fullShard, fullShard, fullShard], 64, 1, 513⟩ := by
  have far : (new 64 4 rfl : SharedVectorStore Int).quantize [0] = [1#64] := by decide
  have rounds := run_rounds (F := Int) (AirKey.fromBytes (ascii "far")) [0] [0] 128 (by decide)
  rw [far] at rounds
  rw [crowdedStore, crowdedOps, crowd, run, List.foldl_append]
  rw [run] at rounds
  rw [rounds, List.foldl_cons, List.foldl_nil, apply, ← fullShard, quantize_new, bits]
  rfl

include bits in
theorem laid_full : Laid 64 1 fullShard := by
  have formed := wellFormed_run _ (crowdedOps floats) (wellFormed_new (F := Int) 64 4 rfl)
  have shards := formed.shards
  rw [← crowdedStore, crowdedStore_eq bits] at shards
  exact shards fullShard (by simp)

include bits in
theorem quantize_crowded (other : List Int) :
    (crowdedStore floats).quantize other = (new 64 4 rfl : SharedVectorStore Int).quantize other := by
  rw [crowdedStore_eq bits, quantize_new]

variable (floats w) in
theorem data_first : (firstShard w floats).data = List.replicate 128 1#64 ++ [w] ∧
    (firstShard w floats).keys.length = 129 := by
  obtain ⟨data, count⟩ := data_full
  constructor
  · simp only [firstShard, addToShard, CoreShard.rebuildBlocks, data]
  · simp only [firstShard, addToShard, CoreShard.rebuildBlocks, List.length_append, count]
    rfl

include bits in
theorem laid_first : Laid 64 1 (firstShard w floats) :=
  laid_addToShard _ _ _ _ _ _ (laid_full bits) rfl

include bits in
theorem len_crowded : (crowdedStore floats).len = 513 := by
  rw [len, crowdedStore_eq bits, List.map_cons, (data_first floats w).2]
  simp only [List.map_cons, List.map_nil, data_full.2]
  rfl

theorem row_last : row 1 (firstShard w floats) 128 = [w] := by
  rw [row, (data_first floats w).1, Nat.mul_one, List.drop_append, List.length_replicate,
    List.drop_eq_nil_of_le (by simp)]
  rfl

variable {k : Nat} (positive : 0 < k) (few : k ≤ 128)

include bits positive few

theorem divide_first :
    divideShard StdChoices.lists [0#64] k 1 (firstShard w floats) =
      ((List.range 128).map (candidateAt 1 [0#64] (firstShard w floats)),
        [candidateAt 1 [0#64] (firstShard w floats) 128]) :=
  divide_two (laid_first bits) (data_first floats w).2 positive few

theorem lookedAt_crowded : ∀ distance ∈ lookedAt StdChoices.lists [0#64] k (crowdedStore floats),
    distance = 1 := by
  have full : ∀ candidate ∈ (divideShard StdChoices.lists [0#64] k 1 fullShard).1,
      candidate.1 = 1 := by
    intro candidate member
    obtain ⟨i, inside, rfl⟩ :=
      mem_divideShard _ _ _ 64 1 fullShard (laid_full bits) candidate member
    exact distance_full fullShard [] (by rw [data_full.1, List.append_nil]) i
      (by rwa [data_full.2] at inside)
  have first : ∀ candidate ∈ (divideShard StdChoices.lists [0#64] k 1 (firstShard w floats)).1,
      candidate.1 = 1 := by
    intro candidate member
    rw [divide_first bits positive few] at member
    obtain ⟨i, inside, rfl⟩ := List.mem_map.mp member
    exact distance_full (firstShard w floats) [w] (data_first floats w).1 i
      (List.mem_range.mp inside)
  intro distance member
  rw [lookedAt, crowdedStore_eq bits] at member
  obtain ⟨shard, present, inside⟩ := List.mem_flatMap.mp member
  obtain ⟨candidate, looked, rfl⟩ := List.mem_map.mp inside
  simp only [List.mem_cons, List.not_mem_nil, or_false, or_self] at present
  rcases present with rfl | rfl
  · exact first candidate looked
  · exact full candidate looked

theorem lookedAt_crowded_length :
    128 ≤ (lookedAt StdChoices.lists [0#64] k (crowdedStore floats)).length := by
  rw [lookedAt, crowdedStore_eq bits, List.flatMap_cons, divide_first bits positive few]
  simp only [List.length_append, List.length_map, List.length_range]
  omega

end Last

theorem quantize_far : (new 64 4 rfl : SharedVectorStore Int).quantize [0] = [1#64] := by decide

theorem quantize_near : (new 64 4 rfl : SharedVectorStore Int).quantize [-1] = [0#64] := by decide

theorem distances_far : ∀ distance ∈ (crowdedStore [0]).distances [0#64], distance = 1 := by
  intro distance member
  rw [distances, crowdedStore_eq quantize_far] at member
  obtain ⟨shard, present, inside⟩ := List.mem_flatMap.mp member
  obtain ⟨i, stored, rfl⟩ := List.mem_map.mp inside
  rw [List.mem_range] at stored
  simp only [List.mem_cons, List.not_mem_nil, or_false, or_self] at present
  rcases present with rfl | rfl
  · rw [(data_first [0] 1#64).2] at stored
    rcases Nat.lt_or_eq_of_le (Nat.le_of_lt_succ stored) with before | rfl
    · exact distance_full _ [1#64] (data_first [0] 1#64).1 i before
    · rw [row_last]
      decide
  · exact distance_full fullShard [] (by rw [data_full.1, List.append_nil]) i
      (by rwa [data_full.2] at stored)

-- Where the last vector is another far one, what is skipped is as far as what is looked at.
theorem search_exact_skipping :
    skippedAt StdChoices.lists ((crowdedStore [0]).quantize [-1]) 2 (crowdedStore [0]) ≠ [] ∧
      ∃ results, (crowdedStore [0]).search StdChoices.lists ((crowdedStore [0]).quantize [-1]) 2 =
          some results ∧
        Smallest id 2 ((crowdedStore [0]).distances ((crowdedStore [0]).quantize [-1]))
          (results.map Prod.snd) := by
  constructor
  · rw [quantize_crowded quantize_far, quantize_near, crowdedStore_eq quantize_far]
    exact skippedAt_two (laid_first quantize_far) (by decide) (by decide) _ rfl
      List.mem_cons_self (data_first [0] 1#64).2
  · refine (search_exact StdChoices.lists 2 64 4 rfl (by decide) (crowdedOps [0]) [-1]
      (by decide)).mpr ⟨by decide, ?_⟩
    rw [← crowdedStore, quantize_crowded quantize_far, quantize_near]
    intro distance member
    have formed : WellFormed (crowdedStore [0]) := wellFormed_run _ _ (wellFormed_new 64 4 rfl)
    have skipped : distance = 1 := distances_far distance
      ((lookedAt_skippedAt _ _ _ _ formed).mem_iff.mp (List.mem_append_right _ member))
    rw [within_all]
    · exact Nat.le_trans (by decide) (lookedAt_crowded_length quantize_far (by decide) (by decide))
    · intro looked inside
      rw [skipped, lookedAt_crowded quantize_far (by decide) (by decide) looked inside]
      rfl

theorem zero_distance : 0 ∈ (crowdedStore [-1]).distances [0#64] := by
  rw [distances, crowdedStore_eq quantize_near, List.flatMap_cons, (data_first [-1] 0#64).2]
  refine List.mem_append_left _ (List.mem_map.mpr ⟨128, by simp, ?_⟩)
  rw [row_last]
  decide

-- The nearest vector, at distance zero, is not found.
theorem search_misses_nearest :
    ((crowdedStore [-1]).search StdChoices.lists ((crowdedStore [-1]).quantize [-1]) 1).map
        (fun results => results.map Prod.snd) = some [1] ∧
      ¬ Smallest id 1 ((crowdedStore [-1]).distances ((crowdedStore [-1]).quantize [-1])) [1] := by
  have formed : WellFormed (crowdedStore [-1]) := wellFormed_run _ _ (wellFormed_new 64 4 rfl)
  obtain ⟨results, found, small⟩ := search_looked StdChoices.lists [0#64] 1 (crowdedStore [-1])
    formed (by rw [crowdedStore_eq quantize_near]; decide)
    (by rw [crowdedStore_eq quantize_near]; rfl) (by decide) (by decide)
  have some_looked := lookedAt_crowded_length quantize_near (k := 1) (by decide) (by decide)
  have single : results.map Prod.snd = [1] := by
    obtain ⟨_, _, size, _⟩ := id small
    rw [Nat.min_eq_left (by omega)] at size
    refine List.eq_replicate_iff.mpr ⟨size, fun distance member => ?_⟩
    exact lookedAt_crowded quantize_near (by decide) (by decide) distance
      (small.subset distance member)
  rw [quantize_crowded quantize_near, quantize_near, found]
  refine ⟨congrArg some single, fun all => ?_⟩
  have chosen := all.within_eq 0
  have present := within_positive id _ 0 zero_distance
  simp only [id_eq] at present
  have missing : within id 0 [1] = 0 := by decide
  omega

end Crowded

end SharedVectorStore

end OmegaDrive
