import OmegaDrive.Vector.Rerank

set_option autoImplicit false

namespace OmegaDrive

open TopK OptionLoop

namespace RecallBench

def dim : Nat := 1536

def numBlocks : Nat := dim / 64

variable {F : Type} [FloatArith F] [LinearOrder F] (std : StdChoices)

def dotProduct (a b : List F) : F := SharedVectorStore.dotProduct a b

/-- No score is a NaN: the comparison that would not decide is not modelled. -/
def byScore (entry : Nat × F) : Fᵒᵈ := OrderDual.toDual entry.2

-- `none` is a slice out of range.
def floatScore (query db : List F) (idx : Nat) : Option (Nat × F) := do
  let candidate ← sliceAt db (idx * dim) dim
  return (idx, dotProduct query candidate)

def getTopKFloat (query db : List F) (numVectors k : Nat) : Option (List Nat) := do
  let scores ← (List.range numVectors).mapM (floatScore query db)
  return (((std.sort byScore).sort scores).take k).map Prod.fst

def binaryScore (query db : List Word) (idx : Nat) : Option (Nat × Nat) := do
  let candidate ← sliceAt db (idx * numBlocks) numBlocks
  let dist ← xorCount numBlocks query candidate
  return (idx, dist)

-- With nothing to select, the scores are not truncated.
def truncated (us : UnstableSelect fun entry : Nat × Nat => entry.2) (numVectors r : Nat)
    (scores : List (Nat × Nat)) : List (Nat × Nat) :=
  let rClamped := min r numVectors
  if 0 < rClamped then (us.select (rClamped - 1) scores).take rClamped else scores

def getTopKBinaryReranked (us : UnstableSelect fun entry : Nat × Nat => entry.2)
    (queryBin : List Word) (queryFloat : List F) (binaryDb : List Word) (floatDb : List F)
    (numVectors r k : Nat) : Option (List Nat) := do
  let scores ← (List.range numVectors).mapM (binaryScore queryBin binaryDb)
  let reranked ← (truncated us numVectors r scores).mapM fun (idx, _) =>
    floatScore queryFloat floatDb idx
  return (((std.sort byScore).sort reranked).take k).map Prod.fst

-- The numerator and the denominator of `calculate_recall`.
def calculateRecall (floatTop binaryTop : List Nat) : Nat × Nat :=
  (binaryTop.countP floatTop.contains, floatTop.length)

section Measures

variable (query : List F) (floatDb : List F) (queryBin binaryDb : List Word)

def scoreOf (idx : Nat) : F := dotProduct query (Records.recordAt dim floatDb idx)

def distanceOf (idx : Nat) : Nat := hamming queryBin (Records.recordAt numBlocks binaryDb idx)

variable {query floatDb queryBin binaryDb} {numVectors : Nat}

theorem sliceAt_record {α : Type} {size : Nat} {db : List α} (whole : db.length = numVectors * size)
    (idx : Nat) (inside : idx < numVectors) :
    sliceAt db (idx * size) size = some (Records.recordAt size db idx) := by
  have rows : (idx + 1) * size ≤ numVectors * size := Nat.mul_le_mul_right _ inside
  rw [Nat.add_mul, Nat.one_mul, ← whole] at rows
  exact if_pos rows

omit [LinearOrder F] in
theorem floatScore_eq (whole : floatDb.length = numVectors * dim) (idx : Nat)
    (inside : idx < numVectors) :
    floatScore query floatDb idx = some (idx, scoreOf query floatDb idx) := by
  rw [floatScore, sliceAt_record whole idx inside]
  rfl

theorem binaryScore_eq (whole : binaryDb.length = numVectors * numBlocks)
    (width : queryBin.length = numBlocks) (idx : Nat) (inside : idx < numVectors) :
    binaryScore queryBin binaryDb idx = some (idx, distanceOf queryBin binaryDb idx) := by
  have row : (Records.recordAt numBlocks binaryDb idx).length = numBlocks := by
    have rows : (idx + 1) * numBlocks ≤ numVectors * numBlocks := Nat.mul_le_mul_right _ inside
    rw [Nat.add_mul, Nat.one_mul, ← whole] at rows
    rw [Records.recordAt, List.length_take, List.length_drop]
    omega
  have small : distanceOf queryBin binaryDb idx < 2 ^ 32 := by
    have bound := hamming_le queryBin (Records.recordAt numBlocks binaryDb idx)
    rw [width] at bound
    exact Nat.lt_of_le_of_lt bound (by decide)
  rw [binaryScore, sliceAt_record whole idx inside, Option.bind_eq_bind, Option.bind_some,
    xorCount_eq numBlocks queryBin _ width row, ← distanceOf, Nat.mod_eq_of_lt small]
  rfl

end Measures

section Choices

theorem indices_smallest {β D : Type} [LinearOrder D] {k : Nat} (value : Nat → β) (measure : β → D)
    (items : List Nat) (kept : List (Nat × β))
    (small : Smallest (fun entry : Nat × β => measure entry.2) k
      (items.map fun idx => (idx, value idx)) kept) :
    Smallest (fun idx => measure (value idx)) k items (kept.map Prod.fst) := by
  have indices := small.map_on Prod.fst (fun idx => measure (value idx)) (by
    intro first firstIn second secondIn below
    obtain ⟨_, _, rfl⟩ := List.mem_map.mp firstIn
    obtain ⟨_, _, rfl⟩ := List.mem_map.mp secondIn
    exact below)
  have firsts : (items.map fun idx => (idx, value idx)).map Prod.fst = items := by
    rw [List.map_map]
    exact List.map_id _
  rwa [firsts] at indices

theorem sorted_smallest {β D : Type} [LinearOrder D] (k : Nat) (value : Nat → β) (measure : β → D)
    (us : UnstableSort fun entry : Nat × β => measure entry.2) (items : List Nat) :
    Smallest (fun idx => measure (value idx)) k items
      (((us.sort (items.map fun idx => (idx, value idx))).take k).map Prod.fst) :=
  indices_smallest value measure items _ (smallest_take _ k (us.perm _) (us.sorted _))

-- How many candidates the coarse stage hands on.
def candidateCount (numVectors r : Nat) : Nat := if r = 0 then numVectors else r

omit [FloatArith F] [LinearOrder F] in
theorem truncated_smallest (us : UnstableSelect fun entry : Nat × Nat => entry.2)
    (numVectors r : Nat) (scores : List (Nat × Nat)) (size : scores.length = numVectors) :
    Smallest (fun entry : Nat × Nat => entry.2) (candidateCount numVectors r) scores
      (truncated us numVectors r scores) := by
  unfold truncated
  dsimp only
  split
  next room =>
    have chosen := us.take_smallest (min r numVectors - 1) scores (by omega)
    rw [show min r numVectors - 1 + 1 = min r numVectors by omega] at chosen
    obtain ⟨rest, split, length, near⟩ := chosen
    refine ⟨rest, split, ?_, near⟩
    rw [length, candidateCount, if_neg (by omega)]
    omega
  next nothing =>
    refine smallest_all _ (List.Perm.refl _) ?_
    rw [candidateCount]
    split <;> omega

end Choices

section Recall

variable (query : List F) {floatDb : List F} {queryBin binaryDb : List Word} {numVectors : Nat}
  (floats : floatDb.length = numVectors * dim)

include floats

theorem getTopKFloat_smallest (k : Nat) :
    ∃ top, getTopKFloat std query floatDb numVectors k = some top ∧
      Smallest (fun idx => OrderDual.toDual (scoreOf query floatDb idx)) k (List.range numVectors)
        top := by
  refine ⟨_, ?_, sorted_smallest k (scoreOf query floatDb) OrderDual.toDual (std.sort byScore)
    (List.range numVectors)⟩
  rw [getTopKFloat, mapM_total _ _ _ fun idx member =>
    floatScore_eq floats idx (List.mem_range.mp member)]
  rfl

theorem getTopKBinaryReranked_smallest (us : UnstableSelect fun entry : Nat × Nat => entry.2)
    (bits : binaryDb.length = numVectors * numBlocks) (width : queryBin.length = numBlocks)
    (r k : Nat) :
    ∃ candidates reranked,
      getTopKBinaryReranked std us queryBin query binaryDb floatDb numVectors r k =
        some reranked ∧
      Smallest (distanceOf queryBin binaryDb) (candidateCount numVectors r)
        (List.range numVectors) candidates ∧
      Smallest (fun idx => OrderDual.toDual (scoreOf query floatDb idx)) k candidates reranked := by
  let measured (idx : Nat) : Nat × Nat := (idx, distanceOf queryBin binaryDb idx)
  let scores := (List.range numVectors).map measured
  let chosen := truncated us numVectors r scores
  have nearest := indices_smallest (distanceOf queryBin binaryDb) id (List.range numVectors) chosen
    (truncated_smallest us numVectors r scores (by simp [scores]))
  have inside : ∀ entry ∈ chosen, entry.1 < numVectors := fun entry member =>
    List.mem_range.mp (nearest.subset entry.1 (List.mem_map_of_mem member))
  refine ⟨chosen.map Prod.fst, _, ?_, nearest,
    sorted_smallest k (scoreOf query floatDb) OrderDual.toDual (std.sort byScore)
      (chosen.map Prod.fst)⟩
  rw [getTopKBinaryReranked, mapM_total _ measured _ fun idx member =>
    binaryScore_eq bits width idx (List.mem_range.mp member), Option.bind_eq_bind, Option.bind_some,
    mapM_total _ (fun entry => (entry.1, scoreOf query floatDb entry.1)) _ fun entry member =>
      floatScore_eq floats entry.1 (inside entry member), List.map_map]
  rfl

theorem recall_covered (us : UnstableSelect fun entry : Nat × Nat => entry.2)
    (bits : binaryDb.length = numVectors * numBlocks) (width : queryBin.length = numBlocks)
    (r k : Nat)
    (apart : ∀ i < numVectors, ∀ j < numVectors,
      scoreOf query floatDb i = scoreOf query floatDb j → i = j) :
    ∃ floatTop candidates reranked,
      getTopKFloat std query floatDb numVectors k = some floatTop ∧
      getTopKBinaryReranked std us queryBin query binaryDb floatDb numVectors r k =
        some reranked ∧
      Smallest (distanceOf queryBin binaryDb) (candidateCount numVectors r)
        (List.range numVectors) candidates ∧
      calculateRecall floatTop reranked =
        (floatTop.countP candidates.contains, min k numVectors) ∧
      (numVectors ≤ candidateCount numVectors r →
        calculateRecall floatTop reranked = (min k numVectors, min k numVectors)) := by
  obtain ⟨floatTop, best, whole⟩ := getTopKFloat_smallest std query floats k
  obtain ⟨candidates, reranked, found, nearest, fewer⟩ :=
    getTopKBinaryReranked_smallest std query floats us bits width r k
  obtain ⟨rest, split, _, _⟩ := id nearest
  have matched := Smallest.shared split List.nodup_range (fun item itemIn other otherIn same =>
    apart other (List.mem_range.mp otherIn) item (List.mem_range.mp itemIn)
      (OrderDual.toDual_inj.mp same)) whole fewer
  have share : calculateRecall floatTop reranked =
      (floatTop.countP candidates.contains, min k numVectors) := by
    have size := whole.length
    rw [List.length_range] at size
    rw [calculateRecall, List.countP_eq_length_filter, matched.length_eq,
      ← List.countP_eq_length_filter, size]
  refine ⟨floatTop, candidates, reranked, best, found, nearest, share, fun enough => ?_⟩
  have all := nearest.all (by rwa [List.length_range])
  have every : floatTop.countP candidates.contains = floatTop.length :=
    List.countP_eq_length.mpr fun idx member =>
      List.contains_iff_mem.mpr (all.mem_iff.mpr (whole.subset idx member))
  rw [share, every, whole.length, List.length_range]

end Recall

-- Two vectors that a query of one chunk tells apart.
def twoFloats : List Int := List.replicate dim 1 ++ List.replicate dim (-1)

def twoBits : List Word := List.replicate numBlocks (BitVec.allOnes 64) ++ List.replicate numBlocks 0

def oneChunk : List Int := List.replicate 8 1

theorem length_two {α : Type} (n : Nat) (first second : α) :
    (List.replicate n first ++ List.replicate n second).length = 2 * n := by
  rw [List.length_append, List.length_replicate, List.length_replicate, Nat.two_mul]

theorem record_two {α : Type} (n : Nat) (first second : α) :
    Records.recordAt n (List.replicate n first ++ List.replicate n second) 0 =
        List.replicate n first ∧
      Records.recordAt n (List.replicate n first ++ List.replicate n second) 1 =
        List.replicate n second := by
  simp [Records.recordAt]

theorem getD_replicate {α : Type} (n : Nat) (value other : α) (i : Nat) (inside : i < n) :
    (List.replicate n value).getD i other = value := by
  rw [List.getD_eq_getElem?_getD, List.getElem?_replicate, if_pos inside, Option.getD_some]

theorem dotProduct_chunk (x : Int) : dotProduct oneChunk (List.replicate dim x) = 8 * x := by
  have column : ∀ j ∈ List.range 8, (List.range 1).foldl (fun sum chunk =>
      FloatArith.add sum (FloatArith.mul (oneChunk.getD (chunk * 8 + j) FloatArith.zero)
        ((List.replicate dim x).getD (chunk * 8 + j) FloatArith.zero))) FloatArith.zero = x := by
    intro j member
    have small := List.mem_range.mp member
    have one := getD_replicate 8 (1 : Int) FloatArith.zero (0 * 8 + j) (by omega)
    have row := getD_replicate dim x FloatArith.zero (0 * 8 + j) (by rw [dim]; omega)
    rw [List.range_one, List.foldl_cons, List.foldl_nil, oneChunk, one, row]
    exact (Int.zero_add _).trans (Int.one_mul x)
  have chunks : min (oneChunk.length / 8) ((List.replicate dim x).length / 8) = 1 := by
    rw [List.length_replicate]
    rfl
  rw [dotProduct, SharedVectorStore.dotProduct, chunks, List.map_congr_left column]
  simp [List.range_succ, FloatArith.add, FloatArith.zero]
  omega

theorem scoreOf_two : scoreOf oneChunk twoFloats 0 = 8 ∧ scoreOf oneChunk twoFloats 1 = -8 := by
  obtain ⟨first, second⟩ := record_two dim (1 : Int) (-1)
  rw [scoreOf, scoreOf, twoFloats, first, second, dotProduct_chunk, dotProduct_chunk]
  exact ⟨rfl, rfl⟩

theorem recall_covered_two :
    ∃ floatTop candidates reranked,
      getTopKFloat StdChoices.lists oneChunk twoFloats 2 1 = some floatTop ∧
      getTopKBinaryReranked StdChoices.lists
        (UnstableSelect.ofSort (UnstableSort.ofInsertion fun entry : Nat × Nat => entry.2))
        (List.replicate numBlocks 0) oneChunk twoBits twoFloats 2 1 1 = some reranked ∧
      Smallest (distanceOf (List.replicate numBlocks 0) twoBits) (candidateCount 2 1) (List.range 2)
        candidates ∧
      calculateRecall floatTop reranked = (floatTop.countP candidates.contains, min 1 2) ∧
      (2 ≤ candidateCount 2 1 → calculateRecall floatTop reranked = (min 1 2, min 1 2)) := by
  refine recall_covered StdChoices.lists oneChunk (length_two dim 1 (-1))
    (UnstableSelect.ofSort (UnstableSort.ofInsertion fun entry : Nat × Nat => entry.2))
    (length_two numBlocks _ _) List.length_replicate 1 1 ?_
  intro i iSmall j jSmall same
  rw [← twoFloats] at same
  obtain ⟨first, second⟩ := scoreOf_two
  obtain rfl | rfl : i = 0 ∨ i = 1 := by omega
  · obtain rfl | rfl : j = 0 ∨ j = 1 := by omega
    · rfl
    · rw [first, second] at same
      cases same
  · obtain rfl | rfl : j = 0 ∨ j = 1 := by omega
    · rw [first, second] at same
      cases same
    · rfl

end RecallBench

end OmegaDrive
