import Mathlib.Data.List.MinMax
import Mathlib.Data.List.Perm.Basic
import OmegaDrive.Vector.Rerank

set_option autoImplicit false

namespace OmegaDrive

open TopK OptionLoop

theorem order_injective : Function.Injective Candidate.order := toLex.injective

namespace SharedVectorStore

variable {F : Type} (std : StdChoices)

/-- The vector that is then left out: the last of the scan, unless it is looked at and is nearer
than the farthest of the others. -/
def leftOut (items : Nat → List Candidate) (blocks : List (Nat × Nat)) : Option Candidate := do
  let scanned := blocks.flatMap fun block => items block.2
  let (score, bIdx) ← blocks.getLast?
  let last ← scanned.getLast?
  let top ← scanned.dropLast.argmax Candidate.order
  return if top.1 ≤ last.1 ∨ ((items bIdx).length = 1 ∧ top.1 ≤ score) then last else top

theorem leftOut_split (items : Nat → List Candidate) (blocks : List (Nat × Nat))
    (score bIdx : Nat) (front : List Candidate) (last top : Candidate)
    (block : items bIdx = front ++ [last])
    (farthest : ((blocks.flatMap fun block => items block.2) ++ front).argmax Candidate.order =
      some top) :
    leftOut items (blocks ++ [(score, bIdx)]) =
      some (if top.1 ≤ last.1 ∨ (front = [] ∧ top.1 ≤ score) then last else top) := by
  have scanned : ((blocks ++ [(score, bIdx)]).flatMap fun block => items block.2) =
      (blocks.flatMap fun block => items block.2) ++ front ++ [last] := by
    rw [List.flatMap_append, List.flatMap_singleton, block, List.append_assoc]
  have alone : (front ++ [last]).length = 1 ↔ front = [] := by
    rw [List.length_append, List.length_singleton, ← List.length_eq_zero_iff]
    omega
  simp only [leftOut, scanned, List.getLast?_concat, List.dropLast_concat, farthest, block, alone,
    Option.bind_eq_bind, Option.bind_some]
  rfl

section Scan

variable {std} {dim numBlocks : Nat} {query : List Word} {k : Nat} {shard : CoreShard F}

-- The scan stops before the last block when the heap is full and no vector of it is farther
-- than the block's score.
theorem stops_before (seen front : List Candidate) (top : Candidate) (score : Nat)
    (full : (seen ++ front).length = k) (member : top ∈ seen ++ front)
    (greatest : ∀ other ∈ seen ++ front, other.order ≤ top.order) :
    k ≤ within Prod.fst score seen ↔ front = [] ∧ top.1 ≤ score := by
  rw [List.length_append] at full
  have bound := within_le_length Prod.fst score seen
  constructor
  · intro enough
    obtain rfl : front = [] := List.eq_nil_of_length_eq_zero (by omega)
    rw [List.append_nil] at member
    have all := List.countP_eq_length.mp (show within Prod.fst score seen = seen.length by omega)
    exact ⟨rfl, by simpa using all top member⟩
  · rintro ⟨rfl, near⟩
    rw [List.append_nil] at greatest
    have all := within_all Prod.fst score seen fun other present =>
      Nat.le_trans (order_mono other top (greatest other present)) near
    rw [all, ← full]
    exact Nat.le_refl _

theorem scanBlocks_last (laid : Laid dim numBlocks shard) (width : query.length = numBlocks)
    (score bIdx : Nat)
    (present : ∃ block, shard.blocks[bIdx]? = some block ∧ block.endIdx ≤ shard.keys.length)
    (seen front : List Candidate) (last top : Candidate)
    (items : itemsOf shard (measuredAt numBlocks query shard) bIdx = front ++ [last])
    (heap : (std.heap Candidate.order).Heap)
    (holds : ((std.heap Candidate.order).intoIter heap).Perm seen)
    (full : (seen ++ front).length = k) (member : top ∈ seen ++ front)
    (greatest : ∀ other ∈ seen ++ front, other.order ≤ top.order) :
    ∃ next, scanBlocks std numBlocks query k shard heap [(score, bIdx)] = some next ∧
      ((if top.1 ≤ last.1 ∨ (front = [] ∧ top.1 ≤ score) then last else top) ::
        (std.heap Candidate.order).intoIter next).Perm (last :: (seen ++ front)) := by
  have positive : 0 < k := by
    rw [← full]
    exact List.length_pos_of_mem member
  have room : seen.length ≤ k := by
    rw [← full, List.length_append]
    exact Nat.le_add_right _ _
  have small := smallest_all Prod.fst holds room
  have stops := stops_before seen front top score full member greatest
  rw [scanBlocks_cons laid width heap score bIdx [] present,
    pruned_eq std k positive seen heap score small]
  by_cases stop : front = [] ∧ top.1 ≤ score
  · refine ⟨heap, by simp [stops.mpr stop], ?_⟩
    rw [if_pos (Or.inr stop), stop.1, List.append_nil]
    exact holds.cons last
  · obtain ⟨middle, offered, chosen⟩ := (std.heap Candidate.order).offers_smallest Prod.fst
      order_mono k positive seen front heap small
    have perm := chosen.all (Nat.le_of_eq full)
    obtain ⟨next, taken, left⟩ := (std.heap Candidate.order).offer_full Prod.fst order_mono
      order_injective k middle last top (by rw [BinaryHeap.len, perm.length_eq, full])
      (perm.mem_iff.mpr member) fun other inside => greatest other (perm.mem_iff.mp inside)
    refine ⟨next, ?_, ?_⟩
    · rw [BinaryHeap.offers] at offered
      simp [show ¬ k ≤ within Prod.fst score seen from mt stops.mp stop, items,
        BinaryHeap.offers, offered, taken, scanBlocks]
    · have same : (if top.1 ≤ last.1 ∨ (front = [] ∧ top.1 ≤ score) then last else top) =
          if last.1 < top.1 then top else last := by
        by_cases nearer : last.1 < top.1
        · rw [if_neg (fun either => either.elim (Nat.not_le.mpr nearer) stop), if_pos nearer]
        · rw [if_pos (Or.inl (Nat.not_lt.mp nearer)), if_neg nearer]
      rw [same]
      exact left.trans (perm.cons last)

variable (std) in
theorem scanBlocks_over (laid : Laid dim numBlocks shard) (width : query.length = numBlocks)
    (blocks : List (Nat × Nat)) (score bIdx : Nat)
    (present : ∀ eval ∈ blocks ++ [(score, bIdx)],
      (∃ block, shard.blocks[eval.2]? = some block ∧ block.endIdx ≤ shard.keys.length) ∧
        itemsOf shard (measuredAt numBlocks query shard) eval.2 ≠ [])
    (front : List Candidate) (last top : Candidate)
    (items : itemsOf shard (measuredAt numBlocks query shard) bIdx = front ++ [last])
    (seen : List Candidate) (heap : (std.heap Candidate.order).Heap)
    (holds : ((std.heap Candidate.order).intoIter heap).Perm seen)
    (others : List Candidate)
    (split : others = seen ++ (blocks.flatMap fun block =>
      itemsOf shard (measuredAt numBlocks query shard) block.2) ++ front)
    (full : others.length = k) (member : top ∈ others)
    (greatest : ∀ other ∈ others, other.order ≤ top.order) :
    ∃ next, scanBlocks std numBlocks query k shard heap (blocks ++ [(score, bIdx)]) = some next ∧
      ((if top.1 ≤ last.1 ∨ (front = [] ∧ top.1 ≤ score) then last else top) ::
        (std.heap Candidate.order).intoIter next).Perm (last :: others) := by
  induction blocks generalizing seen heap with
  | nil =>
    rw [List.flatMap_nil, List.append_nil] at split
    subst split
    exact scanBlocks_last laid width score bIdx (present (score, bIdx) (by simp)).1 seen front last top items
      heap holds full member greatest
  | cons eval blocks ih =>
    obtain ⟨minDist, other⟩ := eval
    obtain ⟨here, some_items⟩ := present (minDist, other) (by simp)
    have counts := congrArg List.length split
    have positive := List.length_pos_iff.mpr some_items
    simp only [List.flatMap_cons, List.length_append] at counts positive
    have small := smallest_all Prod.fst holds (show seen.length ≤ k by omega)
    have bound := within_le_length Prod.fst minDist seen
    obtain ⟨middle, offered, chosen⟩ := (std.heap Candidate.order).offers_smallest Prod.fst
      order_mono k (by omega) seen (itemsOf shard (measuredAt numBlocks query shard) other) heap
      small
    have perm := chosen.all (by rw [List.length_append]; omega)
    rw [List.flatMap_cons, ← List.append_assoc] at split
    obtain ⟨next, run, left⟩ := ih
      (fun eval inside => present eval (List.mem_cons_of_mem _ inside)) _ middle perm split
    refine ⟨next, ?_, left⟩
    rw [List.cons_append, scanBlocks_cons laid width heap minDist other _ here,
      pruned_eq std k (by omega) seen heap minDist small]
    simp only [show ¬ k ≤ within Prod.fst minDist seen by omega, decide_false, Option.bind_some,
      offered]
    exact run

theorem itemsOf_nonempty (laid : Laid dim numBlocks shard) (place : Nat → Candidate)
    (eval : Nat × Nat) (member : eval ∈ ordered std query shard) :
    itemsOf shard place eval.2 ≠ [] := by
  obtain ⟨block, found, _⟩ := ordered_present laid eval member
  have inside := List.mem_of_getElem? found
  rw [laid.blocks_eq] at inside
  obtain ⟨bIdx, below, rfl⟩ := List.mem_map.mp inside
  have started := List.mem_range.mp below
  rw [itemsOf, found]
  simp only [CoreShard.startIdx_computeSignature, CoreShard.endIdx_computeSignature]
  intro nothing
  have count := congrArg List.length nothing
  rw [List.length_map, List.length_range', List.length_nil] at count
  omega

end Scan

theorem divide_all (k : Nat) (items : Nat → List Candidate) (before : List Candidate)
    (blocks : List (Nat × Nat))
    (room : before.length + (blocks.flatMap fun block => items block.2).length ≤ k) :
    (divide k items before blocks).2 = [] := by
  induction blocks generalizing before with
  | nil => rfl
  | cons block blocks ih =>
    obtain ⟨score, bIdx⟩ := block
    rw [List.flatMap_cons, List.length_append] at room
    dsimp only at room
    have later := ih (before ++ items bIdx) (by rw [List.length_append]; omega)
    have bound := within_le_length Prod.fst score before
    rw [divide]
    split
    next =>
      have nothing : items bIdx = [] := List.eq_nil_of_length_eq_zero (by omega)
      rw [nothing, List.append_nil] at later
      simp [nothing, later]
    next => exact later

section Places

variable (query : List Word) (budget numBlocks : Nat) (shard : CoreShard F)

def missedOf : List Nat :=
  if shard.keys.length ≤ budget then []
  else (leftOut (itemsOf shard (measuredAt numBlocks query shard))
    (ordered std query shard)).toList.map Prod.snd

def reachedOf : List Nat :=
  (List.range shard.keys.length).filter fun i =>
    decide (i ∉ missedOf std query budget numBlocks shard)

theorem reachedOf_perm (kept : List Nat)
    (split : (missedOf std query budget numBlocks shard ++ kept).Perm
      (List.range shard.keys.length)) :
    kept.Perm (reachedOf std query budget numBlocks shard) := by
  have distinct := split.nodup_iff.mpr List.nodup_range
  obtain ⟨_, keptDistinct, apart⟩ := List.nodup_append.mp distinct
  apply (List.perm_ext_iff_of_nodup keptDistinct (List.nodup_range.filter _)).mpr
  intro i
  rw [List.mem_filter, ← split.mem_iff, List.mem_append, decide_eq_true_eq]
  constructor
  · intro inside
    exact ⟨Or.inr inside, fun missed => apart i missed i inside rfl⟩
  · rintro ⟨missed | inside, outside⟩
    · exact absurd missed outside
    · exact inside

variable {numBlocks shard query budget}

theorem scanReserved_enough {dim : Nat} (laid : Laid dim numBlocks shard)
    (candidates : List Candidate) (room : shard.keys.length ≤ budget)
    (small : Smallest Prod.fst budget
      (divide budget (itemsOf shard (measuredAt numBlocks query shard)) []
        (ordered std query shard)).1 candidates) :
    (candidates.map Prod.snd).Perm (List.range shard.keys.length) := by
  have cover := itemsOf_perm std query laid (measuredAt numBlocks query shard)
  have size := cover.length_eq
  rw [List.length_map, List.length_range] at size
  have divided := divide_perm budget (itemsOf shard (measuredAt numBlocks query shard)) []
    (ordered std query shard)
  rw [divide_all budget _ [] _ (by rw [List.length_nil, size]; omega), List.append_nil] at divided
  have whole := divided.trans cover
  have kept := (small.all (by rw [whole.length_eq]; simpa using room)).trans whole
  have places := kept.map Prod.snd
  rw [List.map_map] at places
  exact places.trans (List.Perm.of_eq (List.map_id _))

theorem scanReserved_over {dim : Nat} (laid : Laid dim numBlocks shard)
    (width : query.length = numBlocks) (positive : 0 < budget)
    (above : shard.keys.length = budget + 1) :
    ∃ candidates missed, scanReserved std numBlocks query budget shard = some candidates ∧
      leftOut (itemsOf shard (measuredAt numBlocks query shard)) (ordered std query shard) =
        some missed ∧
      (missed.2 :: candidates.map Prod.snd).Perm (List.range shard.keys.length) := by
  have cover := itemsOf_perm std query laid (measuredAt numBlocks query shard)
  have size := cover.length_eq
  rw [List.length_map, List.length_range] at size
  have some_blocks : ordered std query shard ≠ [] := by
    intro nothing
    rw [nothing, List.flatMap_nil, List.length_nil] at size
    omega
  obtain ⟨blocks, ⟨score, bIdx⟩, order⟩ :=
    (List.eq_nil_or_concat (ordered std query shard)).resolve_left some_blocks
  rw [List.concat_eq_append] at order
  have some_items := itemsOf_nonempty laid (measuredAt numBlocks query shard) (score, bIdx)
    (by rw [order]; simp)
  obtain ⟨front, last, items⟩ := (List.eq_nil_or_concat _).resolve_left some_items
  rw [List.concat_eq_append] at items
  have scanned : ((ordered std query shard).flatMap fun eval =>
      itemsOf shard (measuredAt numBlocks query shard) eval.2) =
        (blocks.flatMap fun eval => itemsOf shard (measuredAt numBlocks query shard) eval.2) ++
          front ++ [last] := by
    rw [order, List.flatMap_append, List.flatMap_singleton, items, List.append_assoc]
  rw [scanned] at size cover
  generalize others_eq : (blocks.flatMap fun eval =>
    itemsOf shard (measuredAt numBlocks query shard) eval.2) ++ front = others at *
  rw [List.length_append, List.length_singleton] at size
  obtain ⟨top, farthest⟩ : ∃ top, others.argmax Candidate.order = some top := by
    apply Option.ne_none_iff_exists'.mp
    intro nothing
    rw [List.argmax_eq_none] at nothing
    rw [nothing, List.length_nil] at size
    omega
  obtain ⟨member, greatest, _⟩ := List.argmax_eq_some_iff.mp farthest
  obtain ⟨heap, run, left⟩ := scanBlocks_over std (k := budget) laid width blocks score
    bIdx (fun eval inside => ⟨ordered_present laid eval (by rwa [order]),
      itemsOf_nonempty laid _ eval (by rwa [order])⟩)
    front last top items [] (std.heap Candidate.order).empty
    (by rw [(std.heap Candidate.order).intoIter_empty]) others (by rw [← others_eq]; rfl)
    (by omega) member greatest
  refine ⟨(std.heap Candidate.order).intoIter heap,
    if top.1 ≤ last.1 ∨ (front = [] ∧ top.1 ≤ score) then last else top, ?_, ?_, ?_⟩
  · rw [scanReserved, scanFrom, blockEvals_eq laid width]
    simp only [Option.bind_eq_bind, Option.bind_some]
    rw [ordered] at order
    rw [order, run]
    rfl
  · rw [order]
    exact leftOut_split _ blocks score bIdx front last top items (by rw [others_eq, farthest])
  · have places := (left.trans (List.perm_append_singleton _ _).symm).trans cover |>.map Prod.snd
    rw [List.map_map] at places
    exact places.trans (List.Perm.of_eq (List.map_id _))

theorem scanReserved_kept (store : SharedVectorStore F) (formed : WellFormed store)
    (width : query.length = store.numBlocks) (positive : 0 < budget)
    (member : shard ∈ store.shards) (few : shard.keys.length ≤ budget + 1) :
    ∃ candidates, scanReserved std store.numBlocks query budget shard = some candidates ∧
      (missedOf std query budget store.numBlocks shard ++ candidates.map Prod.snd).Perm
        (List.range shard.keys.length) := by
  have laid := formed.shards shard member
  by_cases room : shard.keys.length ≤ budget
  · obtain ⟨candidates, scanned, small⟩ :=
      scanReserved_measured std query budget store formed width positive shard member
    refine ⟨candidates, scanned, ?_⟩
    rw [missedOf, if_pos room, List.nil_append]
    exact scanReserved_enough std laid candidates room small
  · obtain ⟨candidates, missed, scanned, out, perm⟩ :=
      scanReserved_over std laid width positive (by omega)
    refine ⟨candidates, scanned, ?_⟩
    rw [missedOf, if_neg room, out]
    exact perm

end Places

section Scores

variable [FloatArith F] (store : SharedVectorStore F) (queryBin : List Word)
  (queryFloat : List F) (k : Nat)

def scoresAt (places : CoreShard F → List Nat) : List Int :=
  store.shards.flatMap fun shard => (places shard).map (scoreAt store.dim queryFloat shard)

def scores : List Int := scoresAt store queryFloat fun shard => List.range shard.keys.length

def missedScores : List Int :=
  scoresAt store queryFloat (missedOf std queryBin (rPerShard store k) store.numBlocks)

def reachedScores : List Int :=
  scoresAt store queryFloat (reachedOf std queryBin (rPerShard store k) store.numBlocks)

variable {store queryBin queryFloat k}

omit [FloatArith F] in
theorem reachedOf_missedOf {budget numBlocks : Nat} {shard : CoreShard F} (kept : List Nat)
    (split : (missedOf std queryBin budget numBlocks shard ++ kept).Perm
      (List.range shard.keys.length)) :
    (reachedOf std queryBin budget numBlocks shard ++
      missedOf std queryBin budget numBlocks shard).Perm (List.range shard.keys.length) :=
  (List.perm_append_comm.trans
    ((reachedOf_perm std queryBin budget numBlocks shard kept split).symm.append_left _)).trans split

theorem parts_smallest (dim : Nat) (places : CoreShard F → List Nat) (shards : List (CoreShard F))
    (shardCandidates : List (List Candidate))
    (each : List.Forall₂ (fun shard candidates =>
      (candidates.map Prod.snd).Perm (places shard)) shards shardCandidates)
    (shardReranked : List (List RerankCandidate))
    (related : List.Forall₂ (fun (pair : CoreShard F × List Candidate) best =>
        Smallest RerankCandidate.order k
          (pair.2.map fun candidate => scoredAt dim queryFloat pair.1 candidate.2) best)
      (shards.zip shardCandidates) shardReranked) :
    List.Forall₂ (Smallest id k)
      (shards.map fun shard => (places shard).map fun i => -scoreAt dim queryFloat shard i)
      (shardReranked.map fun best => best.map RerankCandidate.order) := by
  induction each generalizing shardReranked with
  | nil =>
    cases related
    exact .nil
  | @cons shard candidates shards shardCandidates head tail ih =>
    rw [List.zip_cons_cons] at related
    cases related with
    | cons best rest =>
      refine .cons ?_ (ih _ rest)
      have chosen := best.map
      rw [List.map_map] at chosen
      have perm := head.map fun i => -scoreAt dim queryFloat shard i
      rw [List.map_map] at perm
      exact chosen.perm perm.symm

theorem offered_order (shardReranked : List (List RerankCandidate))
    (lossless : ∀ best ∈ shardReranked, ∀ c ∈ best,
      toFixed (ofFixed c.scoreInt : F) = c.scoreInt) :
    (offered F shardReranked).map RerankCandidate.order =
      (shardReranked.map fun best => best.map RerankCandidate.order).flatten := by
  rw [offered, List.map_flatten, List.map_map]
  congr 1
  calc shardReranked.zipIdx.map _
      = shardReranked.zipIdx.map
          ((fun best => best.map RerankCandidate.order) ∘ Prod.fst) := by
        apply List.map_congr_left
        intro entry member
        have present := List.mem_of_getElem? (List.mem_zipIdx_iff_getElem?.mp member)
        simp only [Function.comp_apply, List.map_map]
        apply List.map_congr_left
        intro c inside
        simp [handedOver, RerankCandidate.order, lossless entry.1 present c inside]
    _ = shardReranked.map fun best => best.map RerankCandidate.order := by
        rw [← List.map_map, List.zipIdx_map_fst]

theorem offered_lossless (shardReranked : List (List RerankCandidate))
    (lossless : ∀ best ∈ shardReranked, ∀ c ∈ best,
      toFixed (ofFixed c.scoreInt : F) = c.scoreInt)
    (c : RerankCandidate) (member : c ∈ offered F shardReranked) :
    toFixed (ofFixed c.scoreInt : F) = c.scoreInt := by
  obtain ⟨part, present, inPart⟩ := List.mem_flatten.mp member
  obtain ⟨⟨best, shardIdx⟩, located, rfl⟩ := List.mem_map.mp present
  obtain ⟨original, keptIn, rfl⟩ := List.mem_map.mp inPart
  have bestIn := List.mem_of_getElem? (List.mem_zipIdx_iff_getElem?.mp located)
  have exact' := lossless best bestIn original keptIn
  rw [handedOver, exact', exact']

theorem reranked_lossless (shardCandidates : List (List Candidate))
    (inside : List.Forall₂ (fun (shard : CoreShard F) candidates =>
        ∀ candidate ∈ candidates, candidate.2 < shard.keys.length) store.shards shardCandidates)
    (shardReranked : List (List RerankCandidate))
    (related : List.Forall₂ (fun (pair : CoreShard F × List Candidate) best =>
        Smallest RerankCandidate.order k
          (pair.2.map fun candidate => scoredAt store.dim queryFloat pair.1 candidate.2) best)
      (store.shards.zip shardCandidates) shardReranked)
    (lossless : ∀ score ∈ store.scores queryFloat, toFixed (ofFixed score : F) = score) :
    ∀ best ∈ shardReranked, ∀ c ∈ best, toFixed (ofFixed c.scoreInt : F) = c.scoreInt := by
  intro best member c present
  obtain ⟨pair, paired, small⟩ := related_mem related best member
  obtain ⟨candidate, wasCandidate, rfl⟩ := List.mem_map.mp (small.subset c present)
  refine lossless _ (List.mem_flatMap.mpr ⟨pair.1, (List.of_mem_zip paired).1, ?_⟩)
  exact List.mem_map_of_mem (List.mem_range.mpr
    ((List.forall₂_iff_zip.mp inside).2 paired candidate wasCandidate))

theorem searchReranked_reached (formed : WellFormed store)
    (width : queryBin.length = store.numBlocks) (positive : 0 < k)
    (room : store.len ≠ 0 → Reserved store k)
    (few : ∀ shard ∈ store.shards, shard.keys.length ≤ rPerShard store k + 1)
    (lossless : ∀ score ∈ store.scores queryFloat, toFixed (ofFixed score : F) = score) :
    ∃ results, store.searchReranked std queryBin queryFloat k = some results ∧
      Smallest (fun score : Int => -score) k (store.reachedScores std queryBin queryFloat k)
        (results.map fun result => toFixed result.2) := by
  by_cases stored : store.len = 0
  · refine ⟨[], by simp [searchReranked, stored], ?_⟩
    have nothing : store.reachedScores std queryBin queryFloat k = [] := by
      apply List.flatMap_eq_nil_iff.mpr
      intro shard member
      simp [reachedOf, keys_of_len store stored shard member]
    rw [nothing]
    exact smallest_nil _ _
  have budget : 0 < rPerShard store k := Nat.lt_of_lt_of_le positive (Nat.le_max_right _ _)
  obtain ⟨shardCandidates, scanned, each⟩ := mapM_related _ _ store.shards fun shard member =>
    scanReserved_kept std store formed width budget member (few shard member)
  have inside : List.Forall₂ (fun (shard : CoreShard F) candidates =>
      ∀ candidate ∈ candidates, candidate.2 < shard.keys.length) store.shards shardCandidates :=
    each.imp fun shard candidates split => by
      intro candidate member
      exact List.mem_range.mp (split.mem_iff.mp
        (List.mem_append_right _ (List.mem_map_of_mem member)))
  obtain ⟨shardReranked, places, results, related, chosen, found, same⟩ :=
    searchReranked_stages std store queryBin queryFloat k formed positive stored (room stored)
      shardCandidates scanned inside
  have kept := reranked_lossless shardCandidates inside shardReranked related lossless
  have parts := parts_smallest store.dim (reachedOf std queryBin (rPerShard store k) store.numBlocks)
    store.shards shardCandidates
    (each.imp fun shard candidates split => reachedOf_perm std queryBin _ _ shard _ split)
    shardReranked related
  have merged := chosen.map
  rw [offered_order shardReranked kept] at merged
  have whole := (Smallest.flatten parts merged).map_of (fun order : Int => -order)
    (fun score : Int => -score) fun order => Int.neg_neg order
  have reached : store.reachedScores std queryBin queryFloat k =
      ((store.shards.map fun shard =>
        (reachedOf std queryBin (rPerShard store k) store.numBlocks shard).map fun i =>
          -scoreAt store.dim queryFloat shard i).flatten).map fun order => -order := by
    simp [reachedScores, scoresAt, List.flatMap, List.map_flatten, Function.comp_def]
  have returned : results.map (fun result => toFixed result.2) =
      (places.map RerankCandidate.order).map fun order => -order := by
    calc results.map (fun result => toFixed result.2)
        = (results.map Prod.snd).map toFixed := by rw [List.map_map]; rfl
      _ = places.map fun c => toFixed (ofFixed c.scoreInt : F) := by
          rw [same, List.map_map]
          rfl
      _ = places.map RerankCandidate.scoreInt :=
          List.map_congr_left fun c member =>
            offered_lossless shardReranked kept c (chosen.subset c member)
      _ = (places.map RerankCandidate.order).map fun order => -order := by
          simp [RerankCandidate.order, Function.comp_def]
  refine ⟨results, found, ?_⟩
  rw [reached, returned]
  exact whole

theorem reached_missed (formed : WellFormed store) (width : queryBin.length = store.numBlocks)
    (positive : 0 < k)
    (few : ∀ shard ∈ store.shards, shard.keys.length ≤ rPerShard store k + 1) :
    (store.reachedScores std queryBin queryFloat k ++
      store.missedScores std queryBin queryFloat k).Perm (store.scores queryFloat) := by
  have budget : 0 < rPerShard store k := Nat.lt_of_lt_of_le positive (Nat.le_max_right _ _)
  refine (List.flatMap_append_perm _ _ _).trans (List.Perm.flatMap_left _ fun shard member => ?_)
  obtain ⟨candidates, _, split⟩ :=
    scanReserved_kept std store formed width budget member (few shard member)
  rw [← List.map_append]
  exact (reachedOf_missedOf std _ split).map _

end Scores

-- Up to 1000 vectors, a shard holds at most one more than the coarse stage keeps of it.
theorem shard_sizes [FloatArith F] (numShards dim : Nat) (some_shards : 0 < numShards)
    (ops : List (StoreOp F)) (k : Nat) :
    let store := (empty numShards dim).run ops
    store.len ≤ 1000 → ∀ shard ∈ store.shards, shard.keys.length ≤ rPerShard store k + 1 := by
  intro store few shard member
  have placed : Placed numShards dim store (added ops) := placed_run numShards dim ops
  have count : store.len = (added ops).length := len_run numShards dim some_shards ops
  obtain ⟨s, at_s⟩ := List.mem_iff_getElem?.mp member
  have size : shard.keys.length = (store.len + numShards - 1 - s) / numShards := by
    rw [count]
    exact placed.length_keys s shard at_s (by omega)
  have budget : store.len / numShards ≤ rPerShard store k := by
    rw [rPerShard, placed.shards_length]
    refine Nat.le_trans (Nat.div_le_div_right ?_) (Nat.le_max_left _ _)
    omega
  calc shard.keys.length
      = (store.len + numShards - 1 - s) / numShards := size
    _ ≤ (store.len + numShards) / numShards := Nat.div_le_div_right (by omega)
    _ = store.len / numShards + 1 := Nat.add_div_right _ some_shards
    _ ≤ rPerShard store k + 1 := Nat.succ_le_succ budget

theorem searchReranked_exact [FloatArith F] (numShards dim : Nat) (some_shards : 0 < numShards)
    (aligned : dim % 64 = 0) (ops : List (StoreOp F)) (floats : List F) (k : Nat)
    (positive : 0 < k) :
    let store := (empty numShards dim).run ops
    let query := store.quantize floats
    store.len ≤ 1000 →
    (∀ score ∈ store.scores floats, toFixed (ofFixed score : F) = score) →
    ((∃ results, store.searchReranked std query floats k = some results ∧
        Smallest (fun score : Int => -score) k (store.scores floats)
          (results.map fun result => toFixed result.2)) ↔
      (store.len ≠ 0 → Reserves 24 k) ∧ ∀ missed ∈ store.missedScores std query floats k,
        k ≤ (store.reachedScores std query floats k).countP fun score => decide (missed ≤ score)) := by
  intro store query few lossless
  have formed : WellFormed store := wellFormed_runEmpty numShards dim aligned ops
  have width : query.length = store.numBlocks := length_quantize store floats
  have sizes : ∀ shard ∈ store.shards, shard.keys.length ≤ rPerShard store k + 1 :=
    shard_sizes numShards dim some_shards ops k few
  by_cases room : store.len ≠ 0 → Reserves 24 k
  swap
  · obtain ⟨stored, beyond⟩ := Classical.not_imp.mp room
    have refused := searchReranked_refused std store k query floats stored
      fun reserved => beyond reserved.heaps
    simp [refused, stored, beyond]
  rw [and_iff_right room]
  obtain ⟨results, found, small⟩ := searchReranked_reached std formed width positive
    (fun stored => reserved_of_heaps store k (by omega) (room stored)) sizes lossless
  have perm : (store.reachedScores std query floats k ++
      store.missedScores std query floats k).Perm (store.scores floats) :=
    reached_missed std formed width positive sizes
  have answer := smallest_with_iff (store.missedScores std query floats k) small
  simp only [within, Int.neg_le_neg_iff] at answer
  rw [← answer, found]
  constructor
  · rintro ⟨other, same, whole⟩
    cases Option.some.inj same
    exact whole.perm perm
  · intro whole
    exact ⟨results, rfl, whole.perm perm.symm⟩

section FiveVectors

def ones : List Int := [1, 1, 1, 1, 1, 1, 1, 1]

def fiveAdds (last : List Int) : List (StoreOp Int) :=
  [.add (AirKey.fromBytes (ascii "near")) ones ones,
    .add (AirKey.fromBytes (ascii "b")) [0] [0],
    .add (AirKey.fromBytes (ascii "c")) [0] [0],
    .add (AirKey.fromBytes (ascii "d")) [0] [0],
    .add (AirKey.fromBytes (ascii "last")) last last]

-- On four shards the first of the vectors and the last are in the same one.
def fiveVectors (last : List Int) : SharedVectorStore Int := (empty 4 64).run (fiveAdds last)

def lowerLast : List Int := [-1, 5]

def bestLast : List Int := [-1, 20]

-- The last vector is left out, and has a lower score than the first.
theorem searchReranked_exact_five :
    (fiveVectors lowerLast).missedScores StdChoices.lists
        ((fiveVectors lowerLast).quantize ones) ones 1 = [40000000] ∧
      ∃ results, (fiveVectors lowerLast).searchReranked StdChoices.lists
          ((fiveVectors lowerLast).quantize ones) ones 1 = some results ∧
        Smallest (fun score : Int => -score) 1 ((fiveVectors lowerLast).scores ones)
          (results.map fun result => toFixed result.2) := by
  have missed : (fiveVectors lowerLast).missedScores StdChoices.lists
      ((fiveVectors lowerLast).quantize ones) ones 1 = [40000000] := by
    decide +kernel
  have enough : 1 ≤ ((fiveVectors lowerLast).reachedScores StdChoices.lists
      ((fiveVectors lowerLast).quantize ones) ones 1).countP fun score =>
        decide (40000000 ≤ score) := by
    decide +kernel
  refine ⟨missed, (searchReranked_exact StdChoices.lists 4 64 (by decide) rfl
    (fiveAdds lowerLast) ones 1 (by decide) (by decide) (by decide +kernel)).mpr
      ⟨fun _ => by decide, ?_⟩⟩
  intro score member
  rw [← fiveVectors, missed, List.mem_singleton] at member
  rw [member]
  exact enough

-- Asking for one, the best of five vectors is left out.
theorem best_left_out :
    (fiveVectors bestLast).len = 5 ∧
      (∀ score ∈ (fiveVectors bestLast).scores ones, toFixed (ofFixed score : Int) = score) ∧
      ((fiveVectors bestLast).searchReranked StdChoices.lists ((fiveVectors bestLast).quantize ones) ones
        1).map (fun results => results.map fun result => toFixed result.2) = some [80000000] ∧
      ¬ Smallest (fun score : Int => -score) 1 ((fiveVectors bestLast).scores ones) [80000000] := by
  refine ⟨by decide, by decide +kernel, by decide +kernel, fun whole => ?_⟩
  have chosen := whole.within_eq (-190000000)
  have none_chosen : within (fun score : Int => -score) (-190000000) [80000000] = 0 := by decide
  have one_stored : within (fun score : Int => -score) (-190000000)
      ((fiveVectors bestLast).scores ones) = 1 := by
    decide +kernel
  omega

end FiveVectors

end SharedVectorStore

end OmegaDrive
