import OmegaDrive.Shared.Threads
import OmegaDrive.Vector.Rerank

set_option autoImplicit false

namespace OmegaDrive

open TopK OptionLoop

/-! One `search_reranked` among connections that add and clear. A critical section of a shard's
lock is one action; only the last stage holds locks from one action to the next. -/

structure SearchCall (F : Type) where
  queryBin : List Word
  queryFloat : List F
  k : Nat

inductive SearchStep (F : Type) where
  | count (shardIdx totalVectors : Nat)
  | scan (rPerShard : Nat) (shardCandidates : List (List Candidate))
  | rerank (shardCandidates : List (List Candidate)) (shardReranked : List (List (Nat × F)))
  | acquire (shardIdx : Nat) (finalResults : List RerankCandidate)
  | lookup (finalResults : List RerankCandidate)

inductive StoreAction (F : Type) where
  -- `fetch_add`, which says which shard the vector goes to.
  | add (key : AirKey) (quantized floats : List F)
  | write (shardIdx : Nat) (key : AirKey) (quantized floats : List F)
  | clearShard (shardIdx : Nat)
  | resetCounter
  | search (step : SearchStep F)

def StoreOp.actions {F : Type} (numShards : Nat) : StoreOp F → List (StoreAction F)
  | .add key quantized floats => [.add key quantized floats]
  | .clear => (List.range numShards).map .clearShard ++ [.resetCounter]

/-- The store; how many shards' read locks the search holds; every vector that was ever added; and
what the search answered, where `some none` is a panic. -/
structure Searched (F : Type) where
  store : SharedVectorStore F
  held : Nat
  history : List (Added F)
  answer : Option (Option (List (AirKey × F)))

namespace SearchStep

variable {F : Type} [FloatArith F]

def carries (shardIdx : Nat) : SearchStep F → List (Nat × Option Int)
  | .count _ _ => []
  | .scan _ shardCandidates =>
      (shardCandidates[shardIdx]?.getD []).map fun candidate => (candidate.2, none)
  | .rerank shardCandidates shardReranked =>
      if shardIdx < shardReranked.length then
        (shardReranked[shardIdx]?.getD []).map fun (localIdx, score) =>
          (localIdx, some (SharedVectorStore.toFixed score))
      else (shardCandidates[shardIdx]?.getD []).map fun candidate => (candidate.2, none)
  | .acquire _ finalResults | .lookup finalResults =>
      (finalResults.filter fun c => decide (c.shardIdx = shardIdx)).map fun c =>
        (c.localIdx, some c.scoreInt)

/-- How many shards' read locks are held before the step. -/
def held (numShards : Nat) : SearchStep F → Nat
  | .acquire shardIdx _ => shardIdx
  | .lookup _ => numShards
  | _ => 0

end SearchStep

namespace SharedVectorStore

variable {F : Type} [FloatArith F] (std : StdChoices)

-- `none` is a panic. Each loop goes on with the shard whose result is still missing. The heaps
-- are granted: a search that is refused one indexes nothing and answers nothing.
def searchStep (call : SearchCall F) (store : SharedVectorStore F) :
    SearchStep F → Option (SearchStep F ⊕ List (AirKey × F))
  | .count shardIdx totalVectors =>
    match store.shards[shardIdx]? with
    | some shard => some (.inl (.count (shardIdx + 1) (totalVectors + shard.keys.length)))
    | none =>
      if totalVectors = 0 then some (.inr [])
      else
        let r := min (max (totalVectors / 500) 1000) totalVectors
        some (.inl (.scan (max (r / store.shards.length) call.k) []))
  | .scan rPerShard shardCandidates =>
    match store.shards[shardCandidates.length]? with
    | some shard => do
      let candidates ← scanReserved std store.numBlocks call.queryBin rPerShard shard
      return .inl (.scan rPerShard (shardCandidates ++ [candidates]))
    | none => some (.inl (.rerank shardCandidates []))
  | .rerank shardCandidates shardReranked =>
    match store.shards[shardReranked.length]?, shardCandidates[shardReranked.length]? with
    | some shard, some candidates => do
      let best ← rerankReserved std store.dim call.queryFloat call.k shard candidates
      return .inl (.rerank shardCandidates (shardReranked ++ [best]))
    | _, _ => some (.inl (.acquire 0 (mergeReranked std call.k shardReranked)))
  | .acquire shardIdx finalResults =>
    match store.shards[shardIdx]? with
    | some _ => some (.inl (.acquire (shardIdx + 1) finalResults))
    | none => some (.inl (.lookup finalResults))
  | .lookup finalResults => do
    let results ← finalResults.mapM fun c => do
      let key ← store.keyAt c.shardIdx c.localIdx
      return (key, ofFixed c.scoreInt)
    return .inr results

end SharedVectorStore

namespace Searched

open SharedVectorStore

variable {F : Type} [FloatArith F] (std : StdChoices) (call : SearchCall F)

-- A writer of a shard whose read lock is held waits.
def performWrite (shared : Searched F) : StoreAction F → Searched F × List (StoreAction F)
  | .add key quantized floats =>
    let idx := shared.store.writeCounter
    ({ shared with store := { shared.store with writeCounter := (idx + 1) % 2 ^ 64 } },
      [.write (idx % shared.store.shards.length) key quantized floats])
  | .write shardIdx key quantized floats =>
    if shardIdx < shared.held then (shared, [.write shardIdx key quantized floats])
    else
      let store := shared.store
      ({ shared with
          store := { store with
            shards := store.shards.modify shardIdx
              (addToShard store.dim store.numBlocks key (store.quantize quantized) floats) }
          history := shared.history ++ [⟨key, quantized, floats⟩] }, [])
  | .clearShard shardIdx =>
    if shardIdx < shared.held then (shared, [.clearShard shardIdx])
    else
      ({ shared with store := { shared.store with
          shards := shared.store.shards.modify shardIdx fun _ => CoreShard.new } }, [])
  | .resetCounter => ({ shared with store := { shared.store with writeCounter := 0 } }, [])
  | .search _ => (shared, [])

def performSearch (shared : Searched F) (step : SearchStep F) :
    Searched F × List (StoreAction F) :=
  match searchStep std call shared.store step with
  | none => ({ shared with held := 0, answer := some none }, [])
  | some (.inl next) =>
    ({ shared with held := next.held shared.store.shards.length }, [.search next])
  | some (.inr results) => ({ shared with held := 0, answer := some (some results) }, [])

-- The search is a thread of its own, beside the connections.
def perform {ι : Type} (thread : Option ι) (shared : Searched F) (action : StoreAction F) :
    Searched F × List (StoreAction F) :=
  match thread, action with
  | none, .search step => performSearch std call shared step
  | _, action => performWrite shared action

end Searched

section Threads

variable {ι F : Type}

def searching (store : SharedVectorStore F) (requests : ι → List (StoreOp F)) :
    Threads (Option ι) (Searched F) (StoreAction F) where
  shared := { store, held := 0, history := [], answer := none }
  todo
    | none => [.search (.count 0 0)]
    | some connection => (requests connection).flatMap (StoreOp.actions store.shards.length)

end Threads

namespace SharedVectorStore

variable {F : Type} [FloatArith F]

def Row (dim : Nat) (shard : CoreShard F) (i : Nat) (vector : Added F) : Prop :=
  shard.keys[i]? = some vector.key ∧ floatRow dim shard i = padFloats dim vector.floats

def VectorAt (store : SharedVectorStore F) (history : List (Added F)) (shardIdx localIdx : Nat)
    (vector : Added F) : Prop :=
  vector ∈ history ∧ ∃ shard, store.shards[shardIdx]? = some shard ∧
    Row store.dim shard localIdx vector

-- The fixed-point score after its passage through an `f32`.
def foundAt (dim : Nat) (queryFloat floats : List F) : Int :=
  toFixed (ofFixed (toFixed (dotProduct queryFloat (padFloats dim floats))) : F)

theorem row_addToShard {dim numBlocks : Nat} {shard : CoreShard F}
    (laid : Laid dim numBlocks shard) (key : AirKey) (bits : List Word) (floats : List F) (i : Nat)
    (vector : Added F) (row : Row dim shard i vector) :
    Row dim (addToShard dim numBlocks key bits floats shard) i vector := by
  obtain ⟨keyed, same⟩ := row
  have inside := (List.getElem?_eq_some_iff.mp keyed).1
  have rows : (i + 1) * dim ≤ shard.keys.length * dim := Nat.mul_le_mul_right _ inside
  rw [Nat.add_mul, Nat.one_mul, ← laid.float_length] at rows
  refine ⟨?_, ?_⟩
  · simp only [addToShard, CoreShard.rebuildBlocks]
    rw [List.getElem?_append_left inside, keyed]
  · rw [← same]
    simp only [floatRow, addToShard, CoreShard.rebuildBlocks]
    rw [List.drop_append_of_le_length (by omega), List.take_append_of_le_length]
    rw [List.length_drop]
    omega

theorem row_added {dim numBlocks : Nat} {shard : CoreShard F} (laid : Laid dim numBlocks shard)
    (key : AirKey) (quantized : List F) (bits : List Word) (floats : List F) :
    Row dim (addToShard dim numBlocks key bits floats shard) shard.keys.length
      ⟨key, quantized, floats⟩ := by
  refine ⟨by simp [addToShard, CoreShard.rebuildBlocks], ?_⟩
  simp only [floatRow, addToShard, CoreShard.rebuildBlocks]
  rw [← laid.float_length, List.drop_left, List.take_of_length_le (by rw [length_padFloats])]

variable {store : SharedVectorStore F} {history : List (Added F)}

theorem VectorAt.write (formed : WellFormed store) {s i : Nat} {vector : Added F}
    (here : VectorAt store history s i vector) (shardIdx : Nat) (key : AirKey) (bits : List Word)
    (floats : List F) (more : List (Added F)) :
    VectorAt { store with
      shards := store.shards.modify shardIdx
        (addToShard store.dim store.numBlocks key bits floats) } (history ++ more) s i vector := by
  obtain ⟨added, shard, found, row⟩ := here
  refine ⟨List.mem_append_left _ added, ?_⟩
  rw [List.getElem?_modify, found]
  by_cases same : shardIdx = s
  · refine ⟨addToShard store.dim store.numBlocks key bits floats shard, by simp [same], ?_⟩
    exact row_addToShard (formed.shards shard (List.mem_of_getElem? found)) key bits floats i vector row
  · exact ⟨shard, by simp [same], row⟩

omit [FloatArith F] in
theorem getElem?_cleared {shardIdx s : Nat} (other : shardIdx ≠ s) :
    (store.shards.modify shardIdx fun _ => CoreShard.new)[s]? = store.shards[s]? := by
  rw [List.getElem?_modify]
  simp [other]

end SharedVectorStore

open SharedVectorStore

section Invariant

variable {ι F : Type} [FloatArith F] {call : SearchCall F}

structure Carried (call : SearchCall F) (shared : Searched F) (step : SearchStep F) : Prop where
  places : ∀ s, ∀ place ∈ step.carries s, ∃ vector,
    VectorAt shared.store shared.history s place.1 vector ∧
      ∀ score ∈ place.2, score = foundAt shared.store.dim call.queryFloat vector.floats
  budget : ∀ rPerShard shardCandidates, step = .scan rPerShard shardCandidates → 0 < rPerShard

def Found (call : SearchCall F) (dim : Nat) (history : List (Added F)) (pair : AirKey × F) : Prop :=
  ∃ vector ∈ history, vector.key = pair.1 ∧
    pair.2 = ofFixed (foundAt dim call.queryFloat vector.floats)

def Answered (call : SearchCall F) (shared : Searched F) : Prop :=
  ∀ answer ∈ shared.answer, ∃ results, answer = some results ∧
    ∀ pair ∈ results, Found call shared.store.dim shared.history pair

structure Stored (call : SearchCall F) (shared : Searched F) : Prop where
  formed : WellFormed shared.store
  width : call.queryBin.length = shared.store.numBlocks
  rows : ∀ s shard, shared.store.shards[s]? = some shard → ∀ i < shard.keys.length,
    ∃ vector, VectorAt shared.store shared.history s i vector

structure Consistent (call : SearchCall F) (dim : Nat)
    (threads : Threads (Option ι) (Searched F) (StoreAction F)) : Prop where
  dim_eq : threads.shared.store.dim = dim
  stored : Stored call threads.shared
  answered : Answered call threads.shared
  carried : ∀ action rest, threads.todo none = action :: rest →
    rest = [] ∧ ∃ step, action = .search step ∧ Carried call threads.shared step

section Writers

variable (shared : Searched F) (action : StoreAction F)

theorem performWrite_cases :
    (∃ counter, (shared.performWrite action).1 =
      { shared with store := { shared.store with writeCounter := counter } }) ∨
    (∃ shardIdx key quantized floats, (shared.performWrite action).1 =
      { shared with
        store := { shared.store with
          shards := shared.store.shards.modify shardIdx (addToShard shared.store.dim
            shared.store.numBlocks key (shared.store.quantize quantized) floats) }
        history := shared.history ++ [⟨key, quantized, floats⟩] }) ∨
    ∃ shardIdx, action = .clearShard shardIdx ∧ ¬ shardIdx < shared.held ∧
      (shared.performWrite action).1 =
        { shared with store := { shared.store with
            shards := shared.store.shards.modify shardIdx fun _ => CoreShard.new } } := by
  cases action with
  | add key quantized floats => exact Or.inl ⟨_, rfl⟩
  | resetCounter => exact Or.inl ⟨_, rfl⟩
  | search step => exact Or.inl ⟨shared.store.writeCounter, rfl⟩
  | write shardIdx key quantized floats =>
    rw [Searched.performWrite]
    split
    next => exact Or.inl ⟨shared.store.writeCounter, rfl⟩
    next => exact Or.inr (Or.inl ⟨shardIdx, key, quantized, floats, rfl⟩)
  | clearShard shardIdx =>
    rw [Searched.performWrite]
    split
    next => exact Or.inl ⟨shared.store.writeCounter, rfl⟩
    next free => exact Or.inr (Or.inr ⟨shardIdx, rfl, free, rfl⟩)

theorem performWrite_dims : (shared.performWrite action).1.store.dim = shared.store.dim ∧
    (shared.performWrite action).1.store.numBlocks = shared.store.numBlocks := by
  obtain ⟨_, same⟩ | ⟨_, _, _, _, same⟩ | ⟨_, _, _, same⟩ := performWrite_cases shared action <;>
    rw [same] <;> exact ⟨rfl, rfl⟩

theorem performWrite_answer : (shared.performWrite action).1.answer = shared.answer := by
  obtain ⟨_, same⟩ | ⟨_, _, _, _, same⟩ | ⟨_, _, _, same⟩ := performWrite_cases shared action <;>
    rw [same]

theorem performWrite_history : shared.history ⊆ (shared.performWrite action).1.history := by
  intro vector member
  obtain ⟨_, same⟩ | ⟨_, _, _, _, same⟩ | ⟨_, _, _, same⟩ := performWrite_cases shared action <;>
    rw [same]
  next => exact member
  next => exact List.mem_append_left _ member
  next => exact member

variable {shared action}

-- A place keeps its vector unless its shard is cleared.
theorem performWrite_vectorAt (formed : WellFormed shared.store) {s i : Nat} {vector : Added F}
    (here : VectorAt shared.store shared.history s i vector)
    (kept : action = .clearShard s → s < shared.held) :
    VectorAt (shared.performWrite action).1.store (shared.performWrite action).1.history s i
      vector := by
  obtain ⟨_, same⟩ | ⟨shardIdx, key, _, floats, same⟩ | ⟨shardIdx, rfl, free, same⟩ :=
    performWrite_cases shared action <;> rw [same]
  next => exact here
  next => exact here.write formed shardIdx key _ floats _
  next =>
    have other : shardIdx ≠ s := by
      rintro rfl
      exact free (kept rfl)
    obtain ⟨added, shard, found, row⟩ := here
    exact ⟨added, shard, by rw [getElem?_cleared other, found], row⟩

theorem performWrite_formed (formed : WellFormed shared.store) :
    WellFormed (shared.performWrite action).1.store := by
  obtain ⟨_, same⟩ | ⟨shardIdx, key, _, floats, same⟩ | ⟨shardIdx, _, _, same⟩ :=
    performWrite_cases shared action <;> rw [same]
  next => exact ⟨formed.blocks, formed.shards⟩
  next =>
    exact wellFormed_modify shared.store formed shardIdx _ _ fun shard laid =>
      laid_addToShard _ _ _ _ _ _ laid (length_quantize _ _)
  next => exact wellFormed_modify shared.store formed shardIdx _ _ fun _ _ => laid_new _ _

theorem performWrite_rows (stored : Stored call shared) (s : Nat) (shard : CoreShard F)
    (found : (shared.performWrite action).1.store.shards[s]? = some shard) (i : Nat)
    (inside : i < shard.keys.length) :
    ∃ vector, VectorAt (shared.performWrite action).1.store
      (shared.performWrite action).1.history s i vector := by
  obtain ⟨_, same⟩ | ⟨shardIdx, key, quantized, floats, same⟩ | ⟨shardIdx, cleared, free, same⟩ :=
    performWrite_cases shared action
  next =>
    rw [same] at found ⊢
    exact stored.rows s shard found i inside
  next =>
    rw [same] at found ⊢
    rw [List.getElem?_modify] at found
    obtain ⟨before, present, grown⟩ := Option.map_eq_some_iff.mp found
    by_cases old : i < before.keys.length
    · obtain ⟨vector, here⟩ := stored.rows s before present i old
      exact ⟨vector, here.write stored.formed shardIdx key _ floats _⟩
    · by_cases here : shardIdx = s
      · rw [if_pos here] at grown
        have last : i = before.keys.length := by
          rw [← grown] at inside
          simp only [addToShard, CoreShard.rebuildBlocks, List.length_append,
            List.length_singleton] at inside
          omega
        refine ⟨⟨key, quantized, floats⟩, List.mem_append_right _ List.mem_cons_self, shard, ?_, ?_⟩
        · rw [List.getElem?_modify, present, ← grown, here]
          simp
        · rw [last, ← grown]
          exact row_added (stored.formed.shards before (List.mem_of_getElem? present)) key
            quantized _ floats
      · rw [if_neg here] at grown
        rw [← grown] at inside
        exact absurd inside old
  next =>
    by_cases here : shardIdx = s
    · rw [same] at found
      rw [List.getElem?_modify, here] at found
      obtain ⟨_, _, emptied⟩ := Option.map_eq_some_iff.mp found
      rw [if_pos rfl] at emptied
      rw [← emptied] at inside
      cases inside
    · have before : shared.store.shards[s]? = some shard := by
        rw [same] at found
        rwa [getElem?_cleared here] at found
      obtain ⟨vector, here'⟩ := stored.rows s shard before i inside
      refine ⟨vector, performWrite_vectorAt stored.formed here' fun same' => ?_⟩
      rw [cleared] at same'
      cases same'
      exact absurd rfl here

theorem performWrite_stored (stored : Stored call shared) :
    Stored call (shared.performWrite action).1 :=
  ⟨performWrite_formed stored.formed,
    by rw [(performWrite_dims shared action).2]; exact stored.width, performWrite_rows stored⟩

theorem performWrite_answered (answered : Answered call shared) :
    Answered call (shared.performWrite action).1 := by
  intro answer member
  rw [performWrite_answer] at member
  obtain ⟨results, same, found⟩ := answered answer member
  refine ⟨results, same, fun pair inside => ?_⟩
  obtain ⟨vector, added, key, score⟩ := found pair inside
  refine ⟨vector, performWrite_history shared action added, key, ?_⟩
  rw [(performWrite_dims shared action).1]
  exact score

theorem performWrite_carried (stored : Stored call shared) (step : SearchStep F)
    (carried : Carried call shared step)
    (kept : ∀ s, action = .clearShard s → ¬ s < shared.held → step.carries s = []) :
    Carried call (shared.performWrite action).1 step := by
  refine ⟨fun s place member => ?_, carried.budget⟩
  obtain ⟨vector, here, scored⟩ := carried.places s place member
  rw [(performWrite_dims shared action).1]
  refine ⟨vector, performWrite_vectorAt stored.formed here fun cleared => ?_, scored⟩
  by_contra free
  rw [kept s cleared free] at member
  cases member

end Writers

section Search

variable (std : StdChoices) {shared : Searched F}

theorem mem_entries {α β : Type} (parts : List (List α)) (s : Nat) (image : α → β) (value : β) :
    value ∈ (parts[s]?.getD []).map image ↔
      ∃ entries, parts[s]? = some entries ∧ ∃ entry ∈ entries, image entry = value := by
  cases parts[s]? <;> simp

theorem mem_mergeReranked (k : Nat) (shardReranked : List (List (Nat × F))) (c : RerankCandidate)
    (member : c ∈ mergeReranked std k shardReranked) :
    ∃ entries, shardReranked[c.shardIdx]? = some entries ∧
      ∃ score, (c.localIdx, score) ∈ entries ∧ c.scoreInt = toFixed score := by
  have inMerged := (mergeReranked_smallest std k shardReranked).subset c member
  obtain ⟨part, present, inPart⟩ := List.mem_flatten.mp inMerged
  obtain ⟨⟨entries, shardIdx⟩, located, rfl⟩ := List.mem_map.mp present
  obtain ⟨⟨localIdx, score⟩, inEntries, rfl⟩ := List.mem_map.mp inPart
  exact ⟨entries, List.mem_zipIdx_iff_getElem?.mp located, score, inEntries, rfl⟩

theorem carried_scan (stored : Stored call shared) (rPerShard : Nat)
    (shardCandidates : List (List Candidate)) (candidates : List Candidate) (shard : CoreShard F)
    (found : shared.store.shards[shardCandidates.length]? = some shard)
    (inside : ∀ candidate ∈ candidates, candidate.2 < shard.keys.length)
    (carried : Carried call shared (.scan rPerShard shardCandidates)) :
    Carried call shared (.scan rPerShard (shardCandidates ++ [candidates])) := by
  refine ⟨fun s place member => ?_, fun r cs same => carried.budget r shardCandidates ?_⟩
  · obtain ⟨entries, at_s, candidate, present, rfl⟩ := (mem_entries _ _ _ _).mp member
    by_cases before : s < shardCandidates.length
    · rw [List.getElem?_append_left before] at at_s
      exact carried.places s _ ((mem_entries _ _ _ _).mpr ⟨entries, at_s, candidate, present, rfl⟩)
    · have here : s = shardCandidates.length := by
        have bound := (List.getElem?_eq_some_iff.mp at_s).1
        simp only [List.length_append, List.length_singleton] at bound
        omega
      subst here
      rw [List.getElem?_concat_length] at at_s
      obtain rfl := Option.some.inj at_s
      obtain ⟨vector, row⟩ := stored.rows _ shard found candidate.2 (inside candidate present)
      exact ⟨vector, row, by simp⟩
  · cases same
    rfl

theorem carried_rerank (shardCandidates : List (List Candidate))
    (shardReranked : List (List (Nat × F))) (candidates : List Candidate) (shard : CoreShard F)
    (found : shared.store.shards[shardReranked.length]? = some shard)
    (here : shardCandidates[shardReranked.length]? = some candidates)
    (best : List RerankCandidate)
    (small : Smallest RerankCandidate.order call.k (candidates.map fun candidate =>
      scoredAt shared.store.dim call.queryFloat shard candidate.2) best)
    (carried : Carried call shared (.rerank shardCandidates shardReranked)) :
    Carried call shared (.rerank shardCandidates
      (shardReranked ++ [best.map fun c => (c.localIdx, ofFixed c.scoreInt)])) := by
  refine ⟨fun s place member => ?_, by simp⟩
  have before := carried.places s
  simp only [SearchStep.carries, List.length_append, List.length_singleton] at member before
  by_cases same : s = shardReranked.length
  · subst same
    rw [if_neg (Nat.lt_irrefl _)] at before
    rw [if_pos (Nat.lt_succ_self _), mem_entries] at member
    obtain ⟨entries, at_s, ⟨localIdx, score⟩, inEntries, rfl⟩ := member
    rw [List.getElem?_concat_length] at at_s
    obtain rfl := Option.some.inj at_s
    obtain ⟨c, kept, pair⟩ := List.mem_map.mp inEntries
    obtain ⟨candidate, present, rfl⟩ := List.mem_map.mp (small.subset c kept)
    obtain ⟨rfl, rfl⟩ := Prod.mk.inj pair
    obtain ⟨vector, ⟨added, other, present', row⟩, _⟩ :=
      before _ ((mem_entries _ _ _ _).mpr ⟨candidates, here, candidate, present, rfl⟩)
    obtain rfl : shard = other := Option.some.inj (found.symm.trans present')
    refine ⟨vector, ⟨added, shard, present', row⟩, ?_⟩
    intro score known
    obtain rfl := Option.some.inj (Option.mem_def.mp known)
    have floats : floatRow shared.store.dim shard candidate.2 =
        padFloats shared.store.dim vector.floats := row.2
    simp only [scoredAt, scoreAt, foundAt, floats]
  · by_cases earlier : s < shardReranked.length
    · rw [if_pos (by omega), List.getElem?_append_left earlier] at member
      rw [if_pos earlier] at before
      exact before place member
    · rw [if_neg (by omega)] at member
      rw [if_neg earlier] at before
      exact before place member

theorem carried_merge (shardCandidates : List (List Candidate))
    (shardReranked : List (List (Nat × F)))
    (carried : Carried call shared (.rerank shardCandidates shardReranked)) :
    Carried call shared (.acquire 0 (mergeReranked std call.k shardReranked)) := by
  refine ⟨fun s place member => ?_, by simp⟩
  obtain ⟨c, kept, rfl⟩ := List.mem_map.mp member
  obtain ⟨inFinal, here⟩ := List.mem_filter.mp kept
  obtain rfl : c.shardIdx = s := of_decide_eq_true here
  obtain ⟨entries, at_s, score, inEntries, same⟩ := mem_mergeReranked std call.k shardReranked c
    inFinal
  have before := carried.places c.shardIdx (c.localIdx, some (toFixed score))
  rw [SearchStep.carries, if_pos (List.getElem?_eq_some_iff.mp at_s).1, mem_entries] at before
  rw [same]
  exact before ⟨entries, at_s, _, inEntries, rfl⟩

theorem carried_inside (shardCandidates : List (List Candidate))
    (shardReranked : List (List (Nat × F))) (candidates : List Candidate) (shard : CoreShard F)
    (found : shared.store.shards[shardReranked.length]? = some shard)
    (here : shardCandidates[shardReranked.length]? = some candidates)
    (carried : Carried call shared (.rerank shardCandidates shardReranked)) :
    ∀ candidate ∈ candidates, candidate.2 < shard.keys.length := by
  intro candidate present
  have place := carried.places shardReranked.length (candidate.2, none)
  rw [SearchStep.carries, if_neg (Nat.lt_irrefl _), mem_entries] at place
  obtain ⟨vector, ⟨_, other, same, keyed, _⟩, _⟩ :=
    place ⟨candidates, here, candidate, present, rfl⟩
  obtain rfl : shard = other := Option.some.inj (found.symm.trans same)
  exact (List.getElem?_eq_some_iff.mp keyed).1

theorem lookup_found (finalResults : List RerankCandidate)
    (carried : Carried call shared (.lookup finalResults)) :
    ∃ results, searchStep std call shared.store (.lookup finalResults) = some (.inr results) ∧
      ∀ pair ∈ results, Found call shared.store.dim shared.history pair := by
  obtain ⟨results, found, related⟩ := mapM_related
    (fun c : RerankCandidate => do
      let key ← shared.store.keyAt c.shardIdx c.localIdx
      return (key, (ofFixed c.scoreInt : F)))
    (fun _ pair => Found call shared.store.dim shared.history pair) finalResults (by
      intro c member
      obtain ⟨vector, ⟨added, shard, present, keyed, _⟩, scored⟩ :=
        carried.places c.shardIdx (c.localIdx, some c.scoreInt) (by
          refine List.mem_map.mpr ⟨c, List.mem_filter.mpr ⟨member, by simp⟩, rfl⟩)
      refine ⟨(vector.key, ofFixed c.scoreInt), by simp [keyAt, present, keyed], ?_⟩
      exact ⟨vector, added, rfl, by rw [scored c.scoreInt rfl]⟩)
  refine ⟨results, by rw [searchStep, found]; rfl, fun pair member => ?_⟩
  obtain ⟨_, _, answer⟩ := related_mem related pair member
  exact answer

theorem searchStep_carried (stored : Stored call shared) (positive : 0 < call.k)
    (step : SearchStep F) (carried : Carried call shared step) :
    (∃ next, searchStep std call shared.store step = some (.inl next) ∧
      Carried call shared next) ∨
    ∃ results, searchStep std call shared.store step = some (.inr results) ∧
      ∀ pair ∈ results, Found call shared.store.dim shared.history pair := by
  cases step with
  | count shardIdx totalVectors =>
    have nothing (r : Nat) (some_budget : 0 < r) : Carried call shared (.scan r []) :=
      ⟨fun s place member => by simp [SearchStep.carries] at member,
        fun _ _ same => by cases same; exact some_budget⟩
    simp only [searchStep]
    split
    next => exact Or.inl ⟨_, rfl, ⟨fun s place member => (List.not_mem_nil member).elim, by simp⟩⟩
    next =>
      split
      next => exact Or.inr ⟨[], rfl, by simp⟩
      next =>
        exact Or.inl ⟨_, rfl, nothing _ (Nat.lt_of_lt_of_le positive (Nat.le_max_right _ _))⟩
  | scan rPerShard shardCandidates =>
    simp only [searchStep]
    split
    next shard found =>
      obtain ⟨candidates, scanned, inside⟩ := scanReserved_inside std shared.store stored.formed
        call.queryBin stored.width rPerShard (carried.budget _ _ rfl) shard
        (List.mem_of_getElem? found)
      refine Or.inl ⟨_, by rw [scanned]; rfl, ?_⟩
      exact carried_scan stored rPerShard shardCandidates candidates shard found inside carried
    next => exact Or.inl ⟨_, rfl, carried.places, by simp⟩
  | rerank shardCandidates shardReranked =>
    simp only [searchStep]
    split
    next shard candidates found here =>
      obtain ⟨best, reranked, small⟩ := rerankReserved_smallest std
        (stored.formed.shards shard (List.mem_of_getElem? found)) call.queryFloat call.k positive
        candidates (carried_inside shardCandidates shardReranked candidates shard found here carried)
      refine Or.inl ⟨_, by rw [reranked]; rfl, ?_⟩
      exact carried_rerank shardCandidates shardReranked candidates shard found here best small
        carried
    next => exact Or.inl ⟨_, rfl, carried_merge std shardCandidates shardReranked carried⟩
  | acquire shardIdx finalResults =>
    simp only [searchStep]
    split <;> exact Or.inl ⟨_, rfl, carried.places, by simp⟩
  | lookup finalResults => exact Or.inr (lookup_found std finalResults carried)

end Search

-- The other connections do not clear a shard while the search carries places of it.
def LeavesCarried (_ : Option ι) (threads : Threads (Option ι) (Searched F) (StoreAction F))
    (action : StoreAction F) : Prop :=
  ∀ s step, action = .clearShard s → ¬ s < threads.shared.held →
    .search step ∈ threads.todo none → step.carries s = []

variable [DecidableEq ι] (std : StdChoices)

theorem consistent_step (positive : 0 < call.k) (dim : Nat)
    (threads : Threads (Option ι) (Searched F) (StoreAction F)) (thread : Option ι)
    (action : StoreAction F) (rest : List (StoreAction F)) (consistent : Consistent call dim threads)
    (turn : threads.todo thread = action :: rest)
    (leaves : LeavesCarried thread threads action) :
    Consistent call dim (threads.step (Searched.perform std call) thread) := by
  obtain ⟨dim_eq, stored, answered, carried⟩ := consistent
  rw [Threads.step_cons threads thread action rest turn]
  cases thread with
  | some connection =>
    have writes : Searched.perform std call (some connection) threads.shared action =
        threads.shared.performWrite action := by
      cases action <;> rfl
    rw [writes]
    refine ⟨(performWrite_dims _ _).1.trans dim_eq, performWrite_stored stored,
      performWrite_answered answered, fun next later pending => ?_⟩
    dsimp only at pending
    rw [Function.update_of_ne (by simp)] at pending
    obtain ⟨nothing, step, rfl, here⟩ := carried next later pending
    refine ⟨nothing, step, rfl, performWrite_carried stored step here fun s cleared free => ?_⟩
    exact leaves s step cleared free (by rw [pending]; exact List.mem_cons_self)
  | none =>
    obtain ⟨rfl, step, rfl, here⟩ := carried action rest turn
    have searches : Searched.perform std call (none : Option ι) threads.shared (.search step) =
        threads.shared.performSearch std call step := rfl
    rw [searches, Searched.performSearch]
    obtain ⟨next, ran, later⟩ | ⟨results, ran, found⟩ :=
      searchStep_carried std stored positive step here
    · rw [ran]
      refine ⟨dim_eq, ⟨stored.formed, stored.width, stored.rows⟩, answered,
        fun action rest pending => ?_⟩
      dsimp only at pending
      rw [Function.update_self] at pending
      obtain ⟨rfl, rfl⟩ := List.cons.inj pending
      exact ⟨rfl, next, rfl, later.places, later.budget⟩
    · rw [ran]
      refine ⟨dim_eq, ⟨stored.formed, stored.width, stored.rows⟩, ?_,
        fun action rest pending => ?_⟩
      · intro answer member
        obtain rfl := Option.some.inj (Option.mem_def.mp member)
        exact ⟨results, rfl, found⟩
      · dsimp only at pending
        rw [Function.update_self] at pending
        cases pending

omit [DecidableEq ι] in
theorem consistent_start (dim numCpus : Nat) (aligned : dim % 64 = 0)
    (requests : ι → List (StoreOp F)) (floats : List F) (k : Nat) :
    Consistent ⟨(new dim numCpus aligned).quantize floats, floats, k⟩ dim
      (searching (new dim numCpus aligned) requests) := by
  refine ⟨rfl, ⟨wellFormed_new dim numCpus aligned, length_quantize _ floats, ?_⟩, ?_, ?_⟩
  · intro s shard found i inside
    obtain rfl := List.eq_of_mem_replicate (List.mem_of_getElem? found)
    cases inside
  · intro answer member
    cases member
  · intro action rest pending
    obtain ⟨rfl, rfl⟩ := List.cons.inj pending
    exact ⟨rfl, _, rfl, fun s place member => (List.not_mem_nil member).elim, by simp⟩

theorem search_consistent (dim numCpus : Nat) (aligned : dim % 64 = 0)
    (requests : ι → List (StoreOp F)) (floats : List F) (k : Nat) (positive : 0 < k)
    (schedule : List (Option ι)) :
    let store := new dim numCpus aligned
    let call : SearchCall F := ⟨store.quantize floats, floats, k⟩
    let run := (searching store requests).run (Searched.perform std call) schedule
    Threads.Along (Searched.perform std call) LeavesCarried (searching store requests) schedule →
      ∀ answer ∈ run.shared.answer, ∃ results, answer = some results ∧
        ∀ pair ∈ results, Found call dim run.shared.history pair := by
  intro store call run along
  have final : Consistent call dim run := Threads.run_invariant
    (fun threads thread action rest => consistent_step std positive dim threads thread action rest)
    (searching store requests) schedule (consistent_start dim numCpus aligned requests floats k) along
  have answered := final.answered
  rw [Answered, final.dim_eq] at answered
  exact answered

omit [DecidableEq ι] in
theorem clearShard_perform (thread : Option ι) (shared : Searched F) (action more : StoreAction F)
    (member : more ∈ (Searched.perform std call thread shared action).2) (s : Nat)
    (clears : more = .clearShard s) : action = .clearShard s := by
  subst clears
  cases action with
  | search step =>
    cases thread with
    | some connection => cases member
    | none =>
      simp only [Searched.perform, Searched.performSearch] at member
      split at member <;> simp at member
  | add key quantized floats => cases thread <;> simp [Searched.perform, Searched.performWrite] at member
  | resetCounter => cases thread <;> simp [Searched.perform, Searched.performWrite] at member
  | write shardIdx key quantized floats =>
    cases thread <;> simp only [Searched.perform, Searched.performWrite] at member <;>
      split at member <;> simp at member
  | clearShard shardIdx =>
    cases thread <;> simp only [Searched.perform, Searched.performWrite] at member <;>
      split at member <;> simp at member <;> rw [member]

theorem along_unclearing (threads : Threads (Option ι) (Searched F) (StoreAction F))
    (schedule : List (Option ι))
    (none_clears : ∀ thread, ∀ action ∈ threads.todo thread, ∀ s, action ≠ .clearShard s) :
    Threads.Along (Searched.perform std call) LeavesCarried threads schedule := by
  refine Threads.along_of_invariant
    (fun threads => ∀ thread, ∀ action ∈ threads.todo thread, ∀ s, action ≠ .clearShard s)
    ?_ ?_ threads schedule none_clears
  · intro threads thread action rest none_clears turn other pending member s clears
    rw [Threads.step_cons threads thread action rest turn] at member
    dsimp only at member
    rw [Function.update_apply] at member
    split at member
    next same =>
      rcases List.mem_append.mp member with new | later
      · exact none_clears thread action (by rw [turn]; exact List.mem_cons_self) s
          (clearShard_perform std thread threads.shared action pending new s clears)
      · exact none_clears thread pending (by rw [turn]; exact List.mem_cons_of_mem _ later) s clears
    next => exact none_clears other pending member s clears
  · intro threads thread action rest none_clears turn s step clears
    exact absurd clears (none_clears thread action (by rw [turn]; exact List.mem_cons_self) s)

theorem along_before (threads : Threads (Option ι) (Searched F) (StoreAction F))
    (schedule : List (Option ι)) (others : ∀ thread ∈ schedule, thread ≠ none)
    (start : threads.todo none = [.search (.count 0 0)]) :
    Threads.Along (Searched.perform std call) LeavesCarried threads schedule ∧
      (threads.run (Searched.perform std call) schedule).todo none = [.search (.count 0 0)] := by
  induction schedule generalizing threads with
  | nil => exact ⟨trivial, start⟩
  | cons thread schedule ih =>
    have stays : (threads.step (Searched.perform std call) thread).todo none =
        [.search (.count 0 0)] := by
      cases turn : threads.todo thread with
      | nil => rwa [Threads.step_nil threads thread turn]
      | cons action rest =>
        rw [Threads.step_cons threads thread action rest turn]
        dsimp only
        rw [Function.update_of_ne (others thread List.mem_cons_self).symm, start]
    obtain ⟨along, last⟩ := ih (threads.step (Searched.perform std call) thread)
      (fun other member => others other (List.mem_cons_of_mem _ member)) stays
    refine ⟨⟨fun action _ s step clears _ pending => ?_, along⟩, last⟩
    rw [start, List.mem_singleton] at pending
    obtain rfl := StoreAction.search.inj pending
    rfl

end Invariant

section Alone

variable {F : Type} [FloatArith F] (std : StdChoices) (call : SearchCall F)

inductive Ends (store : SharedVectorStore F) : SearchStep F → Option (List (AirKey × F)) → Prop where
  | panic (step : SearchStep F) (fails : searchStep std call store step = none) :
      Ends store step none
  | done (step : SearchStep F) (results : List (AirKey × F))
      (ends : searchStep std call store step = some (.inr results)) : Ends store step (some results)
  | next (step later : SearchStep F) (answer : Option (List (AirKey × F)))
      (goes : searchStep std call store step = some (.inl later)) (rest : Ends store later answer) :
      Ends store step answer

variable {std call} {store : SharedVectorStore F}

theorem ends_count (rest done : List (CoreShard F)) (shards : store.shards = done ++ rest)
    (answer : Option (List (AirKey × F)))
    (last : Ends std call store (.count store.shards.length store.len) answer) :
    Ends std call store (.count done.length (done.map fun shard => shard.keys.length).sum)
      answer := by
  induction rest generalizing done with
  | nil =>
    rw [List.append_nil] at shards
    rwa [len, shards] at last
  | cons shard rest ih =>
    refine .next _ _ answer ?_ (ih (done ++ [shard]) (by simp [shards]))
    simp [searchStep, shards]

theorem ends_loop {α β : Type} (make : List β → SearchStep F) (work : α → Option β)
    (items : List α)
    (each : ∀ done item rest, items = done ++ item :: rest → ∀ acc : List β,
      acc.length = done.length → searchStep std call store (make acc) =
        (work item).map fun value => .inl (make (acc ++ [value])))
    (answer : Option (List (AirKey × F)))
    (fails : items.mapM work = none → answer = none)
    (ends : ∀ all, items.mapM work = some all → Ends std call store (make all) answer) :
    Ends std call store (make []) answer := by
  suffices goes_on : ∀ rest done acc, items = done ++ rest → acc.length = done.length →
      done.mapM work = some acc → Ends std call store (make acc) answer from
    goes_on items [] [] rfl rfl rfl
  intro rest
  induction rest with
  | nil =>
    intro done acc split _ taken
    rw [List.append_nil] at split
    subst split
    exact ends acc taken
  | cons item rest ih =>
    intro done acc split length taken
    have turn := each done item rest split acc length
    cases result : work item with
    | none =>
      rw [result] at turn
      have stops := mapM_none work items item (by simp [split]) result
      rw [fails stops]
      exact .panic _ turn
    | some value =>
      rw [result] at turn
      refine .next _ _ answer turn (ih (done ++ [item]) (acc ++ [value]) (by simp [split])
        (by simp [length]) ?_)
      simp [List.mapM_append, taken, result]

theorem ends_scan (rPerShard : Nat) (answer : Option (List (AirKey × F)))
    (fails : store.shards.mapM (scanReserved std store.numBlocks call.queryBin rPerShard) = none →
      answer = none)
    (ends : ∀ shardCandidates,
      store.shards.mapM (scanReserved std store.numBlocks call.queryBin rPerShard) =
        some shardCandidates →
      Ends std call store (.rerank shardCandidates []) answer) :
    Ends std call store (.scan rPerShard []) answer := by
  refine ends_loop (SearchStep.scan rPerShard)
    (scanReserved std store.numBlocks call.queryBin rPerShard) store.shards ?_ answer fails ?_
  · intro done shard rest split acc length
    have found : store.shards[acc.length]? = some shard := by simp [split, length]
    simp only [searchStep, found]
    cases scanReserved std store.numBlocks call.queryBin rPerShard shard <;> rfl
  · intro shardCandidates scanned
    refine .next _ _ answer ?_ (ends shardCandidates scanned)
    simp [searchStep, length_mapM _ _ _ scanned]

theorem ends_rerank (shardCandidates : List (List Candidate)) (answer : Option (List (AirKey × F)))
    (fails : ((store.shards.zip shardCandidates).mapM fun (shard, candidates) =>
      rerankReserved std store.dim call.queryFloat call.k shard candidates) = none → answer = none)
    (ends : ∀ shardReranked, ((store.shards.zip shardCandidates).mapM fun (shard, candidates) =>
        rerankReserved std store.dim call.queryFloat call.k shard candidates) = some shardReranked →
      Ends std call store (.acquire 0 (mergeReranked std call.k shardReranked)) answer) :
    Ends std call store (.rerank shardCandidates []) answer := by
  refine ends_loop (SearchStep.rerank shardCandidates) (fun (shard, candidates) =>
    rerankReserved std store.dim call.queryFloat call.k shard candidates)
    (store.shards.zip shardCandidates) ?_ answer fails ?_
  · intro done pair rest split acc length
    have found : (store.shards.zip shardCandidates)[acc.length]? = some pair := by
      simp [split, length]
    obtain ⟨shardFound, here⟩ := List.getElem?_zip_eq_some.mp found
    simp only [searchStep, shardFound, here]
    cases rerankReserved std store.dim call.queryFloat call.k pair.1 pair.2 <;> rfl
  · intro shardReranked reranked
    refine .next _ _ answer ?_ (ends shardReranked reranked)
    have outside : (store.shards.zip shardCandidates)[shardReranked.length]? = none := by
      rw [length_mapM _ _ _ reranked]
      simp
    simp only [searchStep]
    split
    next shard candidates shardFound here =>
      have paired : (store.shards.zip shardCandidates)[shardReranked.length]? =
          some (shard, candidates) :=
        List.getElem?_zip_eq_some.mpr ⟨shardFound, here⟩
      rw [paired] at outside
      cases outside
    next => rfl

theorem ends_acquire (finalResults : List RerankCandidate) (answer : Option (List (AirKey × F)))
    (last : Ends std call store (.lookup finalResults) answer) (left : Nat)
    (bound : left ≤ store.shards.length) :
    Ends std call store (.acquire (store.shards.length - left) finalResults) answer := by
  induction left with
  | zero => exact .next _ _ answer (by simp [searchStep]) last
  | succ left ih =>
    refine .next _ _ answer ?_ (ih (by omega))
    have inside : store.shards.length - (left + 1) < store.shards.length := by omega
    simp [searchStep, inside, show store.shards.length - (left + 1) + 1 =
      store.shards.length - left by omega]

variable (std call store) in
theorem ends_lookup (finalResults : List RerankCandidate) :
    Ends std call store (.lookup finalResults) (finalResults.mapM fun c => do
      let key ← store.keyAt c.shardIdx c.localIdx
      return (key, ofFixed c.scoreInt)) := by
  cases answered : finalResults.mapM fun c : RerankCandidate => do
      let key ← store.keyAt c.shardIdx c.localIdx
      return (key, (ofFixed c.scoreInt : F)) with
  | none => exact .panic _ (by simp only [searchStep, answered]; rfl)
  | some results => exact .done _ results (by simp only [searchStep, answered]; rfl)

theorem ends_search (room : Reserved store call.k) : Ends std call store (.count 0 0)
    (store.searchReranked std call.queryBin call.queryFloat call.k) := by
  rw [searchReranked_eq std store call.queryBin call.queryFloat call.k room]
  apply ends_count store.shards [] rfl _
  by_cases stored : store.len = 0
  · rw [if_pos stored]
    exact .done _ [] (by simp [searchStep, stored])
  · rw [if_neg stored]
    refine .next _ _ _ (by simp [searchStep, stored]; rfl) ?_
    refine ends_scan (store.rPerShard call.k) _ ?_ fun shardCandidates scanned => ?_
    · intro fails
      rw [fails]
      rfl
    · rw [scanned]
      simp only [Option.bind_eq_bind, Option.bind_some, rerankCandidates]
      refine ends_rerank shardCandidates _ ?_ fun shardReranked reranked => ?_
      · intro fails
        rw [fails]
        rfl
      · rw [reranked]
        have acquired := ends_acquire (mergeReranked std call.k shardReranked) _
          (ends_lookup std call store (mergeReranked std call.k shardReranked)) store.shards.length
          (Nat.le_refl _)
        rw [Nat.sub_self] at acquired
        exact acquired

theorem completes_of_ends {ι : Type} (step : SearchStep F) (answer : Option (List (AirKey × F)))
    (ends : Ends std call store step answer) (shared : Searched F) (here : shared.store = store) :
    Threads.Completes (Searched.perform std call) (none : Option ι) shared [.search step]
      { shared with held := 0, answer := some answer } := by
  have searches (shared : Searched F) (step : SearchStep F) :
      Searched.perform std call (none : Option ι) shared (.search step) =
        shared.performSearch std call step := rfl
  induction ends generalizing shared with
  | panic step fails =>
    refine .turn _ _ _ [] ?_
    rw [searches, Searched.performSearch, here, fails]
    exact .done _
  | done step results ends =>
    refine .turn _ _ _ [] ?_
    rw [searches, Searched.performSearch, here, ends]
    exact .done _
  | next step later answer goes _ ih =>
    refine .turn _ _ _ [] ?_
    have turn : shared.performSearch std call step =
        ({ shared with held := later.held store.shards.length }, [.search later]) := by
      rw [Searched.performSearch, here, goes]
    rw [searches, turn]
    exact ih { shared with held := later.held store.shards.length } here

theorem search_alone {ι : Type} (shared : Searched F) (room : Reserved shared.store call.k) :
    Threads.Completes (Searched.perform std call) (none : Option ι) shared
      [.search (.count 0 0)]
      { shared with
        held := 0
        answer := some (shared.store.searchReranked std call.queryBin call.queryFloat call.k) } :=
  completes_of_ends _ _ (ends_search room) shared rfl

end Alone

section Runs

def eightOnes : List Int := List.replicate 8 1

def keyA : AirKey := AirKey.fromBytes (ascii "a")

def keyB : AirKey := AirKey.fromBytes (ascii "b")

def callOnes : SearchCall Int :=
  ⟨(new 64 4 aligned_word : SharedVectorStore Int).quantize eightOnes, eightOnes, 1⟩

def runOnes (requests : List (StoreOp Int)) (schedule : List (Option Unit)) :
    Threads (Option Unit) (Searched Int) (StoreAction Int) :=
  (searching (new 64 4 aligned_word) fun _ => requests).run
    (Searched.perform StdChoices.lists callOnes) schedule

-- Each number is how many turns the connection and the search take, one after the other.
def turns (counts : List (Nat × Nat)) : List (Option Unit) :=
  counts.flatMap fun (writes, reads) =>
    List.replicate writes (some ()) ++ List.replicate reads none

def StoreAction.clears {F : Type} : StoreAction F → Bool
  | .clearShard _ => true
  | _ => false

-- One vector is added and cleared and another one added before the search, and a third one between
-- two of its scans.
def addingOps : List (StoreOp Int) :=
  [.add keyB [0] [0], .clear, .add keyA eightOnes eightOnes, .add keyB [0] [0]]

theorem search_consistent_add :
    let run := runOnes addingOps (turns [(9, 7), (2, 14)])
    run.shared.history.length = 3 ∧ run.shared.answer.isSome ∧
      ∀ answer ∈ run.shared.answer, ∃ results, answer = some results ∧
        ∀ pair ∈ results, Found callOnes 64 run.shared.history pair := by
  refine ⟨by decide +kernel, by decide +kernel, search_consistent StdChoices.lists 64 4 rfl
    (fun _ => addingOps) eightOnes 1 (by decide) (turns [(9, 7), (2, 14)]) ?_⟩
  have split : turns [(9, 7), (2, 14)] =
      List.replicate 9 (some ()) ++ turns [(0, 7), (2, 14)] := by decide
  change Threads.Along (Searched.perform StdChoices.lists callOnes) LeavesCarried
    (searching (new 64 4 rfl) fun _ => addingOps) (turns [(9, 7), (2, 14)])
  rw [split, Threads.along_append]
  have others : ∀ thread ∈ List.replicate 9 (some ()), thread ≠ none := fun thread member => by
    rw [List.eq_of_mem_replicate member]
    simp
  obtain ⟨before, waiting⟩ := @along_before Unit Int _ callOnes _ StdChoices.lists
    (searching (new 64 4 rfl) fun _ => addingOps) _ others rfl
  refine ⟨before, along_unclearing StdChoices.lists _ _ ?_⟩
  intro thread action member s clears
  subst clears
  cases thread with
  | none =>
    rw [waiting] at member
    cases List.mem_singleton.mp member
  | some connection =>
    have adds : (((searching (new 64 4 rfl) fun _ => addingOps).run
        (Searched.perform StdChoices.lists callOnes) (List.replicate 9 (some ()))).todo
          (some connection)).all (fun action => !action.clears) = true := by
      cases connection
      decide +kernel
    have kept := List.all_eq_true.mp adds _ member
    cases kept

-- The shard is cleared between the first stage and the second.
def panickingRun : Threads (Option Unit) (Searched Int) (StoreAction Int) :=
  runOnes [.add keyA eightOnes eightOnes, .clear] (turns [(2, 10), (1, 1)])

-- It is cleared, and filled again, between the second stage and the last.
def confusedRun : Threads (Option Unit) (Searched Int) (StoreAction Int) :=
  runOnes [.add keyA eightOnes eightOnes, .clear, .add keyB [0] [0]] (turns [(2, 15), (7, 6)])

-- The first run panics, and in the second the score of one vector comes with the key of another.
theorem search_interrupted :
    panickingRun.shared.answer = some none ∧
      ∃ results, confusedRun.shared.answer = some (some results) ∧
        ∃ pair ∈ results, ¬ Found callOnes 64 confusedRun.shared.history pair := by
  constructor
  · have panics : panickingRun.shared.answer.map Option.isNone = some true := by decide +kernel
    obtain ⟨answer, finished, failed⟩ := Option.map_eq_some_iff.mp panics
    rw [finished, Option.isNone_iff_eq_none.mp failed]
  · have answers : (confusedRun.shared.answer.bind id).map (fun results =>
        results.map fun pair => (pair.1.asBytes, pair.2)) = some [(ascii "b", 8)] := by
      decide +kernel
    have history : confusedRun.shared.history.map (fun vector =>
        (vector.key.asBytes, vector.floats)) = [(ascii "a", eightOnes), (ascii "b", [0])] := by
      decide +kernel
    obtain ⟨results, finished, single⟩ := Option.map_eq_some_iff.mp answers
    obtain ⟨answer, found, same⟩ := Option.bind_eq_some_iff.mp finished
    obtain ⟨pair, rfl, shown⟩ := List.map_eq_singleton_iff.mp single
    obtain ⟨key, score⟩ := Prod.mk.inj shown
    refine ⟨[pair], by rw [found]; exact congrArg some same, pair, List.mem_cons_self, ?_⟩
    rintro ⟨vector, added, sameKey, sameScore⟩
    have present : (vector.key.asBytes, vector.floats) ∈
        [(ascii "a", eightOnes), (ascii "b", [0])] := by
      rw [← history]
      exact List.mem_map_of_mem added
    rw [sameKey, key] at present
    rw [score] at sameScore
    have other : ascii "b" ≠ ascii "a" := by decide
    have far : (8 : Int) ≠ ofFixed (foundAt 64 callOnes.queryFloat [0] : Int) := by decide +kernel
    rcases List.mem_cons.mp present with here | later
    · exact other (Prod.mk.inj here).1
    · obtain ⟨_, floats⟩ := Prod.mk.inj (List.mem_singleton.mp later)
      rw [floats] at sameScore
      exact far sameScore

end Runs

end OmegaDrive
