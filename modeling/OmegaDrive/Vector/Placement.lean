import OmegaDrive.Shared.Records
import OmegaDrive.Shared.RoundRobin
import OmegaDrive.Vector.Recall

set_option autoImplicit false

namespace OmegaDrive

/-- A vector as `add` receives it: its bits are those of `quantized`. -/
structure Added (F : Type) where
  key : AirKey
  quantized : List F
  floats : List F

namespace SharedVectorStore

variable {F : Type}

/-- What `new` starts with, for any number of shards. -/
def empty (numShards dim : Nat) : SharedVectorStore F :=
  { shards := List.replicate numShards CoreShard.new
    dim
    numBlocks := dim / 64
    writeCounter := 0 }

theorem new_eq (dim numCpus : Nat) (aligned : dim % 64 = 0) :
    (new dim numCpus aligned : SharedVectorStore F) = empty (max numCpus 4) dim := rfl

theorem aligned_word : 64 % 64 = 0 := rfl

def floatRow (dim : Nat) (shard : CoreShard F) (i : Nat) : List F :=
  (shard.floatData.drop (i * dim)).take dim

-- The vectors added since the last clear, in order.
def addedSince (vectors : List (Added F)) : StoreOp F → List (Added F)
  | .add key quantized floats => vectors ++ [⟨key, quantized, floats⟩]
  | .clear => []

def added (ops : List (StoreOp F)) : List (Added F) := ops.foldl addedSince []

-- `fetch_add` on a `usize` wraps around.
def dealtTo (numShards s : Nat) (vectors : List (Added F)) : List (Added F) :=
  RoundRobin.dealt numShards (fun i => i % 2 ^ 64) s vectors

theorem getElem?_dealtTo {numShards : Nat} (positive : 0 < numShards) (vectors : List (Added F))
    (i : Nat) (small : i < 2 ^ 64) (vector : Added F) (found : vectors[i]? = some vector) :
    (dealtTo numShards (i % numShards) vectors)[i / numShards]? = some vector := by
  have exact' : ∀ j < 2 ^ 64, (fun i => i % 2 ^ 64) j = j := fun _ less => Nat.mod_eq_of_lt less
  exact RoundRobin.getElem?_dealt positive _ exact' vectors i small vector found

variable [FloatArith F]

/-- The four parallel parts of each shard hold the vectors dealt to it, row by row. -/
structure Placed (numShards dim : Nat) (store : SharedVectorStore F) (vectors : List (Added F)) :
    Prop where
  shards_length : store.shards.length = numShards
  dim_eq : store.dim = dim
  blocks_eq : store.numBlocks = dim / 64
  counter_eq : store.writeCounter = vectors.length % 2 ^ 64
  keys_eq : ∀ s (shard : CoreShard F), store.shards[s]? = some shard →
    shard.keys = (dealtTo numShards s vectors).map Added.key
  data_eq : ∀ s (shard : CoreShard F), store.shards[s]? = some shard →
    shard.data = (dealtTo numShards s vectors).flatMap fun vector =>
      store.quantize vector.quantized
  floats_eq : ∀ s (shard : CoreShard F), store.shards[s]? = some shard →
    shard.floatData = (dealtTo numShards s vectors).flatMap fun vector =>
      padFloats dim vector.floats

omit [FloatArith F] in
theorem wellFormed_empty (numShards dim : Nat) (aligned : dim % 64 = 0) :
    WellFormed (empty numShards dim : SharedVectorStore F) := by
  refine ⟨?_, fun shard member => ?_⟩
  · simp only [empty]
    omega
  · rw [List.eq_of_mem_replicate member]
    exact laid_new _ _

theorem placed_empty (numShards dim : Nat) :
    Placed numShards dim (empty numShards dim : SharedVectorStore F) [] := by
  have fresh (s : Nat) (shard : CoreShard F)
      (found : (empty numShards dim : SharedVectorStore F).shards[s]? = some shard) :
      shard = CoreShard.new :=
    List.eq_of_mem_replicate (List.mem_of_getElem? found)
  refine ⟨by simp [empty], rfl, rfl, rfl, ?_, ?_, ?_⟩ <;>
    intro s shard found <;> rw [fresh s shard found] <;> rfl

theorem placed_add (numShards dim : Nat) (store : SharedVectorStore F)
    (vectors : List (Added F)) (placed : Placed numShards dim store vectors) (key : AirKey)
    (quantized floats : List F) :
    Placed numShards dim (store.add key (store.quantize quantized) floats)
      (vectors ++ [⟨key, quantized, floats⟩]) := by
  obtain ⟨shards, dims, blocks, counter, keys, data, floatData⟩ := placed
  have bits (floats : List F) :
      (store.add key (store.quantize quantized) floats).quantize = store.quantize :=
    funext fun _ => quantize_congr _ _ rfl rfl _
  -- Each shard is as before, or it is the one whose turn it is.
  have turn (s : Nat) (shard : CoreShard F)
      (found : (store.add key (store.quantize quantized) floats).shards[s]? = some shard) :
      ∃ before, store.shards[s]? = some before ∧
        shard = if vectors.length % 2 ^ 64 % numShards = s then
          addToShard store.dim store.numBlocks key (store.quantize quantized) floats before
        else before := by
    rw [add, List.getElem?_modify, counter, shards] at found
    obtain ⟨before, present, rfl⟩ := Option.map_eq_some_iff.mp found
    exact ⟨before, present, rfl⟩
  refine ⟨?_, dims, blocks, ?_, ?_, ?_, ?_⟩
  · rw [add, List.length_modify, shards]
  · rw [add, counter, List.length_append, List.length_singleton, Nat.mod_add_mod]
  · intro s shard found
    obtain ⟨before, present, rfl⟩ := turn s shard found
    rw [dealtTo, RoundRobin.dealt_append, List.map_append, ← dealtTo, ← keys s before present]
    split <;> simp [addToShard, CoreShard.rebuildBlocks]
  · intro s shard found
    obtain ⟨before, present, rfl⟩ := turn s shard found
    rw [bits, dealtTo, RoundRobin.dealt_append, List.flatMap_append, ← dealtTo,
      ← data s before present]
    split <;> simp [addToShard, CoreShard.rebuildBlocks]
  · intro s shard found
    obtain ⟨before, present, rfl⟩ := turn s shard found
    rw [dealtTo, RoundRobin.dealt_append, List.flatMap_append, ← dealtTo,
      ← floatData s before present]
    split <;> simp [addToShard, CoreShard.rebuildBlocks, dims]

theorem placed_clear (numShards dim : Nat) (store : SharedVectorStore F)
    (vectors : List (Added F)) (placed : Placed numShards dim store vectors) :
    Placed numShards dim store.clear [] := by
  have fresh (s : Nat) (shard : CoreShard F) (found : store.clear.shards[s]? = some shard) :
      shard = CoreShard.new := by
    rw [clear, List.getElem?_map] at found
    obtain ⟨_, _, rfl⟩ := Option.map_eq_some_iff.mp found
    rfl
  refine ⟨by simp [clear, placed.shards_length], placed.dim_eq, placed.blocks_eq, rfl, ?_, ?_, ?_⟩ <;>
    intro s shard found <;> rw [fresh s shard found] <;> rfl

theorem placed_run (numShards dim : Nat) (ops : List (StoreOp F)) :
    Placed numShards dim ((empty numShards dim : SharedVectorStore F).run ops) (added ops) := by
  suffices both : ∀ (store : SharedVectorStore F) vectors, Placed numShards dim store vectors →
      Placed numShards dim (store.run ops) (ops.foldl addedSince vectors) from
    both _ _ (placed_empty numShards dim)
  induction ops with
  | nil => exact fun _ _ placed => placed
  | cons op ops ih =>
    intro store vectors placed
    apply ih _ _
    cases op with
    | add key quantized floats => exact placed_add numShards dim store vectors placed _ _ _
    | clear => exact placed_clear numShards dim store vectors placed

theorem wellFormed_runEmpty (numShards dim : Nat) (aligned : dim % 64 = 0)
    (ops : List (StoreOp F)) :
    WellFormed ((empty numShards dim : SharedVectorStore F).run ops) :=
  wellFormed_run _ ops (wellFormed_empty numShards dim aligned)

omit [FloatArith F] in
theorem sum_modify (shards : List (CoreShard F)) (s : Nat) (inside : s < shards.length)
    (change : CoreShard F → CoreShard F)
    (grows : ∀ shard, (change shard).keys.length = shard.keys.length + 1) :
    ((shards.modify s change).map fun shard => shard.keys.length).sum =
      (shards.map fun shard => shard.keys.length).sum + 1 := by
  induction shards generalizing s with
  | nil => cases inside
  | cons shard shards ih =>
    cases s with
    | zero =>
      simp only [List.modify_zero_cons, List.map_cons, List.sum_cons, grows]
      omega
    | succ s =>
      have rest := ih s (Nat.lt_of_succ_lt_succ inside)
      simp only [List.modify_succ_cons, List.map_cons, List.sum_cons, rest]
      omega

theorem run_concat (store : SharedVectorStore F) (ops : List (StoreOp F)) (op : StoreOp F) :
    store.run (ops ++ [op]) = (store.run ops).apply op := by
  rw [run, List.foldl_append]
  rfl

omit [FloatArith F] in
theorem added_concat (ops : List (StoreOp F)) (op : StoreOp F) :
    added (ops ++ [op]) = addedSince (added ops) op := by
  rw [added, List.foldl_append]
  rfl

omit [FloatArith F] in
theorem mem_added (ops : List (StoreOp F)) (vector : Added F) (member : vector ∈ added ops) :
    .add vector.key vector.quantized vector.floats ∈ ops := by
  induction ops using List.reverseRecOn with
  | nil => cases member
  | append_singleton ops op ih =>
    rw [added_concat] at member
    apply List.mem_append.mpr
    cases op with
    | add key quantized floats =>
      rcases List.mem_append.mp member with before | last
      · exact .inl (ih before)
      · obtain rfl := List.mem_singleton.mp last
        exact .inr List.mem_cons_self
    | clear => cases member

omit [FloatArith F] in
theorem length_added (ops : List (StoreOp F)) (adds : ∀ op ∈ ops, op ≠ .clear) :
    (added ops).length = ops.length := by
  induction ops using List.reverseRecOn with
  | nil => rfl
  | append_singleton ops op ih =>
    have before := ih fun other member => adds other (List.mem_append_left _ member)
    cases op with
    | add key quantized floats => simp [added_concat, addedSince, before]
    | clear => exact absurd rfl (adds .clear (by simp))

omit [FloatArith F] in
theorem length_added_le (ops : List (StoreOp F)) : (added ops).length ≤ ops.length := by
  induction ops using List.reverseRecOn with
  | nil => exact Nat.le_refl _
  | append_singleton ops op ih =>
    cases op with
    | add key quantized floats =>
      simp only [added_concat, addedSince, List.length_append, List.length_singleton]
      omega
    | clear => simp [added_concat, addedSince]

theorem len_run (numShards dim : Nat) (positive : 0 < numShards) (ops : List (StoreOp F)) :
    ((empty numShards dim : SharedVectorStore F).run ops).len = (added ops).length := by
  induction ops using List.reverseRecOn with
  | nil => simp [run, added, len, empty, CoreShard.new]
  | append_singleton ops op ih =>
    have placed := placed_run (F := F) numShards dim ops
    rw [run_concat, added_concat]
    cases op with
    | add key quantized floats =>
      rw [addedSince, List.length_append, List.length_singleton, ← ih]
      refine sum_modify _ _ ?_ _ fun shard => ?_
      · rw [placed.shards_length]
        exact Nat.mod_lt _ positive
      · simp [addToShard, CoreShard.rebuildBlocks]
    | clear => simp [apply, addedSince, clear, len, CoreShard.new]

theorem Placed.length_keys {numShards dim : Nat} {store : SharedVectorStore F}
    {vectors : List (Added F)} (placed : Placed numShards dim store vectors) (s : Nat)
    (shard : CoreShard F) (present : store.shards[s]? = some shard)
    (few : vectors.length ≤ 2 ^ 64) :
    shard.keys.length = (vectors.length + numShards - 1 - s) / numShards := by
  have inside : s < numShards := by
    rw [← placed.shards_length]
    exact (List.getElem?_eq_some_iff.mp present).1
  rw [placed.keys_eq s shard present, List.length_map]
  exact RoundRobin.length_dealt s inside vectors fun i small => Nat.mod_eq_of_lt (by omega)

-- The place of a vector in its shard is its place among those dealt to that shard.
theorem Placed.dealt {numShards dim : Nat} {store : SharedVectorStore F}
    {vectors : List (Added F)} (placed : Placed numShards dim store vectors) (s : Nat)
    (shard : CoreShard F) (present : store.shards[s]? = some shard) (i : Nat) (vector : Added F)
    (found : (dealtTo numShards s vectors)[i]? = some vector) :
    shard.keys[i]? = some vector.key ∧
      row store.numBlocks shard i = store.quantize vector.quantized ∧
      floatRow dim shard i = padFloats dim vector.floats := by
  have bits := Records.recordAt_flatMap (fun vector : Added F => store.quantize vector.quantized)
    (fun vector => length_quantize store vector.quantized) _ _ _ found
  have floats := Records.recordAt_flatMap (fun vector : Added F => padFloats dim vector.floats)
    (fun vector => length_padFloats dim vector.floats) _ _ _ found
  refine ⟨?_, ?_, ?_⟩
  · rw [placed.keys_eq _ _ present, List.getElem?_map, found, Option.map_some]
  · rw [row, placed.data_eq _ _ present]
    exact bits
  · rw [floatRow, placed.floats_eq _ _ present]
    exact floats

theorem Placed.vector {numShards dim : Nat} {store : SharedVectorStore F}
    {vectors : List (Added F)} (placed : Placed numShards dim store vectors)
    (positive : 0 < numShards) (i : Nat) (small : i < 2 ^ 64) (vector : Added F)
    (found : vectors[i]? = some vector) :
    ∃ shard, store.shards[i % numShards]? = some shard ∧
      shard.keys[i / numShards]? = some vector.key ∧
      row store.numBlocks shard (i / numShards) = store.quantize vector.quantized ∧
      floatRow dim shard (i / numShards) = padFloats dim vector.floats := by
  have inside : i % numShards < store.shards.length := by
    rw [placed.shards_length]
    exact Nat.mod_lt _ positive
  have present := List.getElem?_eq_getElem inside
  have dealt := getElem?_dealtTo positive vectors i small vector found
  exact ⟨_, present, placed.dealt _ _ present _ _ dealt⟩

theorem vectors_placed (numShards dim : Nat) (positive : 0 < numShards) (aligned : dim % 64 = 0)
    (ops : List (StoreOp F)) :
    let store := (empty numShards dim : SharedVectorStore F).run ops
    (store.shards.length = numShards ∧ store.len = (added ops).length) ∧
      (∀ i < 2 ^ 64, ∀ vector, (added ops)[i]? = some vector →
        ∃ shard, store.shards[i % numShards]? = some shard ∧
          shard.keys[i / numShards]? = some vector.key ∧
          row store.numBlocks shard (i / numShards) = store.quantize vector.quantized ∧
          floatRow dim shard (i / numShards) = vector.floats.take dim ++
            List.replicate (dim - vector.floats.length) FloatArith.zero) ∧
      ∀ shard ∈ store.shards,
        shard.data.length = shard.keys.length * store.numBlocks ∧
          shard.floatData.length = shard.keys.length * dim ∧
          shard.blocks = (List.range ((shard.keys.length + 127) / 128)).map fun b =>
            CoreShard.computeSignature shard.data (128 * b) (min (128 * (b + 1)) shard.keys.length)
              store.numBlocks := by
  intro store
  have placed : Placed numShards dim store (added ops) := placed_run numShards dim ops
  have formed : WellFormed store := wellFormed_runEmpty numShards dim aligned ops
  refine ⟨⟨placed.shards_length, len_run numShards dim positive ops⟩, ?_, ?_⟩
  · intro i small vector found
    rw [← padFloats_eq]
    exact placed.vector positive i small vector found
  · intro shard member
    obtain ⟨rows, floatRows, blocks⟩ := formed.shards shard member
    rw [placed.dim_eq] at floatRows
    refine ⟨rows, floatRows, ?_⟩
    rw [blocks, blocksOf]
    simp only [Nat.mul_comm]

-- The first vector has one float too many, the second 63 too few.
theorem vectors_placed_two :
    let store := (empty 4 64 : SharedVectorStore Int).run
      [.add (AirKey.fromBytes (ascii "a")) (List.replicate 65 1) (List.replicate 65 1),
        .add (AirKey.fromBytes (ascii "b")) [-1] [-1]]
    (∃ shard, store.shards[0]? = some shard ∧
      shard.keys[0]? = some (AirKey.fromBytes (ascii "a")) ∧
      row store.numBlocks shard 0 = store.quantize (List.replicate 65 1) ∧
      floatRow 64 shard 0 = List.replicate 64 1) ∧
    ∃ shard, store.shards[1]? = some shard ∧
      shard.keys[0]? = some (AirKey.fromBytes (ascii "b")) ∧
      row store.numBlocks shard 0 = store.quantize [-1] ∧
      floatRow 64 shard 0 = -1 :: List.replicate 63 0 := by
  have placed := (vectors_placed (F := Int) 4 64 (by decide) rfl
    [.add (AirKey.fromBytes (ascii "a")) (List.replicate 65 1) (List.replicate 65 1),
      .add (AirKey.fromBytes (ascii "b")) [-1] [-1]]).2.1
  exact ⟨placed 0 (by decide) _ rfl, placed 1 (by decide) _ rfl⟩

end SharedVectorStore

end OmegaDrive
