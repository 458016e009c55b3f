import OmegaDrive.Store.Inference

set_option autoImplicit false

namespace OmegaDrive

/-- A CUDA device with the kernels loaded. The float layers of its router are, as the CPU's, only a
choice of expert; whether the runtime's calls for a batch of rows all return `Ok` is its own. -/
structure CudaDevice where
  router : Chunk → Expert
  forwards : Nat → Bool
  reconstructs : Nat → Bool
  -- The kernels count bytes in an `int`: a batch past its range is an illegal access.
  addressed : ∀ batchSize, forwards batchSize = true ∨ reconstructs batchSize = true →
    batchSize * 64 ≤ 2 ^ 31

structure CudaModel extends McnnModel where
  cudaDevice : Option CudaDevice

namespace CudaModel

variable (model : CudaModel)

/-- One thread of `forward_router_batch`: it routes the row it was given, whatever the others do. -/
def forwardThread (device : CudaDevice) (row : Chunk) : Expert × Chunk :=
  let bestIdx := device.router row
  (bestIdx, Vector.zipWith (· ^^^ ·) row (model.bitKeys bestIdx))

def forwardRouterBatch (device : CudaDevice) (inputs : List Chunk) : List (Expert × Chunk) :=
  inputs.map (model.forwardThread device)

-- One thread of `reconstruct_batch`.
def reconstructThread (job : Chunk × Expert) : Chunk :=
  Vector.zipWith (· ^^^ ·) job.1 (model.bitKeys job.2)

def reconstructBatch (compressed : List Chunk) (specIndices : List Expert) : List Chunk :=
  (compressed.zip specIndices).map model.reconstructThread

-- The host copies every index back, and keeps `indices[0]`.
def forwardGpuAsync (device : CudaDevice) (input : Bytes) : Option (Expert × List Chunk) :=
  let padded := rows input
  if device.forwards padded.length then
    match model.forwardRouterBatch device padded with
    | [] => none
    | (idx, first) :: rest => some (idx, first :: rest.map Prod.snd)
  else none

def reconstructGpuExt (device : CudaDevice) (bestIdx : Expert) (chunks : List Chunk)
    (originalLen : Nat) : Option Bytes :=
  if device.reconstructs chunks.length then
    some (((model.reconstructBatch chunks (List.replicate chunks.length bestIdx)).flatMap
      fun row => row.toList).take originalLen)
  else none

-- The device is asked when there is one and the batch is large, and the CPU when it fails.
def forwardRaw (input : Bytes) : Expert × List Chunk :=
  if input = [] then model.toMcnnModel.forwardRaw input
  else
    match model.cudaDevice with
    | some device =>
      if 1024 ≤ (input.length + 63) / 64 then
        (model.forwardGpuAsync device input).getD (model.toMcnnModel.forwardRaw input)
      else model.toMcnnModel.forwardRaw input
    | none => model.toMcnnModel.forwardRaw input

def reconstructRaw (bestIdx : Expert) (chunks : List Chunk) (originalLen : Nat) : Bytes :=
  match model.cudaDevice with
  | some device =>
    if 1024 ≤ chunks.length then
      (model.reconstructGpuExt device bestIdx chunks originalLen).getD
        (model.toMcnnModel.reconstructRaw bestIdx chunks originalLen)
    else model.toMcnnModel.reconstructRaw bestIdx chunks originalLen
  | none => model.toMcnnModel.reconstructRaw bestIdx chunks originalLen

theorem reconstructRaw_eq (bestIdx : Expert) (chunks : List Chunk) (originalLen : Nat) :
    model.reconstructRaw bestIdx chunks originalLen =
      model.toMcnnModel.reconstructRaw bestIdx chunks originalLen := by
  have batch : model.reconstructBatch chunks (List.replicate chunks.length bestIdx) =
      chunks.map (model.reconstruct bestIdx) := by
    rw [reconstructBatch, ← List.map_const', List.zip_map_right, List.map_map]
    induction chunks with
    | nil => rfl
    | cons chunk chunks ih => rw [List.zip_cons_cons, List.map_cons, ih]; rfl
  unfold reconstructRaw
  split
  next device _ =>
    split
    next =>
      rw [reconstructGpuExt, batch, List.flatMap_map]
      split
      · rfl
      · rfl
    next => rfl
  next => rfl

-- Each row is encrypted under its own expert, and the index kept is the first row's.
def encryptRow (device : CudaDevice) (row : Chunk) : Chunk :=
  model.forwardWithExpert (device.router row) row

theorem forwardGpuAsync_cons (device : CudaDevice) (input : Bytes) (nonempty : input ≠ [])
    (completes : device.forwards (rows input).length = true) :
    model.forwardGpuAsync device input =
      some (device.router (rowAt input 0), (rows input).map (model.encryptRow device)) := by
  unfold forwardGpuAsync
  simp only [completes, if_true, forwardRouterBatch]
  rw [rows_cons input nonempty]
  simp only [List.map_cons, List.map_map, forwardThread]
  rfl

theorem forwardGpuAsync_eq_some (device : CudaDevice) (input : Bytes) (nonempty : input ≠ [])
    (idx : Expert) (chunks : List Chunk)
    (taken : model.forwardGpuAsync device input = some (idx, chunks)) :
    idx = device.router (rowAt input 0) ∧ chunks = (rows input).map (model.encryptRow device) := by
  by_cases completes : device.forwards (rows input).length = true
  · rw [model.forwardGpuAsync_cons device input nonempty completes] at taken
    obtain ⟨rfl, rfl⟩ := Prod.mk.inj (Option.some.inj taken)
    exact ⟨rfl, rfl⟩
  · simp only [forwardGpuAsync, completes] at taken
    cases taken

def rowKey (device : CudaDevice) (input : Bytes) (i : Nat) : Chunk :=
  model.bitKeys (device.router (rowAt input i))

-- Every byte stands where the key of its own row's expert is the key of the first row's.
def OneKey (device : CudaDevice) (input : Bytes) : Prop :=
  ∀ i < input.length, (model.rowKey device input (i / 64))[i % 64]? =
    (model.rowKey device input 0)[i % 64]?

theorem xor_twice_eq (byte first second : Byte) :
    byte ^^^ first ^^^ second = byte ↔ first = second := by
  rw [UInt8.xor_assoc, ← UInt8.xor_eq_zero_iff (a := first)]
  conv_lhs => rhs; rw [← UInt8.xor_zero (a := byte)]
  exact UInt8.xor_right_inj byte

theorem decode_encryptRows (device : CudaDevice) (input : Bytes) :
    model.toMcnnModel.reconstructRaw (device.router (rowAt input 0))
        ((rows input).map (model.encryptRow device)) input.length = input ↔
      model.OneKey device input := by
  have rowwise : model.toMcnnModel.reconstructRaw (device.router (rowAt input 0))
      ((rows input).map (model.encryptRow device)) input.length =
        (((rows input).map fun row =>
          model.reconstruct (device.router (rowAt input 0)) (model.encryptRow device row)).flatMap
            fun row => row.toList).take input.length := by
    rw [McnnModel.reconstructRaw, List.flatMap_map, List.flatMap_map]
  rw [rowwise, take_rows_eq_iff, OneKey]
  apply forall₂_congr
  intro i _
  have short : i % 64 < 64 := Nat.mod_lt _ (by decide)
  simp only [McnnModel.reconstruct, encryptRow, McnnModel.forwardWithExpert,
    Vector.getElem_zipWith, Vector.getElem?_eq_getElem short, Option.some.injEq]
  exact xor_twice_eq _ _ _

theorem gpu_roundTrip_iff (device : CudaDevice) (present : model.cudaDevice = some device)
    (input : Bytes) (large : 1024 ≤ (input.length + 63) / 64) (idx : Expert) (chunks : List Chunk)
    (taken : model.forwardGpuAsync device input = some (idx, chunks)) :
    model.forwardRaw input = (idx, chunks) ∧
      (model.reconstructRaw idx chunks input.length = input ↔ model.OneKey device input) ∧
      (model.toMcnnModel.reconstructRaw idx chunks input.length = input ↔
        model.OneKey device input) := by
  have nonempty : input ≠ [] := by
    rintro rfl
    simp at large
  refine ⟨?_, ?_, ?_⟩
  · simp only [forwardRaw, nonempty, present, large, taken, if_true, if_false, Option.getD_some]
  · obtain ⟨rfl, rfl⟩ := model.forwardGpuAsync_eq_some device input nonempty idx chunks taken
    rw [reconstructRaw_eq]
    exact model.decode_encryptRows device input
  · obtain ⟨rfl, rfl⟩ := model.forwardGpuAsync_eq_some device input nonempty idx chunks taken
    exact model.decode_encryptRows device input

end CudaModel

theorem flag_lt (flag : Bool) : flag.toNat < 100 := by
  cases flag <;> decide

-- A row routes by its first byte to one of two experts.
def twoExperts (row : Chunk) : Expert := ⟨(row[0]? != some 0).toNat, flag_lt _⟩

-- It takes what it can address.
def smallDevice : CudaDevice where
  router := twoExperts
  forwards batchSize := batchSize * 64 ≤ 2 ^ 31
  reconstructs batchSize := batchSize * 64 ≤ 2 ^ 31
  addressed batchSize completes := by simpa using completes

-- The key of an expert is its number, in every byte.
def twoKeys : CudaModel where
  bitKeys bestIdx := Vector.replicate 64 (UInt8.ofNat bestIdx)
  router := twoExperts
  keystream _ _ _ := 0
  cudaDevice := some smallDevice

namespace CudaModel

theorem rowKey_twoKeys (input : Bytes) (i : Nat) (byte : Byte)
    (stored : input[i * 64]? = some byte) :
    twoKeys.rowKey smallDevice input i =
      Vector.replicate 64 (UInt8.ofNat (byte != 0).toNat) := by
  obtain ⟨inside, rfl⟩ := List.getElem?_eq_some_iff.mp stored
  have first := rowAt_getElem input (i * 64) inside
  simp only [Nat.mul_div_cancel _ (by decide : 0 < 64), Nat.mul_mod_left] at first
  have routed : (rowAt input i)[0]? = some input[i * 64] := by
    rw [Vector.getElem?_eq_getElem (by decide), first]
  simp only [rowKey, twoKeys, smallDevice, twoExperts, routed]
  rfl

@[irreducible] def zeros : Bytes := List.replicate (1024 * 64) 0

theorem zeros_length : zeros.length = 1024 * 64 := by
  rw [zeros, List.length_replicate]

theorem zeros_getElem? (i : Nat) (inside : i < zeros.length) : zeros[i]? = some 0 := by
  rw [zeros_length] at inside
  rw [zeros]
  exact List.getElem?_replicate_of_lt inside

theorem gpu_roundTrip_zeros :
    twoKeys.reconstructRaw (smallDevice.router (rowAt zeros 0))
      ((rows zeros).map (twoKeys.encryptRow smallDevice)) zeros.length = zeros := by
  have length := zeros_length
  have nonempty : zeros ≠ [] := List.length_pos_iff.mp (by omega)
  have completes : smallDevice.forwards (rows zeros).length = true := by
    rw [length_rows, length]
    decide
  have taken := twoKeys.forwardGpuAsync_cons smallDevice zeros nonempty completes
  have key (i : Nat) (inside : i * 64 < zeros.length) :
      twoKeys.rowKey smallDevice zeros i = Vector.replicate 64 (UInt8.ofNat (0 != 0).toNat) :=
    rowKey_twoKeys zeros i 0 (zeros_getElem? _ inside)
  have roundTrip := twoKeys.gpu_roundTrip_iff smallDevice rfl zeros (by omega) _ _ taken
  apply roundTrip.2.1.mpr
  intro i inside
  rw [key (i / 64) (by omega), key 0 (by omega)]

-- 1023 rows of zeros, and one byte that routes the last row elsewhere.
@[irreducible] def mixedInput : Bytes := List.replicate (1023 * 64) 0 ++ [1]

-- The last byte of such a value comes back changed.
theorem gpu_mixed : ¬∀ (model : CudaModel) (device : CudaDevice) (input : Bytes) (idx : Expert)
    (chunks : List Chunk), model.cudaDevice = some device → 1024 ≤ (input.length + 63) / 64 →
      model.forwardGpuAsync device input = some (idx, chunks) →
      model.reconstructRaw idx chunks input.length = input := by
  intro inverse
  have length : mixedInput.length = 1023 * 64 + 1 := by
    rw [mixedInput, List.length_append, List.length_replicate, List.length_singleton]
  have nonempty : mixedInput ≠ [] := List.length_pos_iff.mp (by omega)
  have completes : smallDevice.forwards (rows mixedInput).length = true := by
    rw [length_rows, length]
    decide
  have taken := twoKeys.forwardGpuAsync_cons smallDevice mixedInput nonempty completes
  have decoded := inverse twoKeys smallDevice mixedInput _ _ rfl (by omega) taken
  rw [reconstructRaw_eq] at decoded
  have oneKey := (twoKeys.decode_encryptRows smallDevice mixedInput).mp decoded
  have head : (List.replicate (1023 * 64) (0 : Byte)).length = 1023 * 64 := List.length_replicate
  have first := rowKey_twoKeys mixedInput 0 0 (by
    rw [mixedInput, List.getElem?_append_left (by omega)]
    exact List.getElem?_replicate_of_lt (by decide))
  have last := rowKey_twoKeys mixedInput 1023 1 (by
    rw [mixedInput, List.getElem?_append_right (by omega), head]
    rfl)
  have keys := oneKey (1023 * 64) (by omega)
  rw [Nat.mul_div_cancel _ (by decide : 0 < 64), first, last] at keys
  simp at keys

end CudaModel

end OmegaDrive
