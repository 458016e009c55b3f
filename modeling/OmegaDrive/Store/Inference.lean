import OmegaDrive.Resp.Text

set_option autoImplicit false

namespace OmegaDrive

-- `[u8; 64]`
abbrev Chunk := Vector Byte 64

/-- An index into the hundred expert keys; the store keeps it as a `u16`, which holds them all. -/
abbrev Expert := Fin 100

/-- The router's two float layers are only used as a choice of expert, and ChaCha20 only as the
keystream its key and nonce give. -/
structure McnnModel where
  bitKeys : Expert → Chunk
  router : Chunk → Expert
  keystream : (key nonce : Bytes) → Nat → Byte

def zeroChunk : Chunk := Vector.replicate 64 0

/-- A zeroed array with the data copied over its beginning. -/
def padRow {n : Nat} (data : Bytes) : Vector Byte n := Vector.ofFn fun i => data.getD i 0

-- The rows `input[i*64 .. min((i+1)*64, len)]`, each padded with zeros.
def rows (input : Bytes) : List Chunk :=
  (List.range ((input.length + 63) / 64)).map fun i => padRow ((input.drop (i * 64)).take 64)

namespace McnnModel

variable (model : McnnModel)

def forwardWithExpert (bestIdx : Expert) (row : Chunk) : Chunk :=
  Vector.zipWith (· ^^^ ·) row (model.bitKeys bestIdx)

def forwardSingle (chunk : Chunk) : Expert × Chunk :=
  (model.router chunk, model.forwardWithExpert (model.router chunk) chunk)

-- `input[..min(len, 64)].try_into().unwrap_or([0; 64])`: a shorter value routes as zeros.
def routedChunk (input : Bytes) : Chunk :=
  if 64 ≤ input.length then padRow (input.take 64) else zeroChunk

def forwardRaw (input : Bytes) : Expert × List Chunk :=
  if input = [] then
    let (idx, out) := model.forwardSingle zeroChunk
    (idx, [out])
  else
    let (bestIdx, _) := model.forwardSingle (routedChunk input)
    (bestIdx, (rows input).map (model.forwardWithExpert bestIdx))

def expertStream (bestIdx : Expert) : Nat → Byte :=
  let expertKey := (model.bitKeys bestIdx).toList
  model.keystream (expertKey.take 32) ((expertKey.drop 32).take 12)

def applyKeystream (bestIdx : Expert) (data : Bytes) : Bytes :=
  data.mapIdx fun i byte => byte ^^^ model.expertStream bestIdx i

def forwardCascade (input : Bytes) : Expert × List Chunk :=
  if input = [] then
    let (idx, out) := model.forwardSingle zeroChunk
    (idx, [out])
  else
    let (bestIdx, _) := model.forwardSingle (routedChunk input)
    (bestIdx, (rows (model.applyKeystream bestIdx input)).map (model.forwardWithExpert bestIdx))

def reconstruct (bestIdx : Expert) (compressed : Chunk) : Chunk :=
  model.forwardWithExpert bestIdx compressed

def reconstructRaw (bestIdx : Expert) (chunks : List Chunk) (originalLen : Nat) : Bytes :=
  (chunks.flatMap fun chunk => (model.reconstruct bestIdx chunk).toList).take originalLen

def reconstructCascade (bestIdx : Expert) (chunks : List Chunk) (originalLen : Nat) : Bytes :=
  model.applyKeystream bestIdx
    ((chunks.flatMap fun chunk => (model.reconstruct bestIdx chunk).toList).take originalLen)

def expertOf (input : Bytes) : Expert :=
  if input = [] then model.router zeroChunk else model.router (routedChunk input)

theorem reconstruct_forward (bestIdx : Expert) (row : Chunk) :
    model.reconstruct bestIdx (model.forwardWithExpert bestIdx row) = row := by
  ext i inside
  simp only [reconstruct, forwardWithExpert, Vector.getElem_zipWith]
  rw [UInt8.xor_assoc, UInt8.xor_self, UInt8.xor_zero]

@[simp] theorem length_applyKeystream (bestIdx : Expert) (data : Bytes) :
    (model.applyKeystream bestIdx data).length = data.length := by
  simp [applyKeystream]

@[simp] theorem applyKeystream_nil (bestIdx : Expert) : model.applyKeystream bestIdx [] = [] := rfl

theorem applyKeystream_twice (bestIdx : Expert) (data : Bytes) :
    model.applyKeystream bestIdx (model.applyKeystream bestIdx data) = data := by
  apply List.ext_getElem
  · simp
  · intro i _ _
    simp only [applyKeystream, List.getElem_mapIdx]
    rw [UInt8.xor_assoc, UInt8.xor_self, UInt8.xor_zero]

theorem applyKeystream_eq_self (bestIdx : Expert) (data : Bytes) :
    model.applyKeystream bestIdx data = data ↔
      ∀ i < data.length, model.expertStream bestIdx i = 0 := by
  constructor
  · intro same i inside
    have byte := List.getElem_of_eq same (by simpa using inside)
    simp only [applyKeystream, List.getElem_mapIdx] at byte
    have cancelled := congrArg (data[i] ^^^ ·) byte
    simpa [← UInt8.xor_assoc] using cancelled
  · intro silent
    apply List.ext_getElem
    · simp
    · intro i _ inside
      simp [applyKeystream, silent i inside]

end McnnModel

theorem toList_padRow {n : Nat} (data : Bytes) (short : data.length ≤ n) :
    (padRow data : Vector Byte n).toList = data ++ List.replicate (n - data.length) 0 := by
  apply List.ext_getElem
  · simp
    omega
  · intro i inside _
    by_cases within : i < data.length
    · simp [padRow, List.getElem_append_left, within]
    · rw [List.getElem_append_right (by omega)]
      simp [padRow, within]

@[simp] theorem length_rows (input : Bytes) :
    (rows input).length = (input.length + 63) / 64 := by
  simp [rows]

def rowAt (input : Bytes) (i : Nat) : Chunk := padRow ((input.drop (i * 64)).take 64)

theorem rows_row (input : Bytes) (q : Nat) (within : q < (input.length + 63) / 64) :
    (rows input)[q]? = some (rowAt input q) := by
  simp [rows, rowAt, within]

theorem rows_getElem? (input : Bytes) (i : Nat) (inside : i < input.length) :
    (rows input)[i / 64]? = some (rowAt input (i / 64)) :=
  rows_row input (i / 64) (by omega)

theorem rows_cons (input : Bytes) (some' : input ≠ []) :
    rows input = rowAt input 0 :: (rows input).tail := by
  have first := rows_getElem? input 0 (List.length_pos_iff.mpr some')
  cases stored : rows input with
  | nil => rw [stored] at first; cases first
  | cons head tail =>
    rw [stored] at first
    exact congrArg (· :: tail) (Option.some.inj first)

theorem rowAt_getElem (input : Bytes) (i : Nat) (inside : i < input.length) :
    (rowAt input (i / 64))[i % 64] = input[i] := by
  have short : i % 64 < 64 := Nat.mod_lt _ (by decide)
  have place : i / 64 * 64 + i % 64 = i := by omega
  simp only [rowAt, padRow, Vector.getElem_ofFn, List.getD_eq_getElem?_getD]
  rw [List.getElem?_take_of_lt short, List.getElem?_drop, place, List.getElem?_eq_getElem inside,
    Option.getD_some]

theorem flatMap_toList_getElem? (chunks : List Chunk) (i : Nat) :
    (chunks.flatMap fun chunk => chunk.toList)[i]? =
      chunks[i / 64]?.map fun chunk => chunk[i % 64] := by
  induction chunks generalizing i with
  | nil => simp
  | cons chunk chunks ih =>
    rw [List.flatMap_cons]
    by_cases front : i < 64
    · have first : i / 64 = 0 := by omega
      have same : i % 64 = i := Nat.mod_eq_of_lt front
      rw [List.getElem?_append_left (by simpa using front), first]
      simp [same, front]
    · obtain ⟨j, rfl⟩ : ∃ j, i = j + 64 := ⟨i - 64, by omega⟩
      rw [List.getElem?_append_right (by simp), Vector.length_toList, Nat.add_sub_cancel, ih]
      simp

theorem take_rows_getElem? (change : Chunk → Chunk) (input : Bytes) (i : Nat)
    (inside : i < input.length) :
    ((((rows input).map change).flatMap fun row => row.toList).take input.length)[i]? =
      some ((change (rowAt input (i / 64)))[i % 64]) := by
  rw [List.getElem?_take_of_lt inside, flatMap_toList_getElem?, List.getElem?_map,
    rows_getElem? input i inside, Option.map_some, Option.map_some]

theorem take_rows_eq_iff (change : Chunk → Chunk) (input : Bytes) :
    (((rows input).map change).flatMap fun row => row.toList).take input.length = input ↔
      ∀ i < input.length, (change (rowAt input (i / 64)))[i % 64] =
        (rowAt input (i / 64))[i % 64] := by
  constructor
  · intro same i inside
    have byte := take_rows_getElem? change input i inside
    rw [same, List.getElem?_eq_getElem inside, ← rowAt_getElem input i inside] at byte
    exact (Option.some.inj byte).symm
  · intro alone
    apply List.ext_getElem?
    intro i
    by_cases inside : i < input.length
    · rw [take_rows_getElem? change input i inside, alone i inside, rowAt_getElem,
        List.getElem?_eq_getElem inside]
    · rw [List.getElem?_eq_none (by rw [List.length_take]; omega),
        List.getElem?_eq_none (Nat.le_of_not_lt inside)]

theorem take_rows (input : Bytes) :
    ((rows input).flatMap fun row => row.toList).take input.length = input := by
  have same := (take_rows_eq_iff id input).mpr fun _ _ => rfl
  rwa [List.map_id] at same

end OmegaDrive
