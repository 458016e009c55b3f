import OmegaDrive.Store.Database

set_option autoImplicit false

namespace OmegaDrive

/-- The bytes of the stored chunks that no reader of the value returns. -/
def NeuralValue.padding : NeuralValue → Bytes
  | .single _ data len => data.toList.drop len
  | .multi originalLen _ chunks => (chunks.flatMap fun chunk => chunk.toList).drop originalLen
  | .flatHash _ => []

-- Where the padding of the last chunk begins: a value that fills its chunks has none, and the empty
-- value has nothing else.
def paddedFrom (length : Nat) : Nat :=
  if length = 0 then 0 else if length % 64 = 0 then 64 else length % 64

theorem NeuralValue.padding_ofForward (len : Nat) (bestIdx : Expert) (chunks : List Chunk) :
    (NeuralValue.ofForward len (bestIdx, chunks)).padding =
      (chunks.flatMap fun chunk => chunk.toList).drop len := by
  rcases McnnModel.ofForward_cases len bestIdx chunks with ⟨chunk, rfl, layout⟩ | layout <;>
    simp [layout, padding]

theorem rowAt_getElem_zero (input : Bytes) (q r : Nat) (inside : r < 64)
    (past : input.length ≤ q * 64 + r) : (rowAt input q)[r] = 0 := by
  simp only [rowAt, padRow, Vector.getElem_ofFn, List.getD_eq_getElem?_getD]
  rw [List.getElem?_eq_none (by rw [List.length_take, List.length_drop]; omega), Option.getD_none]

namespace McnnModel

variable (model : McnnModel)

-- Past the end of the value, the stored chunk is the expert's key itself.
theorem stored_getElem? (codec : Codec) (value : Bytes) (i : Nat) (past : value.length ≤ i)
    (inside : i / 64 < max 1 ((value.length + 63) / 64)) :
    ((model.forward codec value).2.flatMap fun chunk => chunk.toList)[i]? =
      (model.bitKeys (model.expertOf value))[i % 64]? := by
  rw [flatMap_toList_getElem?, forward_eq, Vector.getElem?_eq_getElem (Nat.mod_lt i (by decide))]
  by_cases empty : value = []
  · have first : i / 64 = 0 := by
      rw [empty, List.length_nil] at inside
      omega
    simp [empty, first, forwardWithExpert, zeroChunk]
  · have size := model.length_layer codec value
    have positive : 0 < value.length := List.length_pos_iff.mpr empty
    have row := rows_row (model.layer codec value) (i / 64) (by omega)
    have zero := rowAt_getElem_zero (model.layer codec value) (i / 64) (i % 64)
      (Nat.mod_lt _ (by decide)) (by omega)
    simp [empty, row, forwardWithExpert, zero]

theorem padding_encode (codec : Codec) (value : Bytes) :
    (model.encode codec value).padding =
      (model.bitKeys (model.expertOf value)).toList.drop (paddedFrom value.length) := by
  have stored := model.stored_getElem? codec value
  have count := model.length_forward codec value
  rcases built : model.forward codec value with ⟨bestIdx, chunks⟩
  simp only [built] at stored count
  rw [encode, built, NeuralValue.padding_ofForward]
  have total : (chunks.flatMap fun chunk => chunk.toList).length = chunks.length * 64 := by
    simp [List.length_flatMap]
  have start : chunks.length * 64 = value.length + (64 - paddedFrom value.length) := by
    unfold paddedFrom
    split
    next => omega
    next => split <;> omega
  have bound : paddedFrom value.length ≤ 64 := by
    unfold paddedFrom
    split
    next => omega
    next => split <;> omega
  apply List.ext_getElem?
  intro j
  rw [List.getElem?_drop, List.getElem?_drop]
  by_cases inside : j < 64 - paddedFrom value.length
  · have place : (value.length + j) % 64 = paddedFrom value.length + j := by omega
    rw [stored (value.length + j) (by omega) (by omega)]
    simp [place]
  · rw [List.getElem?_eq_none (by omega), List.getElem?_eq_none (by simp; omega)]

theorem drop_key_eq_iff (key other : Chunk) (start : Nat) :
    key.toList.drop start = other.toList.drop start ↔
      ∀ r : Fin 64, start ≤ r → key[r] = other[r] := by
  constructor
  · intro same r past
    have byte := congrArg (·[r.val - start]?) same
    simpa [List.getElem?_drop, Nat.add_sub_cancel' past] using byte
  · intro same
    apply List.ext_getElem?
    intro j
    rw [List.getElem?_drop, List.getElem?_drop]
    by_cases inside : start + j < 64
    · simpa [inside] using same ⟨start + j, inside⟩ (Nat.le_add_right _ _)
    · simp [inside]

theorem padding_eq_iff (model other : McnnModel) (value : Bytes)
    (same : model.expertOf value = other.expertOf value) :
    (model.encode .cascade value).padding = (other.encode .cascade value).padding ↔
      ∀ r : Fin 64, paddedFrom value.length ≤ r →
        (model.bitKeys (model.expertOf value))[r] = (other.bitKeys (model.expertOf value))[r] := by
  rw [padding_encode, padding_encode, ← same]
  exact drop_key_eq_iff _ _ _

-- One expert, under a key of one byte throughout.
def plainKeyed (byte : Byte) : McnnModel :=
  { bitKeys := fun _ => Vector.replicate 64 byte, router := fun _ => Fin.last 99
    keystream := fun _ _ _ => 0 }

-- The first three bytes of the key are its own.
def threeKeyed (byte : Byte) : McnnModel :=
  { plainKeyed byte with bitKeys := fun _ => Vector.ofFn fun r => if r.val < 3 then byte else 7 }

-- The value ends behind the third byte of its second chunk.
theorem padding_eq_partial :
    ((threeKeyed 0).encode .cascade (List.replicate 67 1)).padding =
      ((threeKeyed 1).encode .cascade (List.replicate 67 1)).padding :=
  (padding_eq_iff (threeKeyed 0) (threeKeyed 1) (List.replicate 67 1) rfl).mpr fun r past => by
    have behind : ¬r.val < 3 := by
      rw [List.length_replicate] at past
      exact Nat.not_lt.mpr past
    simp [threeKeyed, behind]

-- The empty value is stored as the key.
theorem padding_shows_key :
    ((plainKeyed 0).encode .cascade []).padding ≠ ((plainKeyed 1).encode .cascade []).padding := by
  simp only [padding_encode]
  decide

end McnnModel

end OmegaDrive
