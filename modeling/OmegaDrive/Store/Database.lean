import OmegaDrive.Store.Inference

set_option autoImplicit false

namespace OmegaDrive

inductive AirKey where
  | inline (data : Vector Byte 15) (len : Byte)
  | boxed (bytes : Bytes)

namespace AirKey

def fromBytes (bytes : Bytes) : AirKey :=
  if bytes.length ≤ 15 then .inline (padRow bytes) (UInt8.ofNat bytes.length)
  else .boxed bytes

def asBytes : AirKey → Bytes
  | .inline data len => data.toList.take len.toNat
  | .boxed bytes => bytes

@[simp] theorem asBytes_fromBytes (bytes : Bytes) : (fromBytes bytes).asBytes = bytes := by
  unfold fromBytes
  split
  next short =>
    have len : (UInt8.ofNat bytes.length).toNat = bytes.length :=
      UInt8.toNat_ofNat_of_lt' (Nat.lt_of_le_of_lt short (by decide))
    simp only [asBytes, len, toList_padRow bytes short, List.take_left']
  next => rfl

end AirKey

inductive NeuralValue where
  | single (bestIdx : Expert) (data : Chunk) (len : Nat)
  | multi (originalLen : Nat) (bestIdx : Expert) (chunks : List Chunk)
  | flatHash (buf : Bytes)
  deriving DecidableEq

-- `DashMap<AirKey, NeuralValue>`: keys hash and compare through `as_bytes`.
def Db : Type := Bytes → Option NeuralValue

namespace Db

def clear : Db := fun _ => none

def get (db : Db) (key : AirKey) : Option NeuralValue := db key.asBytes

def insert (db : Db) (key : AirKey) (value : NeuralValue) : Db :=
  fun bytes => if bytes = key.asBytes then some value else db bytes

def remove (db : Db) (key : AirKey) : Db :=
  fun bytes => if bytes = key.asBytes then none else db bytes

-- `DashMap::clear` empties one shard after the other, under the lock of each.
def clearShard {shards : Nat} (shardOf : Bytes → Fin shards) (db : Db) (shard : Fin shards) : Db :=
  fun bytes => if shardOf bytes = shard then none else db bytes

theorem clearShard_all {shards : Nat} (shardOf : Bytes → Fin shards) (db : Db) :
    (List.finRange shards).foldl (clearShard shardOf) db = clear := by
  have passed (cleared : List (Fin shards)) (db : Db) (bytes : Bytes) :
      cleared.foldl (clearShard shardOf) db bytes =
        if shardOf bytes ∈ cleared then none else db bytes := by
    induction cleared generalizing db with
    | nil => simp
    | cons shard cleared ih =>
      rw [List.foldl_cons, ih]
      by_cases first : shardOf bytes = shard <;> simp [clearShard, first]
  funext bytes
  exact (passed _ db bytes).trans (if_pos (List.mem_finRange _))

@[simp] theorem get_clear (key : AirKey) : clear.get key = none := rfl

theorem get_insert (db : Db) (key other : AirKey) (value : NeuralValue) :
    (db.insert key value).get other =
      if other.asBytes = key.asBytes then some value else db.get other := rfl

theorem insert_fromBytes (db : Db) (key : Bytes) (value : NeuralValue) :
    db.insert (AirKey.fromBytes key) value =
      fun other => if other = key then some value else db other := by
  funext other
  simp [insert]

theorem remove_fromBytes (db : Db) (key : Bytes) :
    db.remove (AirKey.fromBytes key) = fun other => if other = key then none else db other := by
  funext other
  simp [remove]

@[simp] theorem get_fromBytes (db : Db) (key : Bytes) : db.get (AirKey.fromBytes key) = db key := by
  simp [get]

end Db

/-- The value SET and MSET build from a codec's answer: one chunk is stored alone. -/
def NeuralValue.ofForward (len : Nat) : Expert × List Chunk → NeuralValue
  | (bestIdx, [chunk]) => .single bestIdx chunk len
  | (bestIdx, chunks) => .multi len bestIdx chunks

/-! Two codecs write strings, and nothing in the stored value says which one did. -/

inductive Codec where
  | cascade
  | raw
  deriving DecidableEq

namespace McnnModel

variable (model : McnnModel)

def forward : Codec → Bytes → Expert × List Chunk
  | .cascade => model.forwardCascade
  | .raw => model.forwardRaw

def encode (codec : Codec) (value : Bytes) : NeuralValue :=
  .ofForward value.length (model.forward codec value)

def readCascade : NeuralValue → Option (Nat × Bytes)
  | .single bestIdx data len => some (len, model.reconstructCascade bestIdx [data] len)
  | .multi originalLen bestIdx chunks =>
      some (originalLen, model.reconstructCascade bestIdx chunks originalLen)
  | .flatHash _ => none

def readRaw : NeuralValue → Option (Nat × Bytes)
  | .single bestIdx data len => some (len, (model.reconstruct bestIdx data).toList.take len)
  | .multi originalLen bestIdx chunks =>
      some (originalLen, model.reconstructRaw bestIdx chunks originalLen)
  | .flatHash _ => none

-- The bytes each codec encrypts with the expert key.
def layer (codec : Codec) (value : Bytes) : Bytes :=
  match codec with
  | .cascade => model.applyKeystream (model.expertOf value) value
  | .raw => value

@[simp] theorem length_layer (codec : Codec) (value : Bytes) :
    (model.layer codec value).length = value.length := by
  cases codec <;> simp [layer]

theorem forward_eq (codec : Codec) (value : Bytes) :
    model.forward codec value =
      (model.expertOf value,
        if value = [] then [model.forwardWithExpert (model.expertOf value) zeroChunk]
        else (rows (model.layer codec value)).map
          (model.forwardWithExpert (model.expertOf value))) := by
  by_cases empty : value = [] <;> cases codec <;>
    simp [forward, forwardCascade, forwardRaw, forwardSingle, expertOf, layer, empty]

theorem forward_expert (codec : Codec) (value : Bytes) :
    (model.forward codec value).1 = model.expertOf value := by
  rw [forward_eq]

theorem take_reconstruct (codec : Codec) (value : Bytes) :
    ((model.forward codec value).2.flatMap fun chunk =>
        (model.reconstruct (model.expertOf value) chunk).toList).take value.length =
      model.layer codec value := by
  rw [forward_eq]
  by_cases empty : value = []
  · subst empty
    cases codec <;> simp [layer]
  · simp only [empty, if_false, List.flatMap_map, reconstruct_forward]
    have bytes := take_rows (model.layer codec value)
    rwa [length_layer] at bytes

theorem length_forward (codec : Codec) (value : Bytes) :
    (model.forward codec value).2.length = max 1 ((value.length + 63) / 64) := by
  rw [forward_eq]
  by_cases empty : value = []
  · simp [empty]
  · have positive : 0 < value.length := List.length_pos_iff.mpr empty
    simp only [empty, if_false, List.length_map, length_rows, length_layer]
    omega

theorem codecs_invert (input : Bytes) :
    (model.reconstructCascade (model.forwardCascade input).1 (model.forwardCascade input).2
        input.length = input ∧
      model.reconstructRaw (model.forwardRaw input).1 (model.forwardRaw input).2
        input.length = input) ∧
    ((model.forwardCascade input).2.length = 1 ↔ input.length ≤ 64) ∧
    ((model.forwardRaw input).2.length = 1 ↔ input.length ≤ 64) := by
  have one (codec : Codec) : (model.forward codec input).2.length = 1 ↔ input.length ≤ 64 := by
    rw [length_forward]
    omega
  have cascade : model.reconstructCascade (model.forward .cascade input).1
      (model.forward .cascade input).2 input.length = input := by
    rw [reconstructCascade, forward_expert, take_reconstruct, layer, applyKeystream_twice]
  have raw : model.reconstructRaw (model.forward .raw input).1 (model.forward .raw input).2
      input.length = input := by
    rw [reconstructRaw, forward_expert, take_reconstruct, layer]
  exact ⟨⟨cascade, raw⟩, one .cascade, one .raw⟩

theorem ofForward_cases (len : Nat) (bestIdx : Expert) (chunks : List Chunk) :
    (∃ chunk, chunks = [chunk] ∧
        NeuralValue.ofForward len (bestIdx, chunks) = .single bestIdx chunk len) ∨
      NeuralValue.ofForward len (bestIdx, chunks) = .multi len bestIdx chunks := by
  match chunks with
  | [] => exact .inr rfl
  | [chunk] => exact .inl ⟨chunk, rfl, rfl⟩
  | _ :: _ :: _ => exact .inr rfl

theorem encode_layouts (codec : Codec) (value : Bytes) :
    (∃ chunk,
      (model.reconstruct (model.expertOf value) chunk).toList.take value.length =
        model.layer codec value ∧
      model.encode codec value = .single (model.expertOf value) chunk value.length) ∨
    ∃ chunks : List Chunk,
      (chunks.flatMap fun chunk =>
        (model.reconstruct (model.expertOf value) chunk).toList).take value.length =
        model.layer codec value ∧
      model.encode codec value = .multi value.length (model.expertOf value) chunks := by
  have bytes := model.take_reconstruct codec value
  have expert := model.forward_expert codec value
  rcases stored : model.forward codec value with ⟨bestIdx, chunks⟩
  rw [stored] at bytes expert
  obtain rfl : bestIdx = model.expertOf value := expert
  rw [encode, stored]
  rcases ofForward_cases value.length (model.expertOf value) chunks with
    ⟨chunk, rfl, layout⟩ | layout
  · rw [List.flatMap_singleton] at bytes
    exact .inl ⟨chunk, bytes, layout⟩
  · exact .inr ⟨chunks, bytes, layout⟩

theorem readRaw_encode (codec : Codec) (value : Bytes) :
    model.readRaw (model.encode codec value) = some (value.length, model.layer codec value) := by
  obtain ⟨chunk, bytes, layout⟩ | ⟨chunks, bytes, layout⟩ := model.encode_layouts codec value
  · rw [layout, readRaw, bytes]
  · rw [layout, readRaw, reconstructRaw, bytes]

theorem readCascade_encode (codec : Codec) (value : Bytes) :
    model.readCascade (model.encode codec value) =
      some (value.length,
        model.applyKeystream (model.expertOf value) (model.layer codec value)) := by
  obtain ⟨chunk, bytes, layout⟩ | ⟨chunks, bytes, layout⟩ := model.encode_layouts codec value
  · rw [layout, readCascade, reconstructCascade, List.flatMap_singleton, bytes]
  · rw [layout, readCascade, reconstructCascade, bytes]

theorem readCascade_cascade (value : Bytes) :
    model.readCascade (model.encode .cascade value) = some (value.length, value) := by
  rw [readCascade_encode, layer, applyKeystream_twice]

end McnnModel

end OmegaDrive
