import OmegaDrive.Shared.FieldMap
import OmegaDrive.Resp.RoundTrip

set_option autoImplicit false

namespace OmegaDrive

open Cursor

abbrev HashFields := FieldMap Bytes Bytes

-- `(n as u32).to_be_bytes()`
def beBytes (n : Nat) : Bytes :=
  [UInt8.ofNat (n / 2 ^ 24), UInt8.ofNat (n / 2 ^ 16), UInt8.ofNat (n / 2 ^ 8), UInt8.ofNat n]

def readU32 : Cursor Byte Nat
  | a :: b :: c :: d :: _ =>
      some (a.toNat * 2 ^ 24 + b.toNat * 2 ^ 16 + c.toNat * 2 ^ 8 + d.toNat, 4)
  | _ => none

theorem readU32_lt (buf : Bytes) (value used : Nat) (read : readU32 buf = some (value, used)) :
    value < 2 ^ 32 ∧ used = 4 := by
  unfold readU32 at read
  split at read
  next a b c d rest =>
    obtain ⟨rfl, rfl⟩ : _ = value ∧ 4 = used := by simpa using read
    have := a.toNat_lt
    have := b.toNat_lt
    have := c.toNat_lt
    have := d.toNat_lt
    omega
  next => simp at read

theorem reads_readU32 (n : Nat) : Reads readU32 (beBytes n) (n % 2 ^ 32) := by
  intro rest
  simp [beBytes, readU32]
  omega

/-! The packed buffer: a count, then for each field two lengths, the name and the value. -/

def packField (field : Bytes × Bytes) : Bytes :=
  beBytes field.1.length ++ beBytes field.2.length ++ field.1 ++ field.2

def packFields (fields : List (Bytes × Bytes)) : Bytes :=
  beBytes fields.length ++ fields.flatMap packField

/-- Stops where a length reaches past the end of the buffer. -/
def readField : Cursor Byte (Bytes × Bytes) := do
  let kLen ← readU32
  let vLen ← readU32
  let k ← slice kLen
  let v ← slice vLen
  return (k, v)

def readFields : Nat → Bytes → List (Bytes × Bytes)
  | 0, _ => []
  | count + 1, buf =>
    match readField buf with
    | none => []
    | some (field, used) => field :: readFields count (buf.drop used)

def unpackFields (buf : Bytes) : List (Bytes × Bytes) :=
  match readU32 buf with
  | none => []
  | some (count, used) => readFields count (buf.drop used)

def hashFields (buf : Bytes) : HashFields := FieldMap.insertAll ∅ (unpackFields buf)

/-- The order a `HashMap` gives its entries in: some permutation of them. -/
structure IterOrder where
  order : List (Bytes × Bytes) → List (Bytes × Bytes)
  perm : ∀ entries, (order entries).Perm entries

namespace FlatHash

def fieldBytes (fields : List (Str × Bytes)) : List (Bytes × Bytes) :=
  fields.map fun field => (field.1.bytes, field.2)

def serialize (fields : List (Str × Bytes)) : Bytes := packFields (fieldBytes fields)

def merge (iter : IterOrder) (oldBuf : Bytes) (newFields : List (Str × Bytes)) : Bytes :=
  if oldBuf.length < 4 then serialize newFields
  else
    let old := FieldMap.insertEntries ∅ (unpackFields oldBuf)
    let fieldsMap := FieldMap.insertEntries old (fieldBytes newFields)
    packFields (iter.order (FieldMap.pairs fieldsMap))

def deserializeIntoResp (buf : Bytes) : Bytes :=
  match readU32 buf with
  | none => ascii "*0\r\n"
  | some (numFields, used) =>
    arrayHeader (numFields * 2) ++
      (readFields numFields (buf.drop used)).flatMap fun field =>
        makeBulkString field.1 ++ makeBulkString field.2

end FlatHash

def Packable (field : Bytes × Bytes) : Prop :=
  field.1.length < 2 ^ 32 ∧ field.2.length < 2 ^ 32

theorem reads_readField (field : Bytes × Bytes) (sized : Packable field) :
    Reads readField (packField field) field := by
  have key := reads_readU32 field.1.length
  have value := reads_readU32 field.2.length
  rw [Nat.mod_eq_of_lt sized.1] at key
  rw [Nat.mod_eq_of_lt sized.2] at value
  have reads : Reads readField (beBytes field.1.length ++ (beBytes field.2.length ++
      (field.1 ++ (field.2 ++ [])))) field :=
    key.bind (value.bind ((reads_slice field.1).bind ((reads_slice field.2).bind (reads_pure _))))
  simpa [packField] using reads

theorem readFields_take (fields : List (Bytes × Bytes)) (sized : ∀ field ∈ fields, Packable field)
    (count : Nat) (enough : count ≤ fields.length) (rest : Bytes) :
    readFields count (fields.flatMap packField ++ rest) = fields.take count := by
  induction fields generalizing count with
  | nil =>
    obtain rfl : count = 0 := Nat.le_zero.mp enough
    rfl
  | cons field fields ih =>
    cases count with
    | zero => rfl
    | succ count =>
      have head := reads_readField field (sized field List.mem_cons_self)
      rw [List.flatMap_cons, List.append_assoc, readFields, head]
      simp only [List.drop_left]
      rw [ih (fun other member => sized other (List.mem_cons_of_mem _ member)) count
        (Nat.le_of_succ_le_succ enough), List.take_succ_cons]

theorem unpack_pack_take (fields : List (Bytes × Bytes)) (sized : ∀ field ∈ fields, Packable field)
    (rest : Bytes) :
    unpackFields (packFields fields ++ rest) = fields.take (fields.length % 2 ^ 32) := by
  have header := reads_readU32 fields.length (fields.flatMap packField ++ rest)
  have body := readFields_take fields sized _ (Nat.mod_le _ (2 ^ 32)) rest
  simp only [unpackFields, packFields, List.append_assoc, header, List.drop_left, body]

theorem unpack_pack (fields : List (Bytes × Bytes)) (count : fields.length < 2 ^ 32)
    (sized : ∀ field ∈ fields, Packable field) : unpackFields (packFields fields) = fields := by
  have all := unpack_pack_take fields sized []
  rwa [List.append_nil, Nat.mod_eq_of_lt count, List.take_length] at all

-- The header of a buffer counts the fields that can be read behind it.
def Whole (buf : Bytes) : Prop :=
  ∀ count used, readU32 buf = some (count, used) →
    (readFields count (buf.drop used)).length = count

theorem whole_packed (fields : List (Bytes × Bytes)) (sized : ∀ field ∈ fields, Packable field)
    (rest : Bytes) : Whole (packFields fields ++ rest) := by
  intro count used header
  have announced := reads_readU32 fields.length (fields.flatMap packField ++ rest)
  rw [packFields, List.append_assoc] at header ⊢
  rw [announced] at header
  obtain ⟨rfl, rfl⟩ := Prod.mk.inj (Option.some.inj header)
  have fewer : fields.length % 2 ^ 32 ≤ fields.length := Nat.mod_le _ _
  rw [List.drop_left, readFields_take fields sized _ fewer, List.length_take,
    Nat.min_eq_left fewer]

theorem whole_packFields (fields : List (Bytes × Bytes)) (sized : ∀ field ∈ fields, Packable field) :
    Whole (packFields fields) := by
  have whole := whole_packed fields sized []
  rwa [List.append_nil] at whole

theorem packable_readFields (count : Nat) (buf : Bytes) :
    ∀ field ∈ readFields count buf, Packable field := by
  induction count generalizing buf with
  | zero => simp [readFields]
  | succ count ih =>
    intro field member
    rw [readFields] at member
    split at member
    next => simp at member
    next head used run =>
      rcases List.mem_cons.mp member with rfl | later
      · obtain ⟨kLen, _, _, readKey, run, _⟩ := bind_eq_some _ _ _ _ _ run
        obtain ⟨vLen, _, _, readValue, run, _⟩ := bind_eq_some _ _ _ _ _ run
        obtain ⟨k, _, _, sliceKey, run, _⟩ := bind_eq_some _ _ _ _ _ run
        obtain ⟨v, _, _, sliceValue, run, _⟩ := bind_eq_some _ _ _ _ _ run
        obtain ⟨rfl, _⟩ : (k, v) = field ∧ _ := by simpa using run
        have keyBound := (readU32_lt _ _ _ readKey).1
        have valueBound := (readU32_lt _ _ _ readValue).1
        refine ⟨?_, ?_⟩
        · simp only [slice] at sliceKey
          split at sliceKey <;> simp at sliceKey
          simp only [← sliceKey.1, List.length_take]
          omega
        · simp only [slice] at sliceValue
          split at sliceValue <;> simp at sliceValue
          simp only [← sliceValue.1, List.length_take]
          omega
      · exact ih _ _ later

theorem packable_unpackFields (buf : Bytes) : ∀ field ∈ unpackFields buf, Packable field := by
  intro field member
  rw [unpackFields] at member
  split at member
  · simp at member
  · exact packable_readFields _ _ _ member

def Sized (fields : List (Str × Bytes)) : Prop :=
  ∀ field ∈ fields, field.1.bytes.length < 2 ^ 32 ∧ field.2.length < 2 ^ 32

theorem packable_fieldBytes (fields : List (Str × Bytes)) (sized : Sized fields) :
    ∀ field ∈ FlatHash.fieldBytes fields, Packable field := by
  intro field member
  obtain ⟨source, present, rfl⟩ := List.mem_map.mp member
  exact sized source present

namespace FlatHash

theorem unpack_serialize (fields : List (Str × Bytes)) (count : fields.length < 2 ^ 32)
    (sized : Sized fields) : unpackFields (serialize fields) = fieldBytes fields :=
  unpack_pack _ (by simpa [fieldBytes] using count) (packable_fieldBytes fields sized)

theorem hashFields_serialize (fields : List (Str × Bytes)) (count : fields.length < 2 ^ 32)
    (sized : Sized fields) :
    hashFields (serialize fields) = FieldMap.insertAll ∅ (fieldBytes fields) := by
  rw [hashFields, unpack_serialize fields count sized]

theorem unpackFields_short (buf : Bytes) (short : buf.length < 4) : unpackFields buf = [] := by
  rw [unpackFields]
  split
  next => rfl
  next run =>
    unfold readU32 at run
    split at run
    · simp at short
      omega
    · cases run

theorem merge_eq (iter : IterOrder) (oldBuf : Bytes) (newFields : List (Str × Bytes))
    (long : 4 ≤ oldBuf.length) :
    merge iter oldBuf newFields = packFields (iter.order (FieldMap.pairs
      (FieldMap.insertEntries ∅ (unpackFields oldBuf ++ fieldBytes newFields)))) := by
  rw [merge, if_neg (Nat.not_lt.mpr long), FieldMap.insertEntries_append]

theorem packable_merged (iter : IterOrder) (oldBuf : Bytes) (newFields : List (Str × Bytes))
    (sized : Sized newFields) :
    ∀ field ∈ iter.order (FieldMap.pairs
        (FieldMap.insertEntries ∅ (unpackFields oldBuf ++ fieldBytes newFields))),
      Packable field := by
  intro field member
  have last := (FieldMap.mem_pairs_insertEntries _ _ _).mp ((iter.perm _).mem_iff.mp member)
  rcases List.mem_append.mp (FieldMap.lastValue_mem _ _ _ last) with old | new
  · exact packable_unpackFields _ _ old
  · exact packable_fieldBytes _ sized _ new

theorem hashFields_merge (iter : IterOrder) (oldBuf : Bytes) (newFields : List (Str × Bytes))
    (count : newFields.length < 2 ^ 32) (sized : Sized newFields)
    (fits : (FieldMap.insertAll (hashFields oldBuf) (fieldBytes newFields)).keys.card < 2 ^ 32) :
    hashFields (merge iter oldBuf newFields) =
      FieldMap.insertAll (hashFields oldBuf) (fieldBytes newFields) := by
  by_cases short : oldBuf.length < 4
  · rw [merge, if_pos short, hashFields_serialize newFields count sized, hashFields,
      unpackFields_short oldBuf short, FieldMap.insertAll_nil]
  · have packable := packable_merged iter oldBuf newFields sized
    have content : (FieldMap.insertEntries ∅
        (unpackFields oldBuf ++ fieldBytes newFields)).toFinmap =
          FieldMap.insertAll (hashFields oldBuf) (fieldBytes newFields) := by
      rw [FieldMap.toFinmap_insertEntries, FieldMap.insertAll_append]
      rfl
    have perm := iter.perm (FieldMap.pairs (FieldMap.insertEntries ∅
      (unpackFields oldBuf ++ fieldBytes newFields)))
    rw [merge_eq iter oldBuf newFields (Nat.not_lt.mp short), hashFields, unpack_pack _ ?_ packable,
      FieldMap.insertAll_pairs _ _ perm, content]
    rw [perm.length_eq, FieldMap.length_pairs, content]
    exact fits

theorem whole_merge (iter : IterOrder) (oldBuf : Bytes) (newFields : List (Str × Bytes))
    (sized : Sized newFields) : Whole (merge iter oldBuf newFields) := by
  by_cases short : oldBuf.length < 4
  · rw [merge, if_pos short]
    exact whole_packFields _ (packable_fieldBytes newFields sized)
  · rw [merge_eq iter oldBuf newFields (Nat.not_lt.mp short)]
    exact whole_packFields _ (packable_merged iter oldBuf newFields sized)

end FlatHash

end OmegaDrive
