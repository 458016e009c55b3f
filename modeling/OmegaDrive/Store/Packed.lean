import OmegaDrive.Resp.Value
import OmegaDrive.Store.HashEngine

set_option autoImplicit false

namespace OmegaDrive

open Cursor RespValue

theorem spells_readU32 : Spells readU32 beBytes := by
  intro buf value used read
  unfold readU32 at read
  split at read
  next a b c d rest =>
    obtain ⟨rfl, rfl⟩ : _ = value ∧ 4 = used := by simpa using read
    have first := a.toNat_lt
    have second := b.toNat_lt
    have third := c.toNat_lt
    have fourth := d.toNat_lt
    simp only [beBytes, List.drop_succ_cons, List.drop_zero, List.cons_append, List.nil_append,
      List.cons.injEq, and_true]
    refine ⟨?_, ?_, ?_, ?_⟩ <;> apply UInt8.toNat.inj <;> simp only [UInt8.toNat_ofNat'] <;> omega
  next => simp at read

theorem readU32_eq_none (buf : Bytes) : readU32 buf = none ↔ buf.length < 4 := by
  match buf with
  | [] | [_] | [_, _] | [_, _, _] => simp [readU32]
  | _ :: _ :: _ :: _ :: _ => simp [readU32]

theorem spells_readField : Spells readField packField := by
  intro buf field used read
  obtain ⟨kLen, first, afterKey, readKey, run, total⟩ := bind_eq_some _ _ _ _ _ read
  obtain ⟨vLen, second, afterValue, readValue, run, values⟩ := bind_eq_some _ _ _ _ _ run
  obtain ⟨k, third, afterName, sliceKey, run, names⟩ := bind_eq_some _ _ _ _ _ run
  obtain ⟨v, fourth, rest, sliceValue, run, contents⟩ := bind_eq_some _ _ _ _ _ run
  obtain ⟨rfl, rfl⟩ : (k, v) = field ∧ 0 = rest := by simpa using run
  subst total values names contents
  obtain rfl := yields_slice _ _ _ _ sliceKey
  obtain rfl := yields_slice _ _ _ _ sliceValue
  have name := spells_slice _ _ _ _ sliceKey
  have content := spells_slice _ _ _ _ sliceValue
  simp only [id_eq] at name content
  calc buf = beBytes k.length ++ buf.drop first := spells_readU32 _ _ _ readKey
    _ = beBytes k.length ++ (beBytes v.length ++ (buf.drop first).drop second) := by
      rw [← spells_readU32 _ _ _ readValue]
    _ = beBytes k.length ++ (beBytes v.length ++
          (k ++ (v ++ (((buf.drop first).drop second).drop third).drop afterName))) := by
      rw [← content, ← name]
    _ = packField (k, v) ++ buf.drop (first + (second + (third + afterName))) := by
      simp [packField, Nat.add_assoc]

theorem readFields_eq (count : Nat) (buf : Bytes)
    (whole : (readFields count buf).length = count) :
    ∃ rest, buf = (readFields count buf).flatMap packField ++ rest := by
  induction count generalizing buf with
  | zero => exact ⟨buf, rfl⟩
  | succ count ih =>
    rw [readFields] at whole ⊢
    split at whole
    next => simp at whole
    next field used run =>
      obtain ⟨rest, split⟩ := ih (buf.drop used) (by simpa using whole)
      refine ⟨rest, ?_⟩
      simp only [List.flatMap_cons, List.append_assoc]
      rw [← split]
      exact spells_readField buf field used run

structure PackedAs (buf : Bytes) (fields : List (Bytes × Bytes)) : Prop where
  header : readU32 buf = some (fields.length, 4)
  body : buf.drop 4 = fields.flatMap packField
  sized : ∀ field ∈ fields, Packable field

theorem packedAs_packFields (fields : List (Bytes × Bytes)) (count : fields.length < 2 ^ 32)
    (sized : ∀ field ∈ fields, Packable field) : PackedAs (packFields fields) fields := by
  refine ⟨?_, rfl, sized⟩
  have header := reads_readU32 fields.length (fields.flatMap packField)
  rwa [Nat.mod_eq_of_lt count] at header

theorem PackedAs.buf_eq {buf : Bytes} {fields : List (Bytes × Bytes)}
    (packed : PackedAs buf fields) : buf = packFields fields := by
  have split := spells_readU32 _ _ _ packed.header
  rwa [packed.body] at split

theorem PackedAs.count_lt {buf : Bytes} {fields : List (Bytes × Bytes)}
    (packed : PackedAs buf fields) : fields.length < 2 ^ 32 :=
  (readU32_lt _ _ _ packed.header).1

namespace FlatHash

def numFields (buf : Bytes) : Nat := ((readU32 buf).map Prod.fst).getD 0

theorem whole_iff (buf : Bytes) : Whole buf ↔ (unpackFields buf).length = numFields buf := by
  unfold Whole numFields unpackFields
  cases header : readU32 buf with
  | none => simp
  | some read => exact ⟨fun whole => whole _ _ rfl, fun whole _ _ same => by cases same; exact whole⟩

theorem deserialize_eq (buf : Bytes) :
    deserializeIntoResp buf = arrayHeader (numFields buf * 2) ++
      texts ((unpackFields buf).flatMap fun field => [.bulk field.1, .bulk field.2]) := by
  unfold deserializeIntoResp numFields unpackFields
  rw [texts_pairs]
  simp only [text_bulk]
  cases readU32 buf with
  | none => exact text_noItems
  | some read => rfl

theorem deserialize_text (buf : Bytes) (whole : Whole buf) :
    deserializeIntoResp buf = (mapReply (unpackFields buf)).text := by
  rw [deserialize_eq, ← (whole_iff buf).mp whole, mapReply, text_array, length_pairs]

theorem arrayHeader_split (count other : Nat) (rest more : Bytes)
    (same : arrayHeader count ++ rest = arrayHeader other ++ more) : count = other ∧ rest = more := by
  simp only [arrayHeader, crlf, List.append_assoc, List.cons_append, List.nil_append] at same
  obtain ⟨digits, tails⟩ := line_split _ _ _ _ (fun byte inside => (digits_plain count byte inside).1)
    (fun byte inside => (digits_plain other byte inside).1) (List.append_cancel_left same)
  exact ⟨Decimal.text_inj _ _ digits, (List.cons.inj tails).2⟩

theorem array_iff_whole (buf : Bytes) :
    (∃ items, deserializeIntoResp buf = (RespValue.array items).text) ↔ Whole buf := by
  constructor
  · rintro ⟨items, reply⟩
    rw [deserialize_eq, text_array] at reply
    obtain ⟨announced, written⟩ := arrayHeader_split _ _ _ _ reply
    rw [← stream_unique _ _ written, length_pairs] at announced
    exact (whole_iff buf).mpr (by omega)
  · intro whole
    exact ⟨_, deserialize_text buf whole⟩

theorem whole_iff_packed (buf : Bytes) :
    Whole buf ↔ buf.length < 4 ∨ ∃ fields rest, buf = packFields fields ++ rest ∧
      fields.length < 2 ^ 32 ∧ ∀ field ∈ fields, Packable field := by
  constructor
  · intro whole
    cases header : readU32 buf with
    | none => exact .inl ((readU32_eq_none buf).mp header)
    | some read =>
      obtain ⟨count, used⟩ := read
      obtain ⟨bound, rfl⟩ := readU32_lt _ _ _ header
      have counted := whole count 4 header
      obtain ⟨rest, split⟩ := readFields_eq count (buf.drop 4) counted
      refine .inr ⟨readFields count (buf.drop 4), rest, ?_, by omega, packable_readFields _ _⟩
      rw [packFields, counted, List.append_assoc, ← split]
      exact spells_readU32 _ _ _ header
  · rintro (short | ⟨fields, rest, rfl, _, sized⟩)
    · intro count used header
      simp [(readU32_eq_none buf).mpr short] at header
    · exact whole_packed fields sized rest

theorem deserialize_array_iff (buf : Bytes) :
    (∃ items, deserializeIntoResp buf = (RespValue.array items).text) ↔
      buf.length < 4 ∨ ∃ fields rest, buf = packFields fields ++ rest ∧
        fields.length < 2 ^ 32 ∧ ∀ field ∈ fields, Packable field :=
  (array_iff_whole buf).trans (whole_iff_packed buf)

-- A header that counts a field that is not there.
theorem deserialize_truncated :
    ¬ ∃ items, deserializeIntoResp [0, 0, 0, 1] = (RespValue.array items).text := by
  rw [array_iff_whole, whole_iff]
  decide

theorem merge_packFields (iter : IterOrder) (pairs : List (Bytes × Bytes))
    (count : pairs.length < 2 ^ 32) (packable : ∀ pair ∈ pairs, Packable pair)
    (fields : List (Str × Bytes)) (sized : Sized fields) :
    ∃ merged, merge iter (packFields pairs) fields = packFields merged ∧
      (∀ pair ∈ merged, Packable pair) ∧ FieldMap.Lists merged (pairs ++ fieldBytes fields) := by
  have long : 4 ≤ (packFields pairs).length := by simp [packFields, beBytes]
  have small := packable_merged iter (packFields pairs) fields sized
  have lists := FieldMap.lists_pairs (unpackFields (packFields pairs) ++ fieldBytes fields) _
    (iter.perm _)
  rw [merge_eq iter _ fields long]
  rw [unpack_pack pairs count packable] at small lists ⊢
  exact ⟨_, rfl, small, lists⟩

def distinctNames (fields update : List (Str × Bytes)) : Nat :=
  ((fieldBytes fields ++ fieldBytes update).map Prod.fst).toFinset.card

theorem card_distinctNames (fields update : List (Str × Bytes)) :
    (FieldMap.insertAll ∅ (fieldBytes fields ++ fieldBytes update)).keys.card =
      distinctNames fields update := by
  rw [FieldMap.keys_insertAll, distinctNames]

theorem reads_deserialized (buf : Bytes) (pairs : List (Bytes × Bytes))
    (packed : PackedAs buf pairs) :
    ∃ elements, deserializeIntoResp buf = arrayHeader (pairs.length * 2) ++ elements ∧
      Reads (times parseBulkStr (pairs.length * 2)) elements
        (pairs.flatMap fun pair => [pair.1, pair.2]) := by
  obtain rfl := packed.buf_eq
  have sized : ∀ value ∈ pairs.flatMap (fun pair => [pair.1, pair.2]),
      Reads parseBulkStr (makeBulkString value) value := by
    intro value member
    obtain ⟨pair, present, here⟩ := List.mem_flatMap.mp member
    obtain ⟨key, content⟩ := packed.sized pair present
    rcases List.mem_pair.mp here with rfl | rfl
    · exact reads_parseBulkStr _ key
    · exact reads_parseBulkStr _ content
  have reads := reads_times_map parseBulkStr makeBulkString _ sized
  rw [length_pairs] at reads
  refine ⟨_, ?_, reads⟩
  rw [deserialize_eq, ← (whole_iff _).mp (whole_packFields pairs packed.sized),
    unpack_pack pairs packed.count_lt packed.sized, texts_pairs, List.flatMap_assoc]
  simp [text_bulk]

theorem merge_fits_iff (iter : IterOrder) (fields update : List (Str × Bytes))
    (count : fields.length < 2 ^ 32) (sized : Sized fields) (updateSized : Sized update) :
    (∃ merged, PackedAs (merge iter (serialize fields) update) merged ∧
        (merged.map Prod.fst).Nodup ∧
        FieldMap.insertAll ∅ merged =
          FieldMap.insertAll (FieldMap.insertAll ∅ (fieldBytes fields)) (fieldBytes update)) ↔
      distinctNames fields update < 2 ^ 32 := by
  rw [← card_distinctNames, ← FieldMap.insertAll_append]
  constructor
  · rintro ⟨merged, packed, content⟩
    rw [← ((FieldMap.lists_iff _ _).mpr content).length]
    exact packed.count_lt
  · intro fits
    obtain ⟨merged, result, small, lists⟩ := merge_packFields iter (fieldBytes fields)
      (by simpa [fieldBytes] using count) (packable_fieldBytes fields sized) update updateSized
    rw [← lists.length] at fits
    rw [serialize, result]
    exact ⟨merged, packedAs_packFields merged fits small, (FieldMap.lists_iff _ _).mp lists⟩

theorem merge_packed_iff (iter : IterOrder) (fields update : List (Str × Bytes))
    (count : fields.length < 2 ^ 32) (sized : Sized fields) (updateSized : Sized update) :
    ((∃ merged, PackedAs (merge iter (serialize fields) update) merged ∧
        (merged.map Prod.fst).Nodup ∧
        FieldMap.insertAll ∅ merged =
          FieldMap.insertAll (FieldMap.insertAll ∅ (fieldBytes fields)) (fieldBytes update)) ↔
      distinctNames fields update < 2 ^ 32) ∧
    ∀ buf pairs, PackedAs buf pairs → ∃ elements,
      deserializeIntoResp buf = arrayHeader (pairs.length * 2) ++ elements ∧
        times parseBulkStr (pairs.length * 2) elements =
          some (pairs.flatMap fun pair => [pair.1, pair.2], elements.length) := by
  refine ⟨merge_fits_iff iter fields update count sized updateSized, fun buf pairs packed => ?_⟩
  obtain ⟨elements, reply, reads⟩ := reads_deserialized buf pairs packed
  have whole := reads []
  rw [List.append_nil] at whole
  exact ⟨elements, reply, whole⟩

def inTurn : IterOrder := ⟨fun entries => entries, fun entries => .refl entries⟩

def oneName (value : Bytes) : List (Str × Bytes) := [(⟨ascii "k", validUtf8_k⟩, value)]

theorem merge_packed_one :
    ∃ merged, PackedAs (merge inTurn (serialize (oneName (ascii "1"))) (oneName (ascii "2"))) merged ∧
      (merged.map Prod.fst).Nodup ∧
      FieldMap.insertAll ∅ merged = FieldMap.insertAll
        (FieldMap.insertAll ∅ (fieldBytes (oneName (ascii "1")))) (fieldBytes (oneName (ascii "2"))) :=
  (merge_packed_iff inTurn _ _ (by decide) (by unfold Sized; decide) (by unfold Sized; decide)).1.mpr
    (by decide)

/-- As many names as wanted, of five ASCII characters each. -/
def numberName (i : Nat) : Bytes :=
  [UInt8.ofNat (i % 128), UInt8.ofNat (i / 128 % 128), UInt8.ofNat (i / 128 ^ 2 % 128),
    UInt8.ofNat (i / 128 ^ 3 % 128), UInt8.ofNat (i / 128 ^ 4 % 128)]

theorem validUtf8_numberName (i : Nat) : validUtf8 (numberName i) = true := by
  apply validUtf8_ascii
  intro byte member
  simp only [numberName, List.mem_cons, List.not_mem_nil, or_false] at member
  rw [UInt8.lt_iff_toNat_lt]
  rcases member with rfl | rfl | rfl | rfl | rfl <;> simp only [UInt8.toNat_ofNat'] <;>
    exact Nat.lt_of_le_of_lt (Nat.mod_le _ _) (Nat.mod_lt _ (by decide))

theorem numberName_inj (i j : Nat) (below : i < 2 ^ 35) (other : j < 2 ^ 35)
    (same : numberName i = numberName j) : i = j := by
  simp only [numberName, List.cons.injEq, ← UInt8.toNat_inj, UInt8.toNat_ofNat'] at same
  omega

def numbered (start count : Nat) : List (Str × Bytes) :=
  (List.range' start count).map fun i => (⟨numberName i, validUtf8_numberName i⟩, [])

theorem sized_numbered (start count : Nat) : Sized (numbered start count) := by
  intro field member
  obtain ⟨i, _, rfl⟩ := List.mem_map.mp member
  simp [numberName]

@[simp] theorem length_numbered (start count : Nat) : (numbered start count).length = count := by
  simp [numbered]

theorem names_numbered (start count : Nat) :
    (fieldBytes (numbered start count)).map Prod.fst = (List.range' start count).map numberName := by
  simp [fieldBytes, numbered, Function.comp_def]

theorem nodup_numbered (start count : Nat) (few : start + count ≤ 2 ^ 35) :
    ((fieldBytes (numbered start count)).map Prod.fst).Nodup := by
  rw [names_numbered]
  refine List.Nodup.map_on (fun i below j other same => ?_) (List.nodup_range')
  rw [List.mem_range'_1] at below other
  exact numberName_inj i j (by omega) (by omega) same

theorem distinct_numbered (first second : Nat) (few : first + second ≤ 2 ^ 35) :
    distinctNames (numbered 0 first) (numbered first second) = first + second := by
  have all : fieldBytes (numbered 0 first) ++ fieldBytes (numbered first second) =
      fieldBytes (numbered 0 (first + second)) := by
    simp only [fieldBytes, numbered, ← List.map_append, ← List.range'_append_1, Nat.zero_add]
  rw [distinctNames, all, List.toFinset_card_of_nodup (nodup_numbered 0 _ (by omega))]
  simp [fieldBytes]

-- One field more than 2^32 - 1, of another name: the header counts none of the 2^32.
theorem merge_wraps :
    ¬ ∃ merged,
      PackedAs (merge inTurn (serialize (numbered 0 (2 ^ 32 - 1))) (numbered (2 ^ 32 - 1) 1))
          merged ∧
        (merged.map Prod.fst).Nodup ∧
        FieldMap.insertAll ∅ merged = FieldMap.insertAll
          (FieldMap.insertAll ∅ (fieldBytes (numbered 0 (2 ^ 32 - 1))))
          (fieldBytes (numbered (2 ^ 32 - 1) 1)) := by
  rw [merge_fits_iff inTurn _ _ (by rw [length_numbered]; decide) (sized_numbered _ _)
    (sized_numbered _ _), distinct_numbered _ _ (by decide)]
  decide

end FlatHash

end OmegaDrive
