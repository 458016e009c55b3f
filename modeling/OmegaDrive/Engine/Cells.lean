import OmegaDrive.Engine.Columnar
import OmegaDrive.Resp.Lossy
import OmegaDrive.Shared.Records
import OmegaDrive.Store.HashEngine

set_option autoImplicit false

namespace OmegaDrive

open Cursor

/-! Cells of one size: a tag, a big-endian length, the data and zeros up to the size. -/

/-- What `extract` makes of a Python object: bytes, text, or an error. -/
inductive Extracted where
  | bytes (b : Bytes)
  | text (s : Str)
  | neither

structure PyItem where
  extracted : Extracted
  -- its attribute `value`
  value : Option Extracted
  -- `to_string`
  shown : Str

-- `none` is the error of the last `extract`, which is not caught.
def itemBytes (item : PyItem) : Option Bytes :=
  match item.extracted with
  | .bytes b => some b
  | .text s => some s.bytes
  | .neither =>
    match item.value with
    | some (.bytes b) => some b
    | some (.text s) => some s.bytes
    | some .neither => none
    | none => some item.shown.bytes

def packCell (maxLen : Nat) (bytes : Bytes) : Bytes :=
  let len := min bytes.length (maxLen - 5)
  let padding := maxLen - 5 - len
  1 :: (beBytes len ++ (bytes.take len ++ List.replicate padding 0))

/-- Below 5, `max_len - 5` panics; where it wraps around, the padding is too long to be allocated.
-/
def packCellsToBytes (cells : List PyItem) (maxLen : Nat) : Option Bytes := do
  let records ← cells.mapM fun item => do
    let bytes ← itemBytes item
    if maxLen < 5 then none else some (packCell maxLen bytes)
  return records.flatten

-- The tag and the data, unless the cell is too short for its header.
def cellContents (cellSize : Nat) (cellData : Bytes) : Option (Byte × Bytes) :=
  match cellData with
  | [] => none
  | typeTag :: rest => (readU32 rest).map fun (dataLen, _) =>
      (typeTag, (rest.drop 4).take (min (5 + dataLen) cellSize - 5))

inductive PyDecoded where
  | none
  | str (s : Str)
  | bytes (b : Bytes)

def decodeCell (cellSize : Nat) (cellData : Bytes) : PyDecoded :=
  match cellContents cellSize cellData with
  | none => .none
  | some (typeTag, actualData) =>
    if typeTag = 1 then .str (Str.fromUtf8Lossy actualData) else .bytes actualData

-- A cell size of zero is divided by.
def batchDecodeCells (buffer : Bytes) (cellSize : Nat) : Option (List PyDecoded) :=
  if cellSize = 0 then none
  else
    let numCells := buffer.length / cellSize
    some ((List.range numCells).map fun i =>
      decodeCell cellSize ((buffer.drop (i * cellSize)).take cellSize))

def decodeToBlob (cellSize : Nat) (cellData : Bytes) : Bytes :=
  match cellContents cellSize cellData with
  | none => leBytes 0
  | some (_, actualData) => leBytes actualData.length ++ actualData

def batchDecodeToBlob (buffer : Bytes) (cellSize : Nat) : Option Bytes :=
  if cellSize = 0 then none
  else
    let numCells := buffer.length / cellSize
    some ((List.range numCells).flatMap fun i =>
      decodeToBlob cellSize ((buffer.drop (i * cellSize)).take cellSize))

theorem mapM_itemBytes {α : Type} (kind : α → Extracted) (content : α → Bytes)
    (own : ∀ item value, item.extracted = kind value → itemBytes item = some (content value))
    (cells : List PyItem) (values : List α)
    (given : cells.map PyItem.extracted = values.map kind) :
    cells.mapM itemBytes = some (values.map content) := by
  induction values generalizing cells with
  | nil =>
    obtain rfl := List.map_eq_nil_iff.mp given
    rfl
  | cons value values ih =>
    obtain ⟨item, rest, rfl, head, tail⟩ := List.map_eq_cons_iff.mp given
    rw [List.mapM_cons, own item value head, ih rest tail]
    rfl

theorem itemBytes_bytes (item : PyItem) (b : Bytes) (given : item.extracted = .bytes b) :
    itemBytes item = some b := by
  rw [itemBytes, given]

theorem itemBytes_text (item : PyItem) (s : Str) (given : item.extracted = .text s) :
    itemBytes item = some s.bytes := by
  rw [itemBytes, given]

section Packed

variable {maxLen : Nat}

theorem length_packCell (header : 5 ≤ maxLen) (bytes : Bytes) :
    (packCell maxLen bytes).length = maxLen := by
  simp only [packCell, List.length_cons, List.length_append, List.length_take,
    List.length_replicate, beBytes, List.length_nil]
  omega

theorem cellContents_packCell (header : 5 ≤ maxLen) (small : maxLen < 2 ^ 32) (bytes : Bytes) :
    cellContents maxLen (packCell maxLen bytes) = some (1, bytes.take (maxLen - 5)) := by
  have length := reads_readU32 (min bytes.length (maxLen - 5))
    (bytes.take (min bytes.length (maxLen - 5)) ++
      List.replicate (maxLen - 5 - min bytes.length (maxLen - 5)) 0)
  have room : min (5 + min bytes.length (maxLen - 5)) maxLen - 5 =
      min bytes.length (maxLen - 5) := by omega
  have behind : (beBytes (min bytes.length (maxLen - 5))).length = 4 := rfl
  rw [Nat.mod_eq_of_lt (by omega)] at length
  simp only [packCell, cellContents]
  rw [length, Option.map_some, List.drop_left' behind, room,
    List.take_left' (by rw [List.length_take]; omega), Nat.min_comm, ← List.take_eq_take_min]

theorem packCellsToBytes_eq (header : 5 ≤ maxLen) (cells : List PyItem) (contents : List Bytes)
    (given : cells.mapM itemBytes = some contents) :
    packCellsToBytes cells maxLen = some (contents.flatMap (packCell maxLen)) := by
  have records := OptionLoop.mapM_then itemBytes (packCell maxLen) cells
  rw [given] at records
  have step : (fun item => itemBytes item >>= fun bytes =>
      if maxLen < 5 then none else some (packCell maxLen bytes)) =
        fun item => (itemBytes item).map (packCell maxLen) := by
    funext item
    cases itemBytes item with
    | none => rfl
    | some bytes => exact if_neg (Nat.not_lt.mpr header)
  rw [packCellsToBytes, step, records]
  rfl

theorem batchDecodeCells_packed (header : 5 ≤ maxLen) (contents : List Bytes) :
    batchDecodeCells (contents.flatMap (packCell maxLen)) maxLen =
      some (contents.map fun content => decodeCell maxLen (packCell maxLen content)) := by
  have cut := Records.cut_flatMap (packCell maxLen) (length_packCell header) (by omega) contents
  have decoded := congrArg (List.map (decodeCell maxLen)) cut
  rw [Records.cut, List.map_map, List.map_map] at decoded
  rw [batchDecodeCells, if_neg (by omega)]
  exact congrArg some decoded

theorem batchDecodeToBlob_packed (header : 5 ≤ maxLen) (contents : List Bytes) :
    batchDecodeToBlob (contents.flatMap (packCell maxLen)) maxLen =
      some (contents.flatMap fun content => decodeToBlob maxLen (packCell maxLen content)) := by
  have cut := Records.cut_flatMap (packCell maxLen) (length_packCell header) (by omega) contents
  have decoded := congrArg (List.flatMap (decodeToBlob maxLen)) cut
  rw [Records.cut, List.flatMap_map, List.flatMap_map] at decoded
  rw [batchDecodeToBlob, if_neg (by omega)]
  exact congrArg some decoded

end Packed

theorem blob_of_packed (cells : List PyItem) (contents : List Bytes)
    (given : cells.map PyItem.extracted = contents.map Extracted.bytes) (maxLen : Nat)
    (header : 5 ≤ maxLen) (small : maxLen < 2 ^ 32) :
    ∃ buffer, packCellsToBytes cells maxLen = some buffer ∧
      buffer.length = contents.length * maxLen ∧
      batchDecodeToBlob buffer maxLen = some (contents.flatMap fun content =>
        leBytes (content.take (maxLen - 5)).length ++ content.take (maxLen - 5)) := by
  have extracted := mapM_itemBytes Extracted.bytes id itemBytes_bytes cells contents given
  rw [List.map_id] at extracted
  refine ⟨_, packCellsToBytes_eq header cells contents extracted,
    Records.length_flatMap _ (length_packCell header) contents, ?_⟩
  rw [batchDecodeToBlob_packed header]
  simp only [decodeToBlob, cellContents_packCell header small]

-- The second cell is one byte too long.
theorem blob_of_packed_two :
    ∃ buffer, packCellsToBytes [⟨.bytes (ascii "k"), none, ⟨[], rfl⟩⟩,
        ⟨.bytes (ascii "vk"), none, ⟨[], rfl⟩⟩] 6 = some buffer ∧ buffer.length = 2 * 6 ∧
      batchDecodeToBlob buffer 6 = some ([ascii "k", ascii "vk"].flatMap fun content =>
        leBytes (content.take 1).length ++ content.take 1) :=
  blob_of_packed [⟨.bytes (ascii "k"), none, ⟨[], rfl⟩⟩, ⟨.bytes (ascii "vk"), none, ⟨[], rfl⟩⟩]
    [ascii "k", ascii "vk"] rfl 6 (by decide) (by decide)

-- Every cell comes back as a text that the cell begins with, and whole where it fits.
def TextsKept (cells : List PyItem) (texts : List Str) (maxLen : Nat) : Prop :=
  ∃ buffer results, packCellsToBytes cells maxLen = some buffer ∧
    batchDecodeCells buffer maxLen = some (results.map PyDecoded.str) ∧
    List.Forall₂ (fun text result : Str => result.bytes <+: text.bytes ∧
      (text.bytes.length ≤ maxLen - 5 → result = text)) texts results

theorem decoded_packed (cells : List PyItem) (texts : List Str)
    (given : cells.map PyItem.extracted = texts.map Extracted.text) (maxLen : Nat)
    (header : 5 ≤ maxLen) (small : maxLen < 2 ^ 32) :
    ∃ buffer, packCellsToBytes cells maxLen = some buffer ∧
      batchDecodeCells buffer maxLen = some ((texts.map fun text =>
        Str.fromUtf8Lossy (text.bytes.take (maxLen - 5))).map PyDecoded.str) := by
  have extracted := mapM_itemBytes Extracted.text Str.bytes itemBytes_text cells texts given
  refine ⟨_, packCellsToBytes_eq header cells _ extracted, ?_⟩
  rw [batchDecodeCells_packed header, List.map_map, List.map_map]
  congr 1
  apply List.map_congr_left
  intro text _
  simp only [Function.comp_apply, decodeCell, cellContents_packCell header small, if_true]

theorem clean_of_textsKept {cells : List PyItem} {texts : List Str}
    (given : cells.map PyItem.extracted = texts.map Extracted.text) {maxLen : Nat}
    (header : 5 ≤ maxLen) (small : maxLen < 2 ^ 32) (kept : TextsKept cells texts maxLen)
    (text : Str) (member : text ∈ texts) : text.CutsCleanly (maxLen - 5) := by
  obtain ⟨buffer, packed, decoded⟩ := decoded_packed cells texts given maxLen header small
  obtain ⟨other, results, again, read, each⟩ := kept
  obtain rfl : buffer = other := Option.some.inj (packed.symm.trans again)
  have same := Option.some.inj (decoded.symm.trans read)
  obtain rfl := List.map_injective_iff.mpr (fun _ _ => PyDecoded.str.inj) same
  rw [List.forall₂_map_right_iff, List.forall₂_same] at each
  exact (Str.fromUtf8Lossy_take_prefix text _).mp (each text member).1

theorem textsKept_iff (cells : List PyItem) (texts : List Str)
    (given : cells.map PyItem.extracted = texts.map Extracted.text) (maxLen : Nat)
    (header : 5 < maxLen) (small : maxLen < 2 ^ 32) :
    TextsKept cells texts maxLen ↔ ∀ text ∈ texts, text.CutsCleanly (maxLen - 5) := by
  refine ⟨clean_of_textsKept given (Nat.le_of_lt header) small, fun clean => ?_⟩
  obtain ⟨buffer, packed, decoded⟩ :=
    decoded_packed cells texts given maxLen (Nat.le_of_lt header) small
  refine ⟨buffer, _, packed, decoded, ?_⟩
  rw [List.forall₂_map_right_iff, List.forall₂_same]
  intro text member
  refine ⟨(Str.fromUtf8Lossy_take_prefix text _).mpr (clean text member), fun fits => ?_⟩
  rw [List.take_of_length_le fits, Str.fromUtf8Lossy_self]

def textItem (s : Str) : PyItem := ⟨.text s, none, s⟩

-- U+00E9
def accented : Str := ⟨[0xC3, 0xA9], by decide⟩

def threeLetters : Str := ⟨ascii "key", by decide⟩

-- Two bytes fit: the accented letter whole, and the beginning of the other text.
theorem textsKept_cut :
    TextsKept [textItem accented, textItem threeLetters] [accented, threeLetters] 7 :=
  (textsKept_iff [textItem accented, textItem threeLetters] [accented, threeLetters] rfl 7
    (by decide) (by decide)).mpr fun text member => by
      simp only [List.mem_cons, List.not_mem_nil, or_false] at member
      rcases member with rfl | rfl
      · exact .inl (by decide)
      · exact .inl (by decide)

-- One byte of the two fits, and U+FFFD comes back.
theorem text_cut : ¬ ∀ (cells : List PyItem) (texts : List Str) (maxLen : Nat),
    cells.map PyItem.extracted = texts.map Extracted.text → 5 < maxLen → maxLen < 2 ^ 32 →
      TextsKept cells texts maxLen := by
  intro kept
  have clean := clean_of_textsKept rfl (by decide) (by decide)
    (kept [textItem accented] [accented] 6 rfl (by decide) (by decide)) accented
    List.mem_cons_self
  rcases clean with whole | ⟨start, before, _, _, replaced⟩
  · exact absurd whole (by decide)
  · obtain rfl : start = 0 := Nat.lt_one_iff.mp before
    exact absurd replaced (by decide)

end OmegaDrive
