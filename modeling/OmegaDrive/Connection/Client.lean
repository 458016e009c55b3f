import OmegaDrive.Connection.Server
import OmegaDrive.Resp.Value
import OmegaDrive.Resp.RoundTrip
import OmegaDrive.Resp.WholeFloat

set_option autoImplicit false

namespace OmegaDrive

open Cursor

/-! The client of `vector_bench_resp`. An error and a panic alike end its reading. -/

-- `parse::<i32>`: a minus sign and digits, or what an unsigned number may be.
def Str.parseI32 (s : Str) : Option Int :=
  match s.bytes with
  | 45 :: digits =>
    if digits = [] ∨ digits.all Decimal.isDigit = false then none
    else if Decimal.value digits ≤ 2 ^ 31 then some (-(Decimal.value digits : Int)) else none
  | _ => (s.parseUnsigned (2 ^ 31)).map fun (n : Nat) => (n : Int)

namespace Client

/-- The bytes come one at a time, until those so far end in CR LF. -/
def readLineFrom : Bytes → Cursor Byte Bytes
  | _, [] => none
  | buf, byte :: items =>
    let buf := buf ++ [byte]
    if crlf.isSuffixOf buf then some (buf, 1)
    else (readLineFrom buf items).map fun (line, used) => (line, used + 1)

def readLine : Cursor Byte Bytes := readLineFrom []

-- `from_utf8(&line[1..line.len()-2]).unwrap()`
def lineText (line : Bytes) : Option Str := Str.fromUtf8 ((line.take (line.length - 2)).drop 1)

variable {F : Type} [FloatArith F]

-- One element: the current key and the results after it.
def readElement (state : Str × List (Str × F)) : Cursor Byte (Str × List (Str × F)) := do
  let (currentKey, results) := state
  let elHeader ← readLine
  if (ascii "$").isPrefixOf elHeader then
    let len ← lift ((lineText elHeader).bind (Str.parseUnsigned (2 ^ 64)))
    let data ← slice ((len + 2) % 2 ^ 64)
    require (len ≤ data.length)
    let currentKey ← lift (Str.fromUtf8 (data.take len))
    return (currentKey, results)
  else if (ascii ":").isPrefixOf elHeader then
    let valInt ← lift ((lineText elHeader).bind Str.parseI32)
    let val := FloatArith.div (FloatArith.ofInt valInt) (FloatArith.ofInt 10000)
    return (currentKey, results ++ [(currentKey, val)])
  else return (currentKey, results)

def readElements : Nat → Str × List (Str × F) → Cursor Byte (Str × List (Str × F))
  | 0, state => pure state
  | count + 1, state => readElement state >>= readElements count

def readVsearchResponse : Cursor Byte (List (Str × F)) := do
  let header ← readLine
  require ((ascii "*").isPrefixOf header)
  let count ← lift ((lineText header).bind (Str.parseUnsigned (2 ^ 64)))
  let (_, results) ← readElements count (⟨[], rfl⟩, [])
  return results

end Client

theorem parseUnsigned_text (s : Str) (n bound : Nat) (written : s.bytes = Decimal.text n)
    (small : n < bound) : s.parseUnsigned bound = some n := by
  have numeral : (Decimal.text n).all Decimal.isDigit = true :=
    List.all_eq_true.mpr (Decimal.digits_text n)
  rw [Str.parseUnsigned, written]
  split
  next rest plus => exact absurd plus (Decimal.text_ne_cons n 43 rest rfl)
  next => simp [Decimal.text_ne_nil, numeral, Decimal.value_text, small]

theorem parseI32_signedText (s : Str) (value : Int) (written : s.bytes = signedText value)
    (low : -2 ^ 31 ≤ value) (high : value < 2 ^ 31) : s.parseI32 = some value := by
  have numeral : (Decimal.text value.natAbs).all Decimal.isDigit = true :=
    List.all_eq_true.mpr (Decimal.digits_text value.natAbs)
  by_cases negative : value < 0
  · have shown : s.bytes = 45 :: Decimal.text value.natAbs := by
      rw [written, signedText, if_pos negative]
      rfl
    have fits : value.natAbs ≤ 2 ^ 31 := by omega
    have undone : -(value.natAbs : Int) = value := by omega
    simp only [Str.parseI32, shown]
    rw [if_neg (by simp [Decimal.text_ne_nil, numeral]), Decimal.value_text, if_pos fits, undone]
  · have shown : s.bytes = Decimal.text value.natAbs := by
      rw [written, signedText, if_neg negative]
    have undone : (value.natAbs : Int) = value := by omega
    rw [Str.parseI32]
    split
    next digits minus =>
      exact absurd (shown.symm.trans minus) (Decimal.text_ne_cons _ 45 digits rfl)
    next =>
      rw [parseUnsigned_text s value.natAbs _ shown (by omega), Option.map_some, undone]

namespace Client

theorem suffix_concat (buf : Bytes) (byte : Byte) (line : ∀ b ∈ buf, b ≠ 13) :
    crlf.isSuffixOf (buf ++ [byte]) = false := by
  rw [Bool.eq_false_iff, ne_eq, List.isSuffixOf_iff_suffix]
  rintro ⟨front, same⟩
  have last : front ++ [13] = buf := by
    have split : (front ++ [13]) ++ [10] = buf ++ [byte] := by
      rw [List.append_assoc]
      exact same
    exact (List.append_inj' split rfl).1
  exact line 13 (by rw [← last]; simp) rfl

theorem readLineFrom_line (buf line rest : Bytes) (before : ∀ byte ∈ buf, byte ≠ 13)
    (clean : ∀ byte ∈ line, byte ≠ 13) :
    readLineFrom buf (line ++ crlf ++ rest) = some (buf ++ line ++ crlf, line.length + 2) := by
  induction line generalizing buf with
  | nil =>
    have first := suffix_concat buf 13 before
    have second : crlf.isSuffixOf (buf ++ [13] ++ [10]) = true := by
      rw [List.isSuffixOf_iff_suffix, List.append_assoc]
      exact List.suffix_append buf crlf
    change readLineFrom buf (13 :: 10 :: rest) = _
    simp only [readLineFrom, first, second, Bool.false_eq_true, if_false, if_true, Option.map_some]
    simp [crlf]
  | cons byte line ih =>
    have head := suffix_concat buf byte before
    have tail := ih (buf ++ [byte])
      (by
        intro b member
        rcases List.mem_append.mp member with earlier | last
        · exact before b earlier
        · rw [List.mem_singleton.mp last]
          exact clean byte List.mem_cons_self)
      fun b member => clean b (List.mem_cons_of_mem _ member)
    rw [List.cons_append, List.cons_append, readLineFrom]
    simp only [head, Bool.false_eq_true, if_false, tail, Option.map_some]
    simp

theorem reads_readLine (line : Bytes) (clean : ∀ byte ∈ line, byte ≠ 13) :
    Reads readLine (line ++ crlf) (line ++ crlf) := by
  intro rest
  rw [readLine, readLineFrom_line [] line rest (by simp) clean, List.nil_append, List.length_append]
  rfl

theorem reads_header (tag : Byte) (s : Str) (tagged : tag ≠ 13)
    (clean : ∀ byte ∈ s.bytes, byte ≠ 13) :
    Reads readLine (tag :: s.bytes ++ crlf) (tag :: s.bytes ++ crlf) := by
  apply reads_readLine
  intro byte member
  rcases List.mem_cons.mp member with rfl | inside
  · exact tagged
  · exact clean byte inside

theorem validUtf8_text (n : Nat) : validUtf8 (Decimal.text n) = true :=
  validUtf8_ascii _ (text_plain n)

theorem validUtf8_signedText (value : Int) : validUtf8 (signedText value) = true :=
  validUtf8_ascii _ (signedText_plain value)

def unsignedLine (n : Nat) : Str := ⟨Decimal.text n, validUtf8_text n⟩

def signedLine (value : Int) : Str := ⟨signedText value, validUtf8_signedText value⟩

theorem unsignedLine_clean (n : Nat) : ∀ byte ∈ (unsignedLine n).bytes, byte ≠ 13 :=
  fun byte digit => (RespValue.digits_plain n byte digit).1

theorem signedLine_clean (value : Int) : ∀ byte ∈ (signedLine value).bytes, byte ≠ 13 :=
  RespValue.line_plain (.integer value)

theorem lineText_line (tag : Byte) (s : Str) : lineText (tag :: s.bytes ++ crlf) = some s := by
  have inner : ((tag :: s.bytes ++ crlf).take ((tag :: s.bytes ++ crlf).length - 2)).drop 1 =
      s.bytes := by
    have size : (tag :: s.bytes ++ crlf).length - 2 = (tag :: s.bytes).length := by
      rw [List.length_append]
      rfl
    rw [size, List.take_left]
    rfl
  rw [lineText, inner, Str.fromUtf8_bytes]

variable {F : Type} [FloatArith F]

theorem reads_bulk (key currentKey : Str) (sized : key.bytes.length < 2 ^ 63)
    (results : List (Str × F)) :
    Reads (readElement (currentKey, results)) (makeBulkString key.bytes) (key, results) := by
  let text := unsignedLine key.bytes.length
  have header := reads_header 36 text (by decide) (unsignedLine_clean _)
  have tagged : (ascii "$").isPrefixOf (36 :: text.bytes ++ crlf) = true := rfl
  have length : (lineText (36 :: text.bytes ++ crlf)).bind (Str.parseUnsigned (2 ^ 64)) =
      some key.bytes.length := by
    rw [lineText_line]
    exact parseUnsigned_text text _ _ rfl (by omega)
  have size : (key.bytes.length + 2) % 2 ^ 64 = (key.bytes ++ crlf).length := by
    rw [Nat.mod_eq_of_lt (by omega), List.length_append]
    rfl
  have data : Reads (slice ((key.bytes.length + 2) % 2 ^ 64)) (key.bytes ++ crlf)
      (key.bytes ++ crlf) := by
    rw [size]
    exact reads_slice _
  have inside : decide (key.bytes.length ≤ (key.bytes ++ crlf).length) = true := by simp
  have whole : Str.fromUtf8 ((key.bytes ++ crlf).take key.bytes.length) = some key := by
    rw [List.take_left, Str.fromUtf8_bytes]
  have reads : Reads (readElement (currentKey, results))
      ((36 :: text.bytes ++ crlf) ++ ([] ++ ((key.bytes ++ crlf) ++ ([] ++ ([] ++ [])))))
      (key, results) := by
    apply header.bind
    rw [if_pos tagged, length]
    apply (reads_lift _).bind
    apply data.bind
    apply (reads_require _ inside).bind
    rw [whole]
    exact (reads_lift key).bind (reads_pure _)
  have written : makeBulkString key.bytes = (36 :: text.bytes ++ crlf) ++ (key.bytes ++ crlf) := by
    simp only [makeBulkString, List.append_assoc]
    rfl
  simpa [written] using reads

theorem reads_int (currentKey : Str) (value : Int) (low : -2 ^ 31 ≤ value)
    (high : value < 2 ^ 31) (results : List (Str × F)) :
    Reads (readElement (currentKey, results)) (makeInt value)
      (currentKey, results ++
        [(currentKey, FloatArith.div (FloatArith.ofInt value) (FloatArith.ofInt 10000))]) := by
  let text := signedLine value
  have header := reads_header 58 text (by decide) (signedLine_clean value)
  have other : (ascii "$").isPrefixOf (58 :: text.bytes ++ crlf) = false := rfl
  have tagged : (ascii ":").isPrefixOf (58 :: text.bytes ++ crlf) = true := rfl
  have number : (lineText (58 :: text.bytes ++ crlf)).bind Str.parseI32 = some value := by
    rw [lineText_line]
    exact parseI32_signedText text value rfl low high
  have reads : Reads (readElement (currentKey, results))
      ((58 :: text.bytes ++ crlf) ++ ([] ++ [])) (currentKey, results ++
        [(currentKey, FloatArith.div (FloatArith.ofInt value) (FloatArith.ofInt 10000))]) := by
    apply header.bind
    rw [other, if_neg Bool.false_ne_true, if_pos tagged, number]
    exact (reads_lift value).bind (reads_pure _)
  have written : makeInt value = 58 :: text.bytes ++ crlf := rfl
  simpa [written] using reads

def entryText (entry : Str × Int) : Bytes := makeBulkString entry.1.bytes ++ makeInt entry.2

def decoded (entry : Str × Int) : Str × F :=
  (entry.1, FloatArith.div (FloatArith.ofInt entry.2) (FloatArith.ofInt 10000))

theorem reads_elements (entries : List (Str × Int))
    (sized : ∀ entry ∈ entries, entry.1.bytes.length < 2 ^ 63)
    (i32 : ∀ entry ∈ entries, -2 ^ 31 ≤ entry.2 ∧ entry.2 < 2 ^ 31) (currentKey : Str)
    (results : List (Str × F)) :
    ∃ last, Reads (readElements (entries.length * 2) (currentKey, results))
      (entries.flatMap entryText) (last, results ++ entries.map decoded) := by
  induction entries generalizing currentKey results with
  | nil =>
    rw [List.map_nil, List.append_nil]
    exact ⟨currentKey, reads_pure _⟩
  | cons entry entries ih =>
    obtain ⟨last, rest⟩ := ih (fun other member => sized other (List.mem_cons_of_mem _ member))
      (fun other member => i32 other (List.mem_cons_of_mem _ member)) entry.1
      (results ++ [decoded entry])
    obtain ⟨low, high⟩ := i32 entry List.mem_cons_self
    have key := reads_bulk entry.1 currentKey (sized entry List.mem_cons_self) results
    have number := reads_int entry.1 entry.2 low high results
    have second : Reads (readElements (entries.length * 2 + 1) (entry.1, results))
        (makeInt entry.2 ++ entries.flatMap entryText)
        (last, results ++ [decoded entry] ++ entries.map decoded) := number.bind rest
    have both : Reads (readElements (entries.length * 2 + 2) (currentKey, results))
        (makeBulkString entry.1.bytes ++ (makeInt entry.2 ++ entries.flatMap entryText))
        (last, results ++ [decoded entry] ++ entries.map decoded) := key.bind second
    refine ⟨last, ?_⟩
    simpa [entryText, Nat.succ_mul] using both

theorem reads_reply (entries : List (Str × Int)) (addressable : entries.length < 2 ^ 63)
    (sized : ∀ entry ∈ entries, entry.1.bytes.length < 2 ^ 63)
    (i32 : ∀ entry ∈ entries, -2 ^ 31 ≤ entry.2 ∧ entry.2 < 2 ^ 31) :
    Reads readVsearchResponse (arrayHeader (entries.length * 2) ++ entries.flatMap entryText)
      (entries.map (decoded (F := F))) := by
  let text := unsignedLine (entries.length * 2)
  have header := reads_header 42 text (by decide) (unsignedLine_clean _)
  have tagged : (ascii "*").isPrefixOf (42 :: text.bytes ++ crlf) = true := rfl
  have count : (lineText (42 :: text.bytes ++ crlf)).bind (Str.parseUnsigned (2 ^ 64)) =
      some (entries.length * 2) := by
    rw [lineText_line]
    exact parseUnsigned_text text _ _ rfl (by omega)
  obtain ⟨last, elements⟩ := reads_elements (F := F) entries sized i32 ⟨[], rfl⟩ []
  have reads : Reads readVsearchResponse
      ((42 :: text.bytes ++ crlf) ++ ([] ++ ([] ++ (entries.flatMap entryText ++ []))))
      (entries.map (decoded (F := F))) := by
    apply header.bind
    apply (reads_require _ tagged).bind
    rw [count]
    apply (reads_lift _).bind
    exact elements.bind (reads_pure _)
  have written : arrayHeader (entries.length * 2) = 42 :: text.bytes ++ crlf := rfl
  simpa [written] using reads

theorem reads_vsearchReply
    (i32 : ∀ f : F, -2 ^ 31 ≤ FloatArith.toI32 f ∧ FloatArith.toI32 f < 2 ^ 31)
    (results : List (AirKey × F))
    (utf8 : ∀ result ∈ results, validUtf8 result.1.asBytes = true)
    (addressable : results.length < 2 ^ 63)
    (sized : ∀ result ∈ results, result.1.asBytes.length < 2 ^ 63) :
    ∃ read : List (Str × F), Reads readVsearchResponse (Server.vsearchReply results) read ∧
      List.Forall₂ (fun result entry => entry.1.bytes = result.1.asBytes ∧
        entry.2 = FloatArith.div (FloatArith.ofInt (FloatArith.toI32
          (FloatArith.mul result.2 (FloatArith.ofInt 10000)))) (FloatArith.ofInt 10000))
        results read := by
  obtain ⟨named, rfl⟩ : ∃ named : List { result : AirKey × F // validUtf8 result.1.asBytes = true },
      named.map Subtype.val = results :=
    ⟨results.attachWith _ utf8, List.attachWith_map_subtype_val utf8⟩
  let entry (result : { result : AirKey × F // validUtf8 result.1.asBytes = true }) : Str × Int :=
    (⟨result.1.1.asBytes, result.2⟩,
      FloatArith.toI32 (FloatArith.mul result.1.2 (FloatArith.ofInt 10000)))
  have reads := reads_reply (F := F) (named.map entry) (by simpa using addressable)
    (by
      intro other member
      obtain ⟨result, inside, rfl⟩ := List.mem_map.mp member
      exact sized result.1 (List.mem_map_of_mem inside))
    (by
      intro other member
      obtain ⟨result, _, rfl⟩ := List.mem_map.mp member
      exact i32 _)
  have written : Server.vsearchReply (named.map Subtype.val) =
      arrayHeader ((named.map entry).length * 2) ++ (named.map entry).flatMap entryText := by
    rw [Server.vsearchReply, List.length_map, List.length_map, List.flatMap_map, List.flatMap_map]
    rfl
  rw [← written] at reads
  refine ⟨_, reads, ?_⟩
  rw [List.map_map, List.forall₂_map_left_iff, List.forall₂_map_right_iff, List.forall₂_same]
  exact fun result _ => ⟨rfl, rfl⟩

-- A key that is a line ending, and one that is stored outside the inline bytes.
def twoResults : List (AirKey × Int) :=
  [(AirKey.fromBytes [13, 10], -3), (AirKey.fromBytes (List.replicate 16 97), 7)]

theorem reads_vsearchReply_two :
    ∃ read : List (Str × Int), Reads readVsearchResponse (Server.vsearchReply twoResults) read ∧
      List.Forall₂ (fun result entry => entry.1.bytes = result.1.asBytes ∧
        entry.2 = FloatArith.div (FloatArith.ofInt (FloatArith.toI32
          (FloatArith.mul result.2 (FloatArith.ofInt 10000)))) (FloatArith.ofInt 10000))
        twoResults read := by
  have keys : ∀ result ∈ twoResults,
      validUtf8 result.1.asBytes = true ∧ result.1.asBytes.length < 2 ^ 63 := by
    intro result member
    simp only [twoResults, List.mem_cons, List.not_mem_nil, or_false] at member
    rcases member with rfl | rfl
    · rw [AirKey.asBytes_fromBytes]
      decide
    · rw [AirKey.asBytes_fromBytes]
      decide
  apply reads_vsearchReply
  · intro f
    change -2 ^ 31 ≤ max (-2 ^ 31) (min f (2 ^ 31 - 1)) ∧ max (-2 ^ 31) (min f (2 ^ 31 - 1)) < 2 ^ 31
    omega
  · exact fun result member => (keys result member).1
  · decide
  · exact fun result member => (keys result member).2

end Client

end OmegaDrive
