import OmegaDrive.Connection.Client
import OmegaDrive.Connection.Loop
import OmegaDrive.Shared.OptionLoop

set_option autoImplicit false

namespace OmegaDrive

open Cursor

-- `format!("{:.6}", f)`, and the float that its text parses to.
structure FixedText (F : Type) [FloatText F] where
  format : F → Str
  rounded : F → F
  parse_format : ∀ f, FloatText.parse (format f) = some (rounded f)

def FixedText.Fits {F : Type} [FloatText F] (fixed : FixedText F) (floats : List F) : Prop :=
  0 < floats.length ∧ 2 + floats.length < 2 ^ 32 ∧
    ∀ f ∈ floats, (fixed.format f).bytes.length < 2 ^ 32

instance {F : Type} [FloatText F] (fixed : FixedText F) (floats : List F) :
    Decidable (fixed.Fits floats) :=
  inferInstanceAs (Decidable (_ ∧ _ ∧ ∀ f ∈ floats, (fixed.format f).bytes.length < 2 ^ 32))

namespace Client

section Commands

variable {F : Type} [FloatText F] (fixed : FixedText F)

def floatArg (f : F) : Bytes := makeBulkString (fixed.format f).bytes

def formatVaddCmd (key : Str) (floats : List F) : Bytes :=
  let numArgs := 2 + floats.length
  arrayHeader numArgs ++ ascii "$4\r\nVADD\r\n" ++ makeBulkString key.bytes ++
    floats.flatMap (floatArg fixed)

def formatVsearchCmd (k : Nat) (floats : List F) : Bytes :=
  let numArgs := 2 + floats.length
  arrayHeader numArgs ++ ascii "$7\r\nVSEARCH\r\n" ++ makeBulkString (Decimal.text k) ++
    floats.flatMap (floatArg fixed)

def flushCmd : Bytes := ascii "*1\r\n$7\r\nFLUSHDB\r\n"

/-- The loading loop: what is in the buffer when it is written, batch by batch. -/
def loadBatches {V : Type} (batchSize : Nat) : List V → List V → List (List V)
  | _, [] => []
  | buf, vector :: rest =>
    let buf := buf ++ [vector]
    if batchSize ≤ buf.length ∨ rest.isEmpty then buf :: loadBatches batchSize [] rest
    else loadBatches batchSize buf rest

theorem loadBatches_flatten {V : Type} (batchSize : Nat) (buf rest : List V)
    (some_left : rest ≠ []) : (loadBatches batchSize buf rest).flatten = buf ++ rest := by
  induction rest generalizing buf with
  | nil => exact absurd rfl some_left
  | cons vector rest ih =>
    rw [loadBatches]
    by_cases last : rest = []
    · subst last
      simp [loadBatches]
    · split
      next => simp [ih [] last]
      next => simp [ih (buf ++ [vector]) last]

theorem reads_floatArg (f : F) (short : (fixed.format f).bytes.length < 2 ^ 32) :
    Reads parseFloat (floatArg fixed f) (fixed.rounded f) := by
  have parsed : Reads (lift (FloatText.parse (fixed.format f)) : Cursor Byte F) []
      (fixed.rounded f) := by
    rw [fixed.parse_format f]
    exact reads_lift _
  have reads : Reads parseFloat (floatArg fixed f ++ []) (fixed.rounded f) :=
    (reads_parseStr (fixed.format f) short).bind parsed
  simpa using reads

theorem reads_floatArgs (floats : List F) (fits : fixed.Fits floats) :
    Reads (times parseFloat (2 + floats.length - 2)) (floats.flatMap (floatArg fixed))
      (floats.map fixed.rounded) := by
  have each : List.Forall₂ (Reads parseFloat) (floats.map (floatArg fixed))
      (floats.map fixed.rounded) := by
    rw [List.forall₂_map_left_iff, List.forall₂_map_right_iff, List.forall₂_same]
    exact fun f member => reads_floatArg fixed f (fits.2.2 f member)
  have count : 2 + floats.length - 2 = (floats.map fixed.rounded).length := by
    rw [List.length_map]
    omega
  rw [count, List.flatMap_def]
  exact Reads.times _ _ each

theorem reads_formatVaddCmd (key : Str) (floats : List F) (keyBound : key.bytes.length < 2 ^ 32)
    (fits : fixed.Fits floats) :
    Reads parseCommandFast (formatVaddCmd fixed key floats)
      (.vAdd key (floats.map fixed.rounded)) := by
  have arguments : Reads (parseVAdd (2 + floats.length))
      (makeBulkString key.bytes ++ (floats.flatMap (floatArg fixed) ++ ([] ++ [])))
      (.vAdd key (floats.map fixed.rounded)) :=
    (reads_parseBulkStr key.bytes keyBound).bind
      ((reads_floatArgs fixed floats fits).bind ((reads_fromUtf8 key).bind (reads_pure _)))
  obtain ⟨nonempty, small, _⟩ := fits
  have reads := reads_parseCommandFast (2 + floats.length) (by omega) small
    ⟨ascii "VADD", by decide⟩ (by decide) _ _
    (reads_keyword _ _ .vadd (by decide) _ _ (reads_atLeast 3 _ (by omega) _ _ _ arguments))
  have name : makeBulkString (ascii "VADD") = ascii "$4\r\nVADD\r\n" := by decide
  simpa [formatVaddCmd, ← name] using reads

theorem length_text_lt (k : Nat) (small : k < 2 ^ 64) : (Decimal.text k).length < 2 ^ 32 := by
  have digits : (Nat.toDigits 10 k).length ≤ 20 :=
    (Nat.length_toDigits_le_iff (by decide) (by decide)).mpr (by omega)
  rw [Decimal.text, List.length_map]
  omega

theorem reads_formatVsearchCmd (k : Nat) (floats : List F) (small : k < 2 ^ 64)
    (fits : fixed.Fits floats) :
    Reads parseCommandFast (formatVsearchCmd fixed k floats)
      (.vSearch k (floats.map fixed.rounded)) := by
  have number : Reads (lift ((unsignedLine k).parseUnsigned (2 ^ 64)) : Cursor Byte Nat) [] k := by
    rw [parseUnsigned_text (unsignedLine k) k _ rfl small]
    exact reads_lift k
  have arguments : Reads (parseVSearch (2 + floats.length))
      (makeBulkString (Decimal.text k) ++ ([] ++ (floats.flatMap (floatArg fixed) ++ [])))
      (.vSearch k (floats.map fixed.rounded)) :=
    (reads_parseStr (unsignedLine k) (length_text_lt k small)).bind
      (number.bind ((reads_floatArgs fixed floats fits).bind (reads_pure _)))
  obtain ⟨nonempty, small, _⟩ := fits
  have reads := reads_parseCommandFast (2 + floats.length) (by omega) small
    ⟨ascii "VSEARCH", by decide⟩ (by decide) _ _
    (reads_keyword _ _ .vsearch (by decide) _ _ (reads_atLeast 3 _ (by omega) _ _ _ arguments))
  have name : makeBulkString (ascii "VSEARCH") = ascii "$7\r\nVSEARCH\r\n" := by decide
  simpa [formatVsearchCmd, ← name] using reads

theorem reads_flushCmd : Reads (parseCommandFast (F := F)) flushCmd .flushDb := by
  have reads := reads_parseCommandFast 1 (by decide) (by decide)
    ⟨ascii "FLUSHDB", by decide⟩ (by decide) [] (.flushDb : Command F)
    (reads_keyword 1 _ .flushdb (by decide) _ _ (reads_pure _))
  have whole : arrayHeader 1 ++ makeBulkString (ascii "FLUSHDB") = flushCmd := by decide
  simpa [← whole] using reads

end Commands

-- `read_exact` of five bytes, three of which are looked at.
def readFlushed : Cursor Byte Unit := do
  let resp ← slice 5
  require (resp.take 3 = ascii "+OK")

def readLoaded : Nat → Cursor Byte Unit
  | 0 => return ()
  | count + 1 => do
    let resp ← readLine
    require ((ascii "+OK").isPrefixOf resp || (ascii "+").isPrefixOf resp)
    readLoaded count

theorem reads_flushed : Reads readFlushed respOk () := by
  have five : Reads (slice 5) respOk respOk := reads_slice respOk
  have reads : Reads readFlushed (respOk ++ []) () := five.bind (reads_require _ (by decide))
  simpa using reads

theorem reads_loaded (count : Nat) :
    Reads (readLoaded count) (List.replicate count respOk).flatten () := by
  induction count with
  | zero => exact reads_pure ()
  | succ count ih =>
    have clean : (ascii "+OK").all (· != 13) = true := by decide
    have line : Reads readLine respOk respOk :=
      reads_readLine (ascii "+OK") fun byte member => by
        simpa using List.all_eq_true.mp clean byte member
    have reads : Reads (readLoaded (count + 1))
        (respOk ++ ([] ++ (List.replicate count respOk).flatten)) () :=
      line.bind ((reads_require _ (by decide)).bind ih)
    simpa [List.replicate_succ] using reads

section Answers

variable {F : Type} [FloatArith F]

def entryOf (result : AirKey × F) : Option (Str × Int) :=
  (Str.fromUtf8 result.1.asBytes).map fun key =>
    (key, FloatArith.toI32 (FloatArith.mul result.2 (FloatArith.ofInt 10000)))

-- The results as the client has them: each score to four decimal places.
def answerOf (results : List (AirKey × F)) : Option (List (Str × F)) :=
  (results.mapM entryOf).map fun entries => entries.map decoded

theorem vsearchReply_entries (results : List (AirKey × F)) (entries : List (Str × Int))
    (named : results.mapM entryOf = some entries) :
    Server.vsearchReply results =
      arrayHeader (entries.length * 2) ++ entries.flatMap entryText := by
  have steps := OptionLoop.mapM_steps _ _ _ named
  have texts (results : List (AirKey × F)) (entries : List (Str × Int))
      (steps : List.Forall₂ (fun result entry => entryOf result = some entry) results entries) :
      (results.flatMap fun result => makeBulkString result.1.asBytes ++
        makeInt (FloatArith.toI32 (FloatArith.mul result.2 (FloatArith.ofInt 10000)))) =
        entries.flatMap entryText := by
    induction steps with
    | nil => rfl
    | @cons result entry results entries head tail ih =>
      obtain ⟨key, valid, rfl⟩ := Option.map_eq_some_iff.mp head
      simp only [List.flatMap_cons, ih, entryText, (Str.fromUtf8_eq_some _ key).mp valid]
  rw [Server.vsearchReply, steps.length_eq, ← texts results entries steps]

theorem reads_answer
    (i32 : ∀ f : F, -2 ^ 31 ≤ FloatArith.toI32 f ∧ FloatArith.toI32 f < 2 ^ 31)
    (results : List (AirKey × F)) (addressable : results.length < 2 ^ 63)
    (named : ∀ result ∈ results, ∃ key : Str, key.bytes = result.1.asBytes ∧
      key.bytes.length < 2 ^ 63) :
    ∃ answer, answerOf results = some answer ∧
      Reads readVsearchResponse (Server.vsearchReply results) answer := by
  obtain ⟨entries, visited, each⟩ := OptionLoop.mapM_related entryOf
    (fun _ entry => entry.1.bytes.length < 2 ^ 63 ∧ -2 ^ 31 ≤ entry.2 ∧ entry.2 < 2 ^ 31) results
    fun result member => by
      obtain ⟨key, same, sized⟩ := named result member
      refine ⟨(key, FloatArith.toI32 (FloatArith.mul result.2 (FloatArith.ofInt 10000))), ?_,
        sized, i32 _⟩
      rw [entryOf, ← same, Str.fromUtf8_bytes]
      rfl
  have bounds : ∀ entry ∈ entries, entry.1.bytes.length < 2 ^ 63 ∧ -2 ^ 31 ≤ entry.2 ∧
      entry.2 < 2 ^ 31 := by
    intro entry member
    obtain ⟨_, _, holds⟩ := OptionLoop.related_mem each entry member
    exact holds
  refine ⟨entries.map decoded, by rw [answerOf, visited]; rfl, ?_⟩
  rw [vsearchReply_entries results entries visited]
  exact reads_reply entries (by rwa [← each.length_eq])
    (fun entry member => (bounds entry member).1) fun entry member => (bounds entry member).2

end Answers

end Client

end OmegaDrive
