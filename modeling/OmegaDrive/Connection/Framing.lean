import OmegaDrive.Connection.Loop
import OmegaDrive.Resp.Frames

set_option autoImplicit false

namespace OmegaDrive

open Cursor BulkString

theorem frames_of_texts (pieces : List Bytes) (each : ∀ text ∈ pieces, IsText text) :
    ∃ frames : List BulkFrame, frames.length = pieces.length ∧
      frames.flatMap BulkFrame.text = pieces.flatten := by
  induction pieces with
  | nil => exact ⟨[], rfl, rfl⟩
  | cons text pieces ih =>
    obtain ⟨bulk, sized, rfl⟩ := each text List.mem_cons_self
    obtain ⟨frames, length, texts⟩ := ih fun other member => each other (List.mem_cons_of_mem _ member)
    exact ⟨bulk.frame sized :: frames, by simp [length],
      by rw [List.flatMap_cons, texts, List.flatten_cons]; rfl⟩

theorem takes_of_accepts {α : Type} {reader : Cursor Byte α} {count : Nat}
    {ok : List Bytes → Prop} (accepts : Accepts reader count ok) : Takes IsText reader count := by
  obtain ⟨decode, decodes, _⟩ := accepts
  intro pieces size each
  obtain ⟨frames, length, texts⟩ := frames_of_texts pieces each
  refine ⟨decode frames, fun rest => ?_⟩
  rw [← texts, decodes.reads frames (length.trans size)]

theorem takes_parsePair : Takes IsText parsePair 2 := by
  have takes : Takes IsText parsePair (1 + (1 + 0)) :=
    takes_parseBulkStr.bind fun _ => takes_parseBulkStr.bind fun _ => takes_pure _
  exact takes

section Branches

variable {F : Type}

variable [FloatText F]

omit [FloatText F] in
theorem takes_whole (branch : Cursor Byte (Command F)) (count : Nat)
    (takes : Takes IsText branch count)
    (whole : Yields branch fun command => command.isHeader = false) :
    Takes IsText (branch >>= readArguments) count := by
  have last (command : Command F) (isWhole : command.isHeader = false) :
      Takes IsText (readArguments command) 0 := by
    rw [readArguments, dif_pos isWhole]
    exact takes_pure _
  exact takes.bind_yields whole last

theorem yields_whole (numArgs : Nat) (word : Keyword) (own : word ≠ .mset ∧ word ≠ .mget) :
    Yields (parseArguments (F := F) numArgs word) fun command => command.isHeader = false := by
  cases word with
  | ping | save | bgsave | flushdb | info => exact yields_pure _ _ rfl
  | get | del | hgetall | zadd =>
    exact yields_atLeast _ _ _ _ (yields_parseKeyed _ _ fun _ => rfl)
  | select =>
    exact yields_atLeast _ _ _ _ ((yields_trivial _).bind fun _ _ => (yields_trivial _).bind
      fun _ _ => yields_pure _ _ rfl)
  | set | hmset | vadd | vsearch =>
    exact yields_atLeast _ _ _ _ ((yields_trivial _).bind fun _ _ => (yields_trivial _).bind
      fun _ _ => (yields_trivial _).bind fun _ _ => yields_pure _ _ rfl)
  | mset => exact absurd rfl own.1
  | mget => exact absurd rfl own.2

theorem takes_parseArguments (numArgs : Nat) (word : Keyword) (enough : word.least ≤ numArgs) :
    Takes IsText (parseArguments (F := F) numArgs word >>= readArguments)
      (word.taken numArgs) := by
  -- MSET and MGET alone leave their arguments to the connection loop.
  by_cases own : word ≠ .mset ∧ word ≠ .mget
  · have all : word.read numArgs = word.taken numArgs := by
      cases word <;> first | rfl | exact absurd rfl own.1 | exact absurd rfl own.2
    rw [← all]
    exact takes_whole _ _ (takes_of_accepts (accepts_parseArguments numArgs word enough))
      (yields_whole numArgs word own)
  · have header : word = .mset ∨ word = .mget := by
      by_cases same : word = .mset
      · exact .inl same
      · exact .inr (by_contra fun other => own ⟨same, other⟩)
    rcases header with rfl | rfl
    · rw [parseArguments, pure_bind]
      exact (takes_parsePair.times _).bind fun _ => takes_pure _
    · rw [parseArguments, pure_bind]
      have takes := takes_parseBulkStr.times (numArgs - 1)
      rw [Nat.mul_one] at takes
      exact takes.bind fun _ => takes_pure _

end Branches

namespace RespArray

variable {F : Type} [FloatText F]

/-- How many arguments the loop reads out of an array it accepts. -/
def taken (array : RespArray) : Nat :=
  match (Str.fromUtf8 array.name.data).bind keyword with
  | some word => word.taken (array.args.length + 1)
  | none => 0

def readText (array : RespArray) : Bytes :=
  array.header ++ array.name.text ++ (array.args.take array.taken).flatMap BulkString.text

def surplus (array : RespArray) : Bytes :=
  (array.args.drop array.taken).flatMap BulkString.text

theorem text_eq (array : RespArray) : array.text = array.readText ++ array.surplus := by
  rw [readText, surplus, List.append_assoc, ← List.flatMap_append, List.take_append_drop]
  rfl

theorem readRequest_header (array : RespArray) (sized : array.Sized) (rest : Bytes) :
    readRequest (F := F) (array.header ++ (array.name.text ++ rest)) =
      match Str.fromUtf8 array.name.data with
      | none => none
      | some name =>
        ((parseNamed (F := F) (array.args.length + 1) name >>= readArguments) rest).map fun pair =>
          (pair.1, (array.header ++ array.name.text).length + pair.2) := by
  have split : array.header ++ (array.name.text ++ rest) =
      (array.frameHeader sized).text ++ rest := (List.append_assoc _ _ _).symm
  rw [readRequest, split, Header.bind_header, array.numArgs_frameHeader sized]
  have name : (array.frameHeader sized).name.data = array.name.data := rfl
  rw [name]
  cases Str.fromUtf8 array.name.data <;> rfl

theorem readRequest_text (array : RespArray) (sized : array.Sized) :
    ∃ outcome : Option (Request F), ∀ rest, readRequest (array.text ++ rest) =
      outcome.map fun request => (request, array.readText.length) := by
  have whole (rest : Bytes) : array.text ++ rest = array.header ++ (array.name.text ++
      (array.args.flatMap BulkString.text ++ rest)) := by
    simp [text]
  cases named : Str.fromUtf8 array.name.data with
  | none =>
    refine ⟨none, fun rest => ?_⟩
    rw [whole, readRequest_header array sized, named]
    rfl
  | some name =>
    have header (rest : Bytes) := readRequest_header (F := F) array sized
      (array.args.flatMap BulkString.text ++ rest)
    simp only [named, ← whole] at header
    cases found : keyword name with
    | none =>
      have none_taken : array.taken = 0 := by simp [taken, named, found]
      refine ⟨some (.command (.unknown name) rfl), fun rest => ?_⟩
      rw [header, parseNamed, found, pure_bind]
      simp [readArguments, Command.isHeader, readText, none_taken]
    | some word =>
      have count : array.taken = word.taken (array.args.length + 1) := by
        simp [taken, named, found]
      simp only [parseNamed, found] at header
      by_cases enough : word.least ≤ array.args.length + 1
      · have inside := word.taken_le _ enough
        obtain ⟨outcome, reads⟩ := takes_parseArguments (F := F) (array.args.length + 1) word enough
          ((array.args.take array.taken).map BulkString.text)
          (by rw [List.length_map, List.length_take, ← count]; omega) (by
            intro text member
            obtain ⟨bulk, present, rfl⟩ := List.mem_map.mp member
            exact ⟨bulk, sized.2.2 bulk (List.mem_of_mem_take present), rfl⟩)
        refine ⟨outcome, fun rest => ?_⟩
        have split : array.args.flatMap BulkString.text ++ rest =
            ((array.args.take array.taken).map BulkString.text).flatten ++
              (array.surplus ++ rest) := by
          rw [← List.flatMap_def, surplus, ← List.append_assoc, ← List.flatMap_append,
            List.take_append_drop]
        rw [header, split, reads]
        cases outcome with
        | none => rfl
        | some request => simp [readText, List.flatMap_def, Nat.add_assoc]
      · refine ⟨none, fun rest => ?_⟩
        rw [header, bind_none _ _ _ (parseArguments_few _ word (by omega) (by omega) _)]
        rfl

end RespArray

theorem header_of_undispatched {F : Type} [FloatText F] (buf : Bytes) (command : Command F)
    (used : Nat) (parsed : parseCommandFast buf = some (command, used))
    (waits : next (F := F) buf = none) : command.isHeader = true := by
  obtain ⟨header, rest, rfl⟩ := Header.header_of_some _ _ _ parsed
  change (readRequest (header.text ++ rest)).map _ = none at waits
  by_contra whole
  have single : command.isHeader = false := Bool.eq_false_of_not_eq_true whole
  rw [readRequest, bind_some _ _ _ _ _ parsed, readArguments, dif_pos single] at waits
  cases waits

end OmegaDrive
