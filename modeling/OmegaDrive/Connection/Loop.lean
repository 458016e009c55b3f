import OmegaDrive.Connection.Server
import OmegaDrive.Resp.Stability
import OmegaDrive.Resp.WholeFloat
import OmegaDrive.Shared.Incremental

set_option autoImplicit false

namespace OmegaDrive

open Cursor

variable {F : Type} [FloatText F]

def parsePair : Cursor Byte (Bytes × Bytes) := do
  let key ← parseBulkStr
  let value ← parseBulkStr
  return (key, value)

/-- MSET and MGET read their arguments here, after their header. -/
def readArguments (command : Command F) : Cursor Byte (Request F) :=
  if whole : command.isHeader = false then return .command command whole
  else
    match command with
    | .mSetHeader numArgs => do
      let batch ← times parsePair (numArgs / 2)
      return .mset batch
    | .mGetHeader numArgs => do
      let keys ← times parseBulkStr numArgs
      return .mget keys
    | _ => fail

def readRequest : Cursor Byte (Request F) := do
  let command ← parseCommandFast
  readArguments command

-- Up to and with the next line feed.
def skipLine : Cursor Byte Unit := fun buf =>
  let line := buf.takeWhile fun byte => byte != 10
  if line.length < buf.length then some ((), line.length + 1) else none

-- One turn of the loop at `pos`: a request, or a line that is none.
def next : Cursor Byte (Option (Request F)) := fun buf =>
  match buf with
  | [] => none
  | byte :: _ =>
    if byte = 42 then (readRequest buf).map fun (request, used) => (some request, used)
    else (skipLine buf).map fun (_, used) => (none, used)

structure Connection (F : Type) where
  server : Server F
  -- the bytes of the stream before the read buffer's start
  consumed : Nat
  -- the commands dispatched, and where in the stream each began
  dispatched : List (Nat × Request F)
  -- the replies, in the write buffer or behind it
  appended : Bytes

namespace Connection

def new (server : Server F) : Connection F :=
  { server, consumed := 0, dispatched := [], appended := [] }

variable [FloatArith F]

def step (env : Env) (conn : Connection F) (item : Option (Request F)) (used : Nat) :
    Connection F ⊕ Connection F :=
  match item with
  | none => .inl { conn with consumed := conn.consumed + used }
  | some request =>
    let dispatched := conn.dispatched ++ [(conn.consumed, request)]
    match conn.server.handle env request with
    | (server, some reply) =>
      .inl ⟨server, conn.consumed + used, dispatched, conn.appended ++ reply⟩
    | (server, none) => .inr { conn with server, dispatched }

-- `handle_connection` over the bytes of one read.
def receive (env : Env) : Incremental.Progress (Connection F) Byte → Bytes →
    Incremental.Progress (Connection F) Byte :=
  Incremental.receive next (step env)

end Connection

theorem selfDelimiting_parsePair : SelfDelimiting parsePair :=
  selfDelimiting_parseBulkStr.bind fun _ => selfDelimiting_parseBulkStr.bind fun _ =>
    selfDelimiting_pure _

omit [FloatText F] in
theorem selfDelimiting_readArguments (command : Command F) :
    SelfDelimiting (readArguments command) := by
  unfold readArguments
  split
  next => exact selfDelimiting_pure _
  next =>
    split
    next => exact (selfDelimiting_parsePair.times _).bind fun _ => selfDelimiting_pure _
    next => exact (selfDelimiting_parseBulkStr.times _).bind fun _ => selfDelimiting_pure _
    next => exact selfDelimiting_fail

theorem selfDelimiting_readRequest : SelfDelimiting (readRequest : Cursor Byte (Request F)) :=
  selfDelimiting_parseCommandFast.bind selfDelimiting_readArguments

theorem skipLine_line (line rest : Bytes) (oneLine : ∀ byte ∈ line, byte ≠ 10) :
    skipLine (line ++ 10 :: rest) = some ((), line.length + 1) := by
  have taken : (line ++ 10 :: rest).takeWhile (fun byte => byte != 10) = line := by
    rw [List.takeWhile_append_of_pos fun byte member => by simpa using oneLine byte member]
    simp
  simp [skipLine, taken]

theorem skipLine_eq_some (buf : Bytes) (u : Unit) (used : Nat)
    (run : skipLine buf = some (u, used)) :
    ∃ line rest, buf = line ++ 10 :: rest ∧ used = line.length + 1 ∧ ∀ byte ∈ line, byte ≠ 10 := by
  simp only [skipLine] at run
  split at run
  next ends =>
    obtain rfl : _ = used := (Prod.mk.inj (Option.some.inj run)).2
    have split := List.takeWhile_append_dropWhile (p := fun byte : Byte => byte != 10) (l := buf)
    cases stop : buf.dropWhile fun byte => byte != 10 with
    | nil =>
      rw [stop, List.append_nil] at split
      rw [split] at ends
      omega
    | cons byte rest =>
      have feed : byte = 10 := by
        have head := List.head_dropWhile_not (p := fun byte : Byte => byte != 10) (l := buf)
          (by rw [stop]; simp)
        simpa [stop] using head
      refine ⟨_, rest, ?_, rfl, fun other member => by simpa using List.mem_takeWhile_imp member⟩
      rw [feed] at stop
      rw [← stop, split]
  next => cases run

theorem selfDelimiting_skipLine : SelfDelimiting skipLine := by
  refine selfDelimiting_of_reads fun buf u used run => ?_
  obtain ⟨line, rest, rfl, rfl, oneLine⟩ := skipLine_eq_some buf u used run
  refine ⟨line ++ [10], rest, by simp, by simp, fun other => ?_⟩
  rw [List.append_assoc]
  simpa using skipLine_line line other oneLine

theorem readRequest_star (buf : Bytes) (request : Request F) (used : Nat)
    (run : readRequest buf = some (request, used)) : buf.head? = some 42 ∧ 0 < used := by
  obtain ⟨command, first, more, parsed, _, rfl⟩ := bind_eq_some _ _ _ _ _ run
  obtain ⟨star, moved⟩ := parseCommandFast_star _ _ _ parsed
  exact ⟨star, by omega⟩

theorem advances_next : Incremental.Advances (next : Cursor Byte (Option (Request F))) := by
  intro buf item used run
  cases buf with
  | nil => cases run
  | cons byte rest =>
    rw [next] at run
    split at run
    · obtain ⟨⟨request, length⟩, read, same⟩ := Option.map_eq_some_iff.mp run
      obtain ⟨_, rfl⟩ := Prod.mk.inj same
      exact (readRequest_star _ _ _ read).2
    · obtain ⟨⟨u, length⟩, skipped, same⟩ := Option.map_eq_some_iff.mp run
      obtain ⟨_, rfl⟩ := Prod.mk.inj same
      obtain ⟨line, _, _, rfl, _⟩ := skipLine_eq_some _ _ _ skipped
      omega

theorem selfDelimiting_next : SelfDelimiting (next : Cursor Byte (Option (Request F))) := by
  intro buf item used run
  have positive := advances_next buf item used run
  cases buf with
  | nil => cases run
  | cons byte rest =>
    have head (more : Bytes) : (byte :: rest).take used ++ more =
        byte :: (rest.take (used - 1) ++ more) := by
      obtain ⟨n, rfl⟩ : ∃ n, used = n + 1 := ⟨used - 1, by omega⟩
      simp
    rw [next] at run
    split at run
    next star =>
      obtain ⟨⟨request, length⟩, read, same⟩ := Option.map_eq_some_iff.mp run
      obtain ⟨rfl, rfl⟩ := Prod.mk.inj same
      obtain ⟨inside, stable⟩ := selfDelimiting_readRequest _ _ _ read
      refine ⟨inside, fun more => ?_⟩
      rw [head, next, if_pos star, ← head, stable more]
      rfl
    next star =>
      obtain ⟨⟨u, length⟩, skipped, same⟩ := Option.map_eq_some_iff.mp run
      obtain ⟨rfl, rfl⟩ := Prod.mk.inj same
      obtain ⟨inside, stable⟩ := selfDelimiting_skipLine _ _ _ skipped
      refine ⟨inside, fun more => ?_⟩
      rw [head, next, if_neg star, ← head, stable more]
      rfl

theorem yields_parseBulkStr : Yields parseBulkStr fun data => data.length < 2 ^ 32 := by
  intro buf data used run
  obtain ⟨_, _, _, _, run, _⟩ := bind_eq_some _ _ _ _ _ run
  obtain ⟨argLen, _, _, _, run, _⟩ := bind_eq_some _ _ _ _ _ run
  obtain ⟨taken, _, _, sliced, run, _⟩ := bind_eq_some _ _ _ _ _ run
  obtain ⟨_, _, _, _, run, _⟩ := bind_eq_some _ _ _ _ _ run
  obtain ⟨rfl, _⟩ : taken = data ∧ _ := by simpa using run
  simp only [slice] at sliced
  split at sliced <;> simp at sliced
  have bound := argLen.toNat_lt
  simp only [← sliced.1, List.length_take]
  omega

theorem yields_parseField : Yields parseField fun field =>
    field.1.bytes.length < 2 ^ 32 ∧ field.2.length < 2 ^ 32 := by
  refine yields_parseBulkStr.bind fun key keyBound => yields_parseBulkStr.bind
    fun value valueBound => ?_
  intro buf field used run
  obtain ⟨name, _, _, valid, run, _⟩ := bind_eq_some _ _ _ _ _ run
  obtain ⟨rfl, _⟩ : (name, value) = field ∧ _ := by simpa using run
  obtain ⟨_, read, same⟩ := Option.map_eq_some_iff.mp valid
  obtain ⟨rfl, _⟩ := Prod.mk.inj same
  rw [(Str.fromUtf8_eq_some key _).mp read] at keyBound
  exact ⟨keyBound, valueBound⟩

def Command.Sized : Command F → Prop
  | .hmSet _ fields => fields.length < 2 ^ 32 ∧ OmegaDrive.Sized fields
  | _ => True

omit [FloatText F] in
theorem yields_parseKeyed (command : Str → Command F) (property : Command F → Prop)
    (holds : ∀ key, property (command key)) : Yields (parseKeyed command) property :=
  (yields_trivial _).bind fun key _ => yields_pure _ _ (holds key)

omit [FloatText F] in
theorem yields_atLeast (least numArgs : Nat) (branch : Cursor Byte (Command F))
    (property : Command F → Prop) (yields : Yields branch property) :
    Yields (atLeast least numArgs branch) property :=
  (yields_trivial _).bind fun _ _ => yields

theorem yields_parseArguments (numArgs : Nat) (bound : numArgs < 2 ^ 32) (word : Keyword) :
    Yields (parseArguments (F := F) numArgs word) Command.Sized := by
  cases word with
  | set =>
    exact yields_atLeast _ _ _ _ ((yields_trivial _).bind fun _ _ => (yields_trivial _).bind
      fun _ _ => (yields_trivial _).bind fun _ _ => yields_pure _ _ trivial)
  | hmset =>
    refine yields_atLeast _ _ _ _ ((yields_trivial _).bind fun _ _ =>
      (yields_parseField.times _).bind fun fields ⟨count, sized⟩ => (yields_trivial _).bind
        fun _ _ => yields_pure _ _ ⟨?_, sized⟩)
    omega
  | select =>
    exact yields_atLeast _ _ _ _ ((yields_trivial _).bind fun _ _ => (yields_trivial _).bind
      fun _ _ => yields_pure _ _ trivial)
  | vadd | vsearch =>
    exact yields_atLeast _ _ _ _ ((yields_trivial _).bind fun _ _ => (yields_trivial _).bind
      fun _ _ => (yields_trivial _).bind fun _ _ => yields_pure _ _ trivial)
  | get | del | hgetall | zadd =>
    exact yields_atLeast _ _ _ _ (yields_parseKeyed _ _ fun _ => trivial)
  | ping | mget | mset | save | bgsave | flushdb | info => exact yields_pure _ _ trivial

theorem parseCommandFast_yields {P : Command F → Prop} (unknown : ∀ name, P (.unknown name))
    (arguments : ∀ numArgs < 2 ^ 32, ∀ word, Yields (parseArguments numArgs word) P) :
    Yields parseCommandFast P := by
  refine (yields_trivial _).bind fun _ _ => (yields_trivial _).bind fun numArgs _ =>
    (yields_trivial _).bind fun _ _ => (yields_trivial _).bind fun _ _ =>
      (yields_trivial _).bind fun name _ => ?_
  rw [parseNamed]
  cases keyword name with
  | none => exact yields_pure _ _ (unknown name)
  | some word => exact arguments _ numArgs.toNat_lt word

theorem readRequest_yields {P : Command F → Prop} {Q : Request F → Prop}
    (parsed : Yields parseCommandFast P)
    (command : ∀ command whole, P command → Q (.command command whole))
    (mset : ∀ batch, Q (.mset batch)) (mget : ∀ keys, Q (.mget keys)) :
    Yields readRequest Q := by
  refine parsed.bind fun parsed holds => ?_
  unfold readArguments
  split
  next whole => exact yields_pure _ _ (command parsed whole holds)
  next =>
    split
    next => exact (yields_trivial _).bind fun batch _ => yields_pure _ _ (mset batch)
    next => exact (yields_trivial _).bind fun keys _ => yields_pure _ _ (mget keys)
    next => exact yields_fail _

theorem yields_parseCommandFast : Yields (parseCommandFast (F := F)) Command.Sized :=
  parseCommandFast_yields (fun _ => trivial) yields_parseArguments

theorem yields_readRequest : Yields (readRequest (F := F)) Request.Sized := by
  refine readRequest_yields yields_parseCommandFast (fun command whole sized => ?_)
    (fun _ => trivial) fun _ => trivial
  cases command with
  | hmSet => exact sized
  | _ => trivial

namespace Connection

variable [FloatArith F]

theorem receive_chunks (env : Env) (conn : Connection F) :
    (∀ chunks : List Bytes, chunks.foldl (receive env) (.waiting conn []) =
        receive env (.waiting conn []) chunks.flatten) ∧
      ∀ rest chunk : Bytes, (rest ++ chunk).head? = some 42 →
        readRequest (F := F) (rest ++ chunk) = none →
          receive env (.waiting conn rest) chunk = .waiting conn (rest ++ chunk) := by
  refine ⟨Incremental.receive_flatten selfDelimiting_next advances_next conn, ?_⟩
  intro rest chunk star incomplete
  have stuck : next (F := F) (rest ++ chunk) = none := by
    generalize rest ++ chunk = buf at star incomplete
    cases buf with
    | nil => rfl
    | cons byte buf =>
      have star : byte = 42 := by simpa using star
      rw [next, if_pos star, incomplete]
      rfl
  exact Incremental.consume_none _ _ _ stuck

theorem receive_chunks_mset (env : Env) (conn : Connection Int) :
    receive env (.waiting conn (ascii "*3\r\n$4\r\nMSET\r\n")) (ascii "$1\r\nk\r\n$1") =
      .waiting conn (ascii "*3\r\n$4\r\nMSET\r\n$1\r\nk\r\n$1") :=
  (receive_chunks env conn).2 (ascii "*3\r\n$4\r\nMSET\r\n") (ascii "$1\r\nk\r\n$1")
    (by decide) (by decide)

end Connection

end OmegaDrive
