import OmegaDrive.Connection.Effects
import OmegaDrive.Connection.Loop
import OmegaDrive.Store.Packed

set_option autoImplicit false

namespace OmegaDrive

open RespValue

def pongLine : Line := ⟨ascii "PONG", wholeLine _ (by decide)⟩

def okLine : Line := ⟨ascii "OK", wholeLine _ (by decide)⟩

def unhandledLine : Line := ⟨ascii "ERR unhandled", wholeLine _ (by decide)⟩

def wrongTypeLine : Line :=
  ⟨ascii "WRONGTYPE Operation against a key holding the wrong kind of value",
    wholeLine _ (by decide)⟩

theorem text_pong : makePong = text (.simple pongLine) := by decide

theorem text_ok : respOk = text (.simple okLine) := by decide

theorem text_null : respNull = text .null := by decide

theorem text_unhandled : ascii "-ERR unhandled\r\n" = text (.error unhandledLine) := by decide

theorem text_wrongType : Server.wrongType = text (.error wrongTypeLine) := by decide

theorem text_one : ascii ":1\r\n" = text (.integer 1) := by decide

theorem text_bulk_parts (data : Bytes) (len : Nat) (length : data.length = len) :
    ascii "$" ++ Decimal.text len ++ crlf ++ data ++ crlf = text (.bulk data) := by
  rw [text_bulk, makeBulkString, length]

namespace Server

variable {F : Type}

abbrev WholeDb (env : Env) : Db → PlainStore → Prop := Holds env.model fun buf _ => Whole buf

theorem getReply_value (env : Env) (server : Server F) (plain : PlainStore)
    (held : WholeDb env server.db plain) (key : Bytes) :
    ∃ value : RespValue, server.getReply env key = value.text := by
  rw [getReply, Db.get_fromBytes]
  cases value : plain key with
  | none =>
    rw [held.absent key value]
    exact ⟨_, text_null⟩
  | some stored =>
    cases stored with
    | str s =>
      obtain ⟨codec, entry⟩ := held.string key s value
      rw [entry]
      simp only [env.model.readCascade_encode]
      exact ⟨_, text_bulk_parts _ _ (by simp)⟩
    | hash fields =>
      obtain ⟨buf, entry, _⟩ := held.hash key fields value
      rw [entry]
      exact ⟨_, text_wrongType⟩

theorem mgetElement_value (env : Env) (server : Server F) (plain : PlainStore)
    {content : Bytes → HashFields → Prop} (held : Holds env.model content server.db plain)
    (key : Bytes) :
    ∃ value : RespValue, server.mgetElement env key = value.text ∧
      (value = .null ↔ ∀ s, plain key = some (.str s) → s = []) := by
  rw [mgetElement, Db.get_fromBytes]
  cases value : plain key with
  | none =>
    rw [held.absent key value]
    exact ⟨.null, text_null, by simp⟩
  | some stored =>
    cases stored with
    | str s =>
      obtain ⟨codec, entry⟩ := held.string key s value
      rw [entry]
      simp only [env.model.readRaw_encode]
      split
      next positive =>
        have nonempty : s ≠ [] := List.length_pos_iff.mp positive
        exact ⟨_, text_bulk_parts _ _ (by simp), by simp [nonempty]⟩
      next empty =>
        have nothing : s = [] := List.eq_nil_of_length_eq_zero (by omega)
        exact ⟨.null, text_null, by simp [nothing]⟩
    | hash fields =>
      obtain ⟨buf, entry, _⟩ := held.hash key fields value
      rw [entry]
      exact ⟨.null, text_null, by simp⟩

theorem hGetAllReply_value (env : Env) (server : Server F) (plain : PlainStore)
    (held : WholeDb env server.db plain) (key : Bytes) :
    ∃ value : RespValue, server.hGetAllReply key = value.text := by
  rw [hGetAllReply, Db.get_fromBytes]
  cases value : plain key with
  | none =>
    rw [held.absent key value]
    exact ⟨_, text_noItems⟩
  | some stored =>
    cases stored with
    | str s =>
      obtain ⟨codec, entry⟩ := held.string key s value
      rw [entry]
      rcases env.model.encode_cases codec s with ⟨bestIdx, data, layout⟩ | ⟨bestIdx, chunks, layout⟩
      · rw [layout]
        exact ⟨_, text_wrongType⟩
      · rw [layout]
        exact ⟨_, text_wrongType⟩
    | hash fields =>
      obtain ⟨buf, entry, whole⟩ := held.hash key fields value
      rw [entry]
      exact ⟨_, FlatHash.deserialize_text buf whole⟩

variable [FloatArith F]

theorem vsearchReply_value (results : List (AirKey × F)) :
    ∃ value : RespValue, vsearchReply results = value.text := by
  refine ⟨.array (results.flatMap fun result => [.bulk result.1.asBytes,
    .integer (FloatArith.toI32 (FloatArith.mul result.2 (FloatArith.ofInt 10000)))]), ?_⟩
  rw [← text_pairs]
  simp only [text_bulk, text_integer]
  rfl

omit [FloatArith F] in
theorem mgetReply_value (env : Env) (server : Server F) (plain : PlainStore)
    {content : Bytes → HashFields → Prop} (held : Holds env.model content server.db plain) :
    ∃ element : Bytes → RespValue,
      (∀ key, element key = .null ↔ ∀ s, plain key = some (.str s) → s = []) ∧
        ∀ keys : List Bytes, arrayHeader keys.length ++ keys.flatMap (mgetElement env server) =
          (RespValue.array (keys.map element)).text := by
  choose element same null using mgetElement_value env server plain held
  refine ⟨element, null, fun keys => ?_⟩
  rw [text_array, texts_map, List.length_map]
  simp only [← same]

theorem handle_value (env : Env) (server : Server F) (plain : PlainStore)
    (held : WholeDb env server.db plain) (request : Request F) (reply : Bytes)
    (answered : (server.handle env request).2 = some reply) :
    ∃ value : RespValue, reply = value.text := by
  cases request with
  | mset batch =>
    obtain rfl := Option.some.inj answered
    exact ⟨_, text_ok⟩
  | mget keys =>
    obtain rfl := Option.some.inj answered
    obtain ⟨element, _, written⟩ := mgetReply_value env server plain held
    exact ⟨_, written keys⟩
  | command command whole =>
    cases command with
    | mSetHeader numArgs => cases whole
    | mGetHeader numArgs => cases whole
    | ping =>
      obtain rfl := Option.some.inj answered
      exact ⟨_, text_pong⟩
    | get key =>
      obtain rfl := Option.some.inj answered
      exact getReply_value env server plain held key.bytes
    | hGetAll key =>
      obtain rfl := Option.some.inj answered
      exact hGetAllReply_value env server plain held key.bytes
    | del key | «exists» key =>
      obtain rfl := Option.some.inj answered
      exact ⟨_, (text_integer _).symm⟩
    | save | bgSave =>
      obtain rfl := Option.some.inj answered
      exact ⟨_, text_unhandled⟩
    | info =>
      obtain rfl := Option.some.inj answered
      exact ⟨_, (text_bulk _).symm⟩
    | zAdd key =>
      obtain rfl := Option.some.inj answered
      exact ⟨_, text_one⟩
    | unknown name =>
      obtain rfl := Option.some.inj answered
      exact ⟨_, text_noItems⟩
    | vSearch k floats =>
      obtain ⟨results, _, rfl⟩ := Option.map_eq_some_iff.mp answered
      exact vsearchReply_value results
    | set key value | select index | flushDb | hmSet key fields | vAdd key floats =>
      obtain rfl := Option.some.inj answered
      exact ⟨_, text_ok⟩

theorem whole_run (env : Env) (server : Server F) (plain : PlainStore)
    (held : WholeDb env server.db plain) (requests : List (Request F))
    (sized : ∀ request ∈ requests, request.Sized) :
    WholeDb env (server.run env requests).db (Request.plainRun plain requests) := by
  induction requests generalizing server plain with
  | nil => exact held
  | cons request requests ih =>
    have small := sized request List.mem_cons_self
    have step : WholeDb env (server.handle env request).1.db (plain.writeAll request.writes) := by
      apply holds_handle env server plain held request
      rintro key fields whole rfl
      exact whole_hmSetBuffer _ _ fields small.2
    have rest := ih _ _ step fun other member => sized other (List.mem_cons_of_mem _ member)
    rw [Request.plainRun, List.flatMap_cons, PlainStore.writeAll_append]
    exact rest

/-- What each request of a run is answered with; none is a panic. -/
def replies (env : Env) : Server F → List (Request F) → List (Option Bytes)
  | _, [] => []
  | server, request :: requests =>
    (server.handle env request).2 :: replies env (server.handle env request).1 requests

theorem replies_snoc (env : Env) (server : Server F) (requests : List (Request F))
    (request : Request F) :
    replies env server (requests ++ [request]) =
      replies env server requests ++ [((server.run env requests).handle env request).2] := by
  induction requests generalizing server with
  | nil => rfl
  | cons first requests ih =>
    rw [List.cons_append, replies, ih]
    rfl

end Server

namespace Connection

variable {F : Type} [FloatText F] [FloatArith F]

def requests (conn : Connection F) : List (Request F) := conn.dispatched.map Prod.snd

structure Answering (env : Env) (first : Server F) (conn : Connection F) : Prop where
  server : conn.server = first.run env conn.requests
  sized : ∀ request ∈ conn.requests, request.Sized
  appended : ∃ values, conn.appended = texts values ∧
    first.replies env conn.requests = values.map fun value => some value.text

def Panicked (env : Env) (first : Server F) (conn : Connection F) : Prop :=
  ∃ values, conn.appended = texts values ∧
    first.replies env conn.requests = (values.map fun value => some value.text) ++ [none]

omit [FloatArith F] in
theorem yields_next : Cursor.Yields (next (F := F)) fun item =>
    ∀ request ∈ item, request.Sized := by
  intro buf item used run
  cases buf with
  | nil => cases run
  | cons byte rest =>
    rw [next] at run
    split at run
    · obtain ⟨⟨request, length⟩, read, same⟩ := Option.map_eq_some_iff.mp run
      obtain ⟨rfl, _⟩ := Prod.mk.inj same
      rintro other ⟨⟩
      exact yields_readRequest _ _ _ read
    · obtain ⟨⟨u, length⟩, _, same⟩ := Option.map_eq_some_iff.mp run
      obtain ⟨rfl, _⟩ := Prod.mk.inj same
      rintro other ⟨⟩

omit [FloatText F] in
theorem answering_step (env : Env) (first : Server F) (empty : first.db = Db.clear)
    (conn : Connection F) (item : Option (Request F)) (used : Nat)
    (answering : Answering env first conn) (small : ∀ request ∈ item, request.Sized) :
    (∀ after, step env conn item used = .inl after → Answering env first after) ∧
      ∀ after, step env conn item used = .inr after → Panicked env first after := by
  obtain ⟨server, sized, values, written, replied⟩ := answering
  cases item with
  | none =>
    refine ⟨fun after stepped => ?_, fun after stepped => nomatch stepped⟩
    obtain rfl := Sum.inl.inj stepped
    exact ⟨server, sized, values, written, replied⟩
  | some request =>
    have held : Server.WholeDb env conn.server.db (Request.plainRun PlainStore.empty conn.requests) := by
      rw [server]
      refine Server.whole_run env first _ ?_ conn.requests sized
      rw [empty]
      exact Holds.initial
    have sizedNext : ∀ other ∈ conn.requests ++ [request], other.Sized := by
      intro other member
      rcases List.mem_append.mp member with old | new
      · exact sized other old
      · rw [List.mem_singleton.mp new]
        exact small request rfl
    have repliedNext := first.replies_snoc env conn.requests request
    rw [replied, ← server] at repliedNext
    cases handled : conn.server.handle env request with
    | mk next reply =>
      have ran : first.run env (conn.requests ++ [request]) = next := by
        rw [Server.run, List.foldl_concat, ← Server.run, ← server, handled]
      rw [handled] at repliedNext
      cases reply with
      | none =>
        refine ⟨fun after stepped => ?_, fun after stepped => ?_⟩
        · simp [step, handled] at stepped
        · simp only [step, handled, Sum.inr.injEq] at stepped
          subst stepped
          refine ⟨values, written, ?_⟩
          simpa [requests] using repliedNext
      | some reply =>
        refine ⟨fun after stepped => ?_, fun after stepped => ?_⟩
        · simp only [step, handled, Sum.inl.injEq] at stepped
          subst stepped
          obtain ⟨value, rfl⟩ :=
            Server.handle_value env conn.server _ held request reply (by rw [handled])
          refine ⟨?_, by simpa [requests] using sizedNext, values ++ [value], ?_, ?_⟩
          · simpa [requests] using ran.symm
          · simp [texts_append, written]
          · simpa [requests] using repliedNext
        · simp [step, handled] at stepped

theorem written_values (env : Env) (numCpus : Nat) (chunks : List Bytes) :
    let conn : Connection F :=
      (chunks.foldl (receive env) (.waiting (new (Server.new numCpus)) [])).state
    ∃ values : List RespValue, conn.appended = texts values ∧
      (∀ others, conn.appended = texts others → others = values) ∧
      ((Server.new numCpus).replies env conn.requests = values.map (fun value => some value.text) ∨
        (Server.new numCpus).replies env conn.requests =
          values.map (fun value => some value.text) ++ [none]) := by
  intro conn
  have start : (Incremental.Progress.waiting (new (Server.new (F := F) numCpus)) [] :
      Incremental.Progress (Connection F) Byte).Holds
        (Answering env (Server.new numCpus)) (Panicked env (Server.new numCpus)) :=
    ⟨rfl, by simp [requests, new], [], rfl, rfl⟩
  have kept := Incremental.receive_invariant yields_next
    (answering_step env (Server.new numCpus) rfl) _ chunks start
  rcases kept.state with ⟨_, _, values, written, replied⟩ | ⟨values, written, replied⟩
  · exact ⟨values, written, fun others same => stream_unique _ _ (same.symm.trans written),
      .inl replied⟩
  · exact ⟨values, written, fun others same => stream_unique _ _ (same.symm.trans written),
      .inr replied⟩

end Connection

end OmegaDrive
