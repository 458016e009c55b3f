import OmegaDrive.Connection.Effects

set_option autoImplicit false

namespace OmegaDrive

def Request.get {F : Type} (key : Str) : Request F := .command (.get key) rfl

def Request.set {F : Type} (key : Str) (value : Bytes) : Request F :=
  .command (.set key value) rfl

theorem Command.isHeader_flushDb {F : Type} : (Command.flushDb : Command F).isHeader = false := rfl

def Request.flushDb {F : Type} : Request F := .command .flushDb Command.isHeader_flushDb

theorem Command.isHeader_hmSet {F : Type} (key : Str) (fields : List (Str × Bytes)) :
    (Command.hmSet key fields : Command F).isHeader = false := rfl

def Request.hmSet {F : Type} (key : Str) (fields : List (Str × Bytes)) : Request F :=
  .command (.hmSet key fields) (Command.isHeader_hmSet key fields)

namespace Server

variable {F : Type} [FloatArith F]

omit [FloatArith F] in
theorem bulk_eq_iff (data value : Bytes) :
    ascii "$" ++ Decimal.text value.length ++ crlf ++ data ++ crlf = makeBulkString value ↔
      data = value := by
  simp [makeBulkString]

omit [FloatArith F] in
theorem replies_encode (env : Env) (server : Server F) (key value : Bytes) (codec : Codec)
    (nonempty : value ≠ []) (stored : server.db key = some (env.model.encode codec value)) :
    (server.getReply env key = makeBulkString value ↔
        env.model.applyKeystream (env.model.expertOf value) (env.model.layer codec value) = value) ∧
      (server.mgetElement env key = makeBulkString value ↔
        env.model.layer codec value = value) := by
  have positive : 0 < value.length := List.length_pos_iff.mpr nonempty
  constructor
  · rw [getReply, Db.get_fromBytes, stored]
    simp only [env.model.readCascade_encode]
    exact bulk_eq_iff _ _
  · rw [mgetElement, Db.get_fromBytes, stored]
    simp only [env.model.readRaw_encode, if_pos positive]
    exact bulk_eq_iff _ _

theorem readBack_iff (env : Env) (numCpus : Nat) (requests : List (Request F))
    (key value : Bytes) (nonempty : value ≠ [])
    (last : Request.plainRun PlainStore.empty requests key = some (.str value)) :
    let server := (Server.new numCpus).run env requests
    ((∃ text : Str, text.bytes = key ∧
          (server.handle env (.get text)).2 = some (makeBulkString value)) ∧
        ∀ before after : List Bytes,
          (server.handle env (.mget (before ++ key :: after))).2 =
            some (arrayHeader (before.length + (after.length + 1)) ++
              (before.flatMap (server.mgetElement env) ++
                (makeBulkString value ++ after.flatMap (server.mgetElement env))))) ↔
      validUtf8 key = true ∧
        ∀ i < value.length, env.model.expertStream (env.model.expertOf value) i = 0 := by
  intro server
  obtain ⟨codec, stored⟩ := (strings_run env numCpus requests).string key value last
  obtain ⟨get, mget⟩ := replies_encode env server key value codec nonempty stored
  have getHandle (text : Str) : (server.handle env (.get text)).2 =
      some (server.getReply env text.bytes) := rfl
  have mgetHandle (before after : List Bytes) :
      (server.handle env (.mget (before ++ key :: after))).2 =
        some (arrayHeader (before.length + (after.length + 1)) ++
          (before.flatMap (server.mgetElement env) ++
            (server.mgetElement env key ++ after.flatMap (server.mgetElement env)))) := by
    simp [handle]
  rw [← env.model.applyKeystream_eq_self]
  constructor
  · rintro ⟨⟨text, rfl, replied⟩, elements⟩
    refine ⟨text.valid, ?_⟩
    have plainGet := get.mp (Option.some.inj ((getHandle text).symm.trans replied))
    have plainMget := mget.mp (by
      have single := (mgetHandle [] []).symm.trans (elements [] [])
      simpa using single)
    rwa [plainMget] at plainGet
  · rintro ⟨valid, silent⟩
    have layer : env.model.layer codec value = value := by
      cases codec with
      | cascade => exact silent
      | raw => rfl
    refine ⟨⟨⟨key, valid⟩, rfl, ?_⟩, fun before after => ?_⟩
    · rw [getHandle, get.mpr (by rw [layer, silent])]
    · rw [mgetHandle, mget.mpr layer]

/-- A server whose only expert has a constant keystream. -/
def constantEnv (byte : Byte) : Env where
  model := { bitKeys := fun _ => zeroChunk, router := fun _ => 0, keystream := fun _ _ _ => byte }
  std := StdChoices.lists
  iter := fun _ => ⟨id, fun _ => List.Perm.refl _⟩
  persistence := true

def afterSet (env : Env) : Server Int :=
  (Server.new 4).run env [.set ⟨ascii "k", validUtf8_k⟩ (ascii "v")]

theorem readBack_iff_silent :
    ∃ text : Str, text.bytes = ascii "k" ∧
      ((afterSet (constantEnv 0)).handle (constantEnv 0) (.get text)).2 =
        some (makeBulkString (ascii "v")) :=
  ((readBack_iff (F := Int) (constantEnv 0) 4 [.set ⟨ascii "k", validUtf8_k⟩ (ascii "v")]
    (ascii "k") (ascii "v") (by decide) rfl).mpr ⟨by decide, fun _ _ => rfl⟩).1

-- MGET answers with the cipher text of what SET stored.
theorem mget_after_set :
    ((afterSet (constantEnv 1)).handle (constantEnv 1) (.mget [ascii "k"])).2 =
        some (arrayHeader 1 ++ makeBulkString (ascii "w")) ∧
      ((afterSet (constantEnv 1)).handle (constantEnv 1) (.mget [ascii "k"])).2 ≠
        some (arrayHeader 1 ++ makeBulkString (ascii "v")) := by
  decide +kernel

end Server

end OmegaDrive
