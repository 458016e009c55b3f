import OmegaDrive.Connection.Server

set_option autoImplicit false

namespace OmegaDrive

/-- Every hash the writes make has fewer than 2^32 fields, which is what its header can count. -/
def HashesFit : PlainStore → List PlainWrite → Prop
  | _, [] => True
  | plain, write :: writes =>
    (∀ key fields, write = .hmSet key fields → (plain.mergedAt key fields).keys.card < 2 ^ 32) ∧
      HashesFit (plain.write write) writes

theorem hashesFit_append (plain : PlainStore) (first second : List PlainWrite) :
    HashesFit plain (first ++ second) ↔
      HashesFit plain first ∧ HashesFit (plain.writeAll first) second := by
  induction first generalizing plain with
  | nil => simp [HashesFit]
  | cons write first ih => simp [HashesFit, ih, and_assoc]

namespace Server

variable {F : Type}

@[simp] theorem db_send (env : Env) (server : Server F) (command : PersistenceCommand F) :
    (server.send env command).db = server.db := by
  rw [send]
  split <;> rfl

@[simp] theorem vectorDb_send (env : Env) (server : Server F) (command : PersistenceCommand F) :
    (server.send env command).vectorDb = server.vectorDb := by
  rw [send]
  split <;> rfl

theorem queue_send (env : Env) (enabled : env.persistence = true) (server : Server F)
    (command : PersistenceCommand F) :
    (server.send env command).queue = server.queue ++ [command] := by
  rw [send, if_pos enabled]

@[simp] theorem db_msetPair (env : Env) (server : Server F) (pair : Bytes × Bytes) :
    (server.msetPair env pair).db =
      server.db.insert (AirKey.fromBytes pair.1) (env.model.encode .raw pair.2) := by
  rw [msetPair]
  cases Str.fromUtf8 pair.1 with
  | none => rfl
  | some key => simp only [db_send]; rfl

@[simp] theorem vectorDb_msetPair (env : Env) (server : Server F) (pair : Bytes × Bytes) :
    (server.msetPair env pair).vectorDb = server.vectorDb := by
  rw [msetPair]
  cases Str.fromUtf8 pair.1 with
  | none => rfl
  | some key => simp only [vectorDb_send]; rfl

theorem hashFields_mergeHash (env : Env) (server : Server F) (plain : PlainStore)
    (held : Represents env.model server.db plain) (key : Str) (fields : List (Str × Bytes))
    (count : fields.length < 2 ^ 32) (sized : Sized fields)
    (fits : (plain.mergedAt key.bytes (FlatHash.fieldBytes fields)).keys.card < 2 ^ 32) :
    hashFields (server.mergeHash env key fields).2 =
      plain.mergedAt key.bytes (FlatHash.fieldBytes fields) :=
  held.hashFields_hmSetBuffer (env.iter server.maps) key.bytes fields count sized fits

variable [FloatArith F] {content : Bytes → HashFields → Prop}

theorem holds_handle (env : Env) (server : Server F) (plain : PlainStore)
    (held : Holds env.model content server.db plain) (request : Request F)
    (merged : ∀ key fields whole, request = .command (.hmSet key fields) whole →
      content (server.mergeHash env key fields).2
        (plain.mergedAt key.bytes (FlatHash.fieldBytes fields))) :
    Holds env.model content (server.handle env request).1.db
      (plain.writeAll request.writes) := by
  cases request with
  | mset batch =>
    simp only [handle, Request.writes]
    clear merged
    induction batch generalizing server plain with
    | nil => exact held
    | cons pair batch ih =>
      apply ih (server.msetPair env pair) (plain.write (.set pair.1 pair.2))
      rw [db_msetPair]
      exact held.insert_encode .raw pair.1 pair.2
  | mget keys => exact held
  | command command whole =>
    cases command with
    | set key value =>
      simp only [handle, Request.writes, PlainStore.writeAll_cons, PlainStore.writeAll_nil, db_send]
      exact held.insert_encode .cascade key.bytes value
    | del key =>
      simp only [handle, Request.writes, PlainStore.writeAll_cons, PlainStore.writeAll_nil, db_send]
      exact held.remove key.bytes
    | flushDb =>
      simp only [handle, Request.writes, PlainStore.writeAll_cons, PlainStore.writeAll_nil, db_send]
      exact Holds.initial
    | hmSet key fields =>
      simp only [handle, Request.writes, PlainStore.writeAll_cons, PlainStore.writeAll_nil, db_send]
      exact held.insert_hash key.bytes _ _ (merged key fields whole rfl)
    | vAdd key floats =>
      simp only [handle, Request.writes, PlainStore.writeAll_nil, db_send]
      exact held
    | mSetHeader numArgs => cases whole
    | mGetHeader numArgs => cases whole
    | _ => exact held

theorem holds_run (env : Env) (server : Server F) (plain : PlainStore)
    (held : Holds env.model content server.db plain) (requests : List (Request F))
    (merged : ∀ (server : Server F) plain key fields,
      Holds env.model content server.db plain →
      content (server.mergeHash env key fields).2
        (plain.mergedAt key.bytes (FlatHash.fieldBytes fields))) :
    Holds env.model content (server.run env requests).db (Request.plainRun plain requests) := by
  induction requests generalizing server plain with
  | nil => exact held
  | cons request requests ih =>
    have step := ih _ _ (holds_handle env server plain held request
      fun key fields _ _ => merged server plain key fields held)
    rw [Request.plainRun, List.flatMap_cons, PlainStore.writeAll_append]
    exact step

theorem strings_run (env : Env) (numCpus : Nat) (requests : List (Request F)) :
    Holds env.model (fun _ _ => True) ((Server.new (F := F) numCpus).run env requests).db
      (Request.plainRun PlainStore.empty requests) :=
  holds_run env _ _ Holds.initial requests fun _ _ _ _ _ => trivial

theorem represents_handle (env : Env) (server : Server F) (plain : PlainStore)
    (held : Represents env.model server.db plain) (request : Request F) (sized : request.Sized)
    (fit : HashesFit plain request.writes) :
    Represents env.model (server.handle env request).1.db (plain.writeAll request.writes) := by
  apply holds_handle env server plain held request
  rintro key fields whole rfl
  exact hashFields_mergeHash env server plain held key fields sized.1 sized.2 (fit.1 _ _ rfl)

theorem represents_run (env : Env) (server : Server F) (plain : PlainStore)
    (held : Represents env.model server.db plain) (requests : List (Request F))
    (sized : ∀ request ∈ requests, request.Sized)
    (fit : HashesFit plain (requests.flatMap Request.writes)) :
    Represents env.model (server.run env requests).db (Request.plainRun plain requests) := by
  induction requests generalizing server plain with
  | nil => exact held
  | cons request requests ih =>
    rw [List.flatMap_cons, hashesFit_append] at fit
    have step := represents_handle env server plain held request
      (sized _ List.mem_cons_self) fit.1
    have rest := ih _ _ step (fun other member => sized other (List.mem_cons_of_mem _ member)) fit.2
    rw [Request.plainRun, List.flatMap_cons, PlainStore.writeAll_append]
    exact rest

theorem replayCommand_handle (env : Env) (server : Server F) (record : PersistenceCommand F) :
    (server.replayCommand env record.command).db =
        (server.handle env (.ofRecord record)).1.db ∧
      (server.replayCommand env record.command).vectorDb =
        (server.handle env (.ofRecord record)).1.vectorDb := by
  cases record <;>
    simp [replayCommand, Request.ofRecord, PersistenceCommand.command, handle, broadcastUpdate]

theorem represents_replay (env : Env) (server : Server F) (plain : PlainStore)
    (held : Represents env.model server.db plain) (records : List (PersistenceCommand F))
    (sized : ∀ record ∈ records, (Request.ofRecord record).Sized)
    (fit : HashesFit plain (records.flatMap PersistenceCommand.writes)) :
    Represents env.model (server.replay env records).db
      (plain.writeAll (records.flatMap PersistenceCommand.writes)) := by
  induction records generalizing server plain with
  | nil => exact held
  | cons record records ih =>
    rw [List.flatMap_cons, hashesFit_append] at fit
    have same : (Request.ofRecord record).writes = record.writes := by cases record <;> rfl
    have step := represents_handle env server plain held (.ofRecord record)
      (sized _ List.mem_cons_self) (by rw [same]; exact fit.1)
    rw [same, ← (replayCommand_handle env server record).1] at step
    rw [List.flatMap_cons, PlainStore.writeAll_append]
    exact ih _ _ step (fun other member => sized other (List.mem_cons_of_mem _ member)) fit.2

end Server

end OmegaDrive
