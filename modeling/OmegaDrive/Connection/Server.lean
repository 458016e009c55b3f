import OmegaDrive.Persistence.Command
import OmegaDrive.Store.Plain
import OmegaDrive.Vector.Search

set_option autoImplicit false

namespace OmegaDrive

structure Env where
  model : McnnModel
  std : StdChoices
  -- the iteration order of each `HashMap` the process creates
  iter : Nat → IterOrder
  -- `persistence_tx` is `Some`
  persistence : Bool

structure Server (F : Type) where
  db : Db
  vectorDb : SharedVectorStore F
  maps : Nat
  -- everything sent to the persistence queue so far
  queue : List (PersistenceCommand F)
  broadcasts : List (Str × Bytes)

namespace Server

variable {F : Type}

def new (numCpus : Nat) : Server F :=
  { db := Db.clear
    vectorDb := SharedVectorStore.new 1536 numCpus rfl
    maps := 0
    queue := []
    broadcasts := [] }

def insert (server : Server F) (key : Bytes) (value : NeuralValue) : Server F :=
  { server with db := server.db.insert (AirKey.fromBytes key) value }

def remove (server : Server F) (key : Bytes) : Server F :=
  { server with db := server.db.remove (AirKey.fromBytes key) }

def broadcastUpdate (server : Server F) (key : Str) (payload : Bytes) : Server F :=
  { server with broadcasts := server.broadcasts ++ [(key, payload)] }

def send (env : Env) (server : Server F) (command : PersistenceCommand F) : Server F :=
  if env.persistence then { server with queue := server.queue ++ [command] } else server

/-- The entry's guard is dropped when this is done, before the insert. -/
def mergeHash (env : Env) (server : Server F) (key : Str) (fields : List (Str × Bytes)) :
    Server F × Bytes :=
  ({ server with maps := server.maps + 1 },
    hmSetBuffer (env.iter server.maps) (server.db.get (AirKey.fromBytes key.bytes)) fields)

def clearDb (server : Server F) : Server F := { server with db := Db.clear }

def clearVectors (server : Server F) : Server F :=
  { server with vectorDb := server.vectorDb.clear }

def addVector [FloatArith F] (server : Server F) (key : Str) (floats : List F) : Server F :=
  { server with
    vectorDb := server.vectorDb.add (AirKey.fromBytes key.bytes)
      (server.vectorDb.quantize floats) floats }

end Server

-- The commands whose arguments the connection loop reads.
def Command.isHeader {F : Type} : Command F → Bool
  | .mSetHeader _ => true
  | .mGetHeader _ => true
  | _ => false

/-- A command whose arguments are all there: MSET and MGET come with theirs. -/
inductive Request (F : Type) where
  | command (command : Command F) (whole : command.isHeader = false)
  | mset (batch : List (Bytes × Bytes))
  | mget (keys : List Bytes)

def Request.ofRecord {F : Type} (record : PersistenceCommand F) : Request F :=
  .command record.command (by cases record <;> rfl)

namespace Server

variable {F : Type}

-- One pair of MSET: a key that is no UTF-8 is stored but neither announced nor logged.
def msetPair (env : Env) (server : Server F) (pair : Bytes × Bytes) : Server F :=
  let server := server.insert pair.1 (env.model.encode .raw pair.2)
  match Str.fromUtf8 pair.1 with
  | some key => (server.broadcastUpdate key pair.2).send env (.set key pair.2)
  | none => server

def wrongType : Bytes :=
  ascii "-WRONGTYPE Operation against a key holding the wrong kind of value\r\n"

def getReply (env : Env) (server : Server F) (key : Bytes) : Bytes :=
  match server.db.get (AirKey.fromBytes key) with
  | none => respNull
  | some value =>
    match env.model.readCascade value with
    | some (len, fullData) => ascii "$" ++ Decimal.text len ++ crlf ++ fullData ++ crlf
    | none => wrongType

def mgetElement (env : Env) (server : Server F) (key : Bytes) : Bytes :=
  match server.db.get (AirKey.fromBytes key) with
  | none => respNull
  | some value =>
    match env.model.readRaw value with
    | some (origLen, fullData) =>
      if 0 < origLen then ascii "$" ++ Decimal.text origLen ++ crlf ++ fullData ++ crlf
      else respNull
    | none => respNull

def hGetAllReply (server : Server F) (key : Bytes) : Bytes :=
  match server.db.get (AirKey.fromBytes key) with
  | none => ascii "*0\r\n"
  | some (.flatHash buf) => FlatHash.deserializeIntoResp buf
  | some _ => wrongType

def infoText : Bytes :=
  ascii "redis_version:3.0.0\r\nomega_drive_version:3.0.0\r\nrole:master\r\n"

variable [FloatArith F]

def vsearchReply (results : List (AirKey × F)) : Bytes :=
  arrayHeader (results.length * 2) ++ results.flatMap fun (key, score) =>
    makeBulkString key.asBytes ++
      makeInt (FloatArith.toI32 (FloatArith.mul score (FloatArith.ofInt 10000)))

-- The arms of `handle_connection`: the state it leaves, and what it writes to the client. `none` is
-- a panic of the search, which ends the connection.
def handle (env : Env) (server : Server F) : Request F → Server F × Option Bytes
  | .command .ping _ => (server, some makePong)
  | .command (.set key value) _ =>
      let server := server.insert key.bytes (env.model.encode .cascade value)
      ((server.broadcastUpdate key value).send env (.set key value), some respOk)
  | .command (.get key) _ => (server, some (getReply env server key.bytes))
  | .command (.del key) _ =>
      let count := if (server.db.get (AirKey.fromBytes key.bytes)).isSome then 1 else 0
      ((server.remove key.bytes).send env (.del key), some (makeInt count))
  | .command (.exists key) _ =>
      let count := if (server.db.get (AirKey.fromBytes key.bytes)).isSome then 1 else 0
      (server, some (makeInt count))
  | .command (.mSetHeader _) whole => nomatch whole
  | .command (.mGetHeader _) whole => nomatch whole
  | .command (.select _) _ => (server, some respOk)
  | .command .save _ => (server, some (ascii "-ERR unhandled\r\n"))
  | .command .bgSave _ => (server, some (ascii "-ERR unhandled\r\n"))
  | .command .flushDb _ => (server.clearDb.clearVectors.send env .flushDb, some respOk)
  | .command .info _ => (server, some (makeBulkString infoText))
  | .command (.hmSet key fields) _ =>
      let (server, newBuf) := server.mergeHash env key fields
      ((server.insert key.bytes (.flatHash newBuf)).send env (.hmSet key fields), some respOk)
  | .command (.hGetAll key) _ => (server, some (hGetAllReply server key.bytes))
  | .command (.zAdd _) _ => (server, some (ascii ":1\r\n"))
  | .command (.vAdd key floats) _ =>
      ((server.addVector key floats).send env (.vAdd key floats), some respOk)
  | .command (.vSearch k floats) _ =>
      let queryBitVec := server.vectorDb.quantize floats
      (server, (server.vectorDb.searchReranked env.std queryBitVec floats k).map vsearchReply)
  | .command (.unknown _) _ => (server, some (ascii "*0\r\n"))
  | .mset batch => (batch.foldl (msetPair env) server, some respOk)
  | .mget keys =>
      (server, some (arrayHeader keys.length ++ keys.flatMap (mgetElement env server)))

def run (env : Env) (server : Server F) (requests : List (Request F)) : Server F :=
  requests.foldl (fun server request => (server.handle env request).1) server

-- The startup loop's dispatch, which writes the store and nothing else.
def replayCommand (env : Env) (server : Server F) : Command F → Server F
  | .set key value => server.insert key.bytes (env.model.encode .cascade value)
  | .del key => server.remove key.bytes
  | .vAdd key floats => server.addVector key floats
  | .flushDb => server.clearDb.clearVectors
  | .hmSet key fields =>
      let (server, newBuf) := server.mergeHash env key fields
      server.insert key.bytes (.flatHash newBuf)
  | _ => server

def replay (env : Env) (server : Server F) (commands : List (PersistenceCommand F)) : Server F :=
  commands.foldl (fun server command => server.replayCommand env command.command) server

end Server

namespace Request

variable {F : Type}

def writes : Request F → List PlainWrite
  | .command (.set key value) _ => [.set key.bytes value]
  | .command (.del key) _ => [.del key.bytes]
  | .command .flushDb _ => [.flush]
  | .command (.hmSet key fields) _ => [.hmSet key.bytes (FlatHash.fieldBytes fields)]
  | .mset batch => batch.map fun pair => .set pair.1 pair.2
  | _ => []

-- What the parser guarantees of the requests it reads: 32-bit lengths and counts.
def Sized : Request F → Prop
  | .command (.hmSet _ fields) _ => fields.length < 2 ^ 32 ∧ OmegaDrive.Sized fields
  | _ => True

def plainRun (plain : PlainStore) (requests : List (Request F)) : PlainStore :=
  plain.writeAll (requests.flatMap writes)

end Request

def PersistenceCommand.writes {F : Type} : PersistenceCommand F → List PlainWrite
  | .set key value => [.set key.bytes value]
  | .del key => [.del key.bytes]
  | .hmSet key fields => [.hmSet key.bytes (FlatHash.fieldBytes fields)]
  | .vAdd _ _ => []
  | .flushDb => [.flush]

end OmegaDrive
