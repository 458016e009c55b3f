import OmegaDrive.Shared.Threads
import OmegaDrive.Connection.Logged

set_option autoImplicit false

namespace OmegaDrive

/-! Connections that share a server: each map or vector update and each send is one action. -/

inductive Action (F : Type) where
  | insert (codec : Codec) (key value : Bytes)
  | broadcast (key : Str) (payload : Bytes)
  | remove (key : Str)
  | clearDb
  | clearVectors
  -- HMSET reads and merges under the entry's guard; its insert comes later, with the new buffer.
  | merge (key : Str) (fields : List (Str × Bytes))
  | insertBuffer (key : Str) (fields : List (Str × Bytes)) (found : Option NeuralValue)
      (newBuf : Bytes)
  | addVector (key : Str) (floats : List F)
  | send (record : PersistenceCommand F)

section Actions

variable {F : Type}

def pairActions (pair : Bytes × Bytes) : List (Action F) :=
  .insert .raw pair.1 pair.2 ::
    match Str.fromUtf8 pair.1 with
    | some key => [.broadcast key pair.2, .send (.set key pair.2)]
    | none => []

def Request.actions : Request F → List (Action F)
  | .command (.set key value) _ =>
      [.insert .cascade key.bytes value, .broadcast key value, .send (.set key value)]
  | .command (.del key) _ => [.remove key, .send (.del key)]
  | .command .flushDb _ => [.clearDb, .clearVectors, .send .flushDb]
  | .command (.hmSet key fields) _ => [.merge key fields, .send (.hmSet key fields)]
  | .command (.vAdd key floats) _ => [.addVector key floats, .send (.vAdd key floats)]
  | .mset batch => batch.flatMap pairActions
  | _ => []

namespace Action

def write : Action F → Option PlainWrite
  | .insert _ key value => some (.set key value)
  | .remove key => some (.del key.bytes)
  | .clearDb => some .flush
  | .insertBuffer key fields _ _ => some (.hmSet key.bytes (FlatHash.fieldBytes fields))
  | _ => none

def store (plain : PlainStore) : Action F → PlainStore
  | .insertBuffer key _ _ newBuf => plain.put key.bytes (some (.hash (hashFields newBuf)))
  | action => plain.writeAll action.write.toList

end Action

end Actions

/-- The server, and what the program does not record: the plaintext of its store, and the writes in
it that no sent record tells yet, oldest first. -/
structure Observed (ι F : Type) where
  server : Server F
  stored : PlainStore
  unsent : List (ι × PlainWrite)

namespace Observed

variable {ι F : Type}

def new (server : Server F) : Observed ι F :=
  { server, stored := PlainStore.empty, unsent := [] }

def logged (shared : Observed ι F) : PlainStore :=
  PlainStore.empty.writeAll (shared.server.queue.flatMap PersistenceCommand.writes)

end Observed

namespace Server

variable {F : Type} [FloatArith F]

def perform (env : Env) (server : Server F) : Action F → Server F × List (Action F)
  | .insert codec key value => (server.insert key (env.model.encode codec value), [])
  | .broadcast key payload => (server.broadcastUpdate key payload, [])
  | .remove key => (server.remove key.bytes, [])
  | .clearDb => (server.clearDb, [])
  | .clearVectors => (server.clearVectors, [])
  | .merge key fields =>
      let found := server.db.get (AirKey.fromBytes key.bytes)
      let (server, newBuf) := server.mergeHash env key fields
      (server, [.insertBuffer key fields found newBuf])
  | .insertBuffer key _ _ newBuf => (server.insert key.bytes (.flatHash newBuf), [])
  | .addVector key floats => (server.addVector key floats, [])
  | .send record => (server.send env record, [])

end Server

section Connections

variable {ι F : Type} [DecidableEq ι]

def unsentAfter (i : ι) (unsent : List (ι × PlainWrite)) : Action F → List (ι × PlainWrite)
  | .send _ => unsent.filter fun entry => entry.1 ≠ i
  | action => unsent ++ action.write.toList.map fun write => (i, write)

variable [FloatArith F]

def observe (env : Env) (i : ι) (shared : Observed ι F) (action : Action F) :
    Observed ι F × List (Action F) :=
  let (server, more) := shared.server.perform env action
  ({ server
     stored := action.store shared.stored
     unsent := unsentAfter i shared.unsent action }, more)

def connections (server : Server F) (requests : ι → List (Request F)) :
    Threads ι (Observed ι F) (Action F) :=
  { shared := .new server, todo := fun i => (requests i).flatMap Request.actions }

theorem completes_pair (env : Env) (i : ι) (shared : Observed ι F) (pair : Bytes × Bytes) :
    ∃ final, Threads.Completes (observe env) i shared (pairActions pair) final ∧
      final.server = shared.server.msetPair env pair := by
  cases read : Str.fromUtf8 pair.1 with
  | none =>
    simp only [pairActions, Server.msetPair, read]
    exact ⟨_, .turn _ _ _ _ (.done _), rfl⟩
  | some key =>
    simp only [pairActions, Server.msetPair, read]
    exact ⟨_, .turn _ _ _ _ (.turn _ _ _ _ (.turn _ _ _ _ (.done _))), rfl⟩

-- A request that no other connection interrupts does what `handle` does.
theorem completes_handle (env : Env) (i : ι) (shared : Observed ι F) (request : Request F) :
    ∃ final, Threads.Completes (observe env) i shared request.actions final ∧
      final.server = (shared.server.handle env request).1 := by
  cases request with
  | mget keys => exact ⟨_, .done _, rfl⟩
  | mset batch =>
    simp only [Request.actions, Server.handle]
    induction batch generalizing shared with
    | nil => exact ⟨_, .done _, rfl⟩
    | cons pair batch ih =>
      obtain ⟨middle, one, same⟩ := completes_pair env i shared pair
      obtain ⟨final, rest, last⟩ := ih middle
      exact ⟨final, one.append rest, by rw [last, same]; rfl⟩
  | command command whole =>
    cases command with
    | set | flushDb =>
      exact ⟨_, .turn _ _ _ _ (.turn _ _ _ _ (.turn _ _ _ _ (.done _))), rfl⟩
    | del | vAdd => exact ⟨_, .turn _ _ _ _ (.turn _ _ _ _ (.done _)), rfl⟩
    | hmSet => exact ⟨_, .turn _ _ _ _ (.turn _ _ _ _ (.turn _ _ _ _ (.done _))), rfl⟩
    | mSetHeader numArgs => cases whole
    | mGetHeader numArgs => cases whole
    | _ => exact ⟨_, .done _, rfl⟩

theorem run_alone (env : Env) (threads : Threads ι (Observed ι F) (Action F)) (i : ι)
    (request : Request F) (rest : List (Action F))
    (turn : threads.todo i = request.actions ++ rest) :
    ∃ turns, let after := threads.run (observe env) (List.replicate turns i)
      after.shared.server = (threads.shared.server.handle env request).1 ∧
        after.todo = Function.update threads.todo i rest := by
  obtain ⟨final, complete, same⟩ := completes_handle env i threads.shared request
  obtain ⟨turns, ran⟩ := complete.run threads rfl rest turn
  refine ⟨turns, ?_⟩
  rw [ran]
  exact ⟨same, rfl⟩

end Connections

end OmegaDrive
