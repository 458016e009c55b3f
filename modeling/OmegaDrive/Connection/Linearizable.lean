import OmegaDrive.Connection.Interleaving
import OmegaDrive.Connection.Refinement

set_option autoImplicit false

namespace OmegaDrive

open RespValue

/-! Connections that share a server, with what their readers see. A search reads the vectors only
and has no access here. -/

/-- The commands that touch the store once, or not at all. -/
def Request.Single {F : Type} : Request F → Bool
  | .command (.set _ _) _ | .command (.get _) _ | .command (.del _) _ => true
  | .command (.exists _) _ | .command (.hGetAll _) _ | .command .ping _ => true
  | .command (.select _) _ | .command .save _ | .command .bgSave _ | .command .info _ => true
  | .command (.zAdd _) _ | .command (.unknown _) _ => true
  | _ => false

inductive Task (F : Type) (shards : Nat) where
  -- a single command, from its access of the store
  | request (request : Request F)
  -- one key of an MGET
  | element (key : Bytes)
  -- one shard of FLUSHDB's clear
  | clear (shard : Fin shards)
  | action (action : Action F)

inductive Access (F : Type) (shards : Nat) where
  | request (request : Request F) (reply : Option Bytes)
  | element (key reply : Bytes)
  | clear (shard : Fin shards)
  | action (action : Action F)

structure History (ι F : Type) (shards : Nat) where
  server : Server F
  accesses : List (ι × Access F shards)

section Tasks

variable {ι F : Type} {shards : Nat}

def Request.tasks (request : Request F) : List (Task F shards) :=
  if request.Single then [.request request]
  else
    match request with
    | .mget keys => keys.map .element
    | .command .flushDb _ =>
        (List.finRange shards).map .clear ++ [.action .clearVectors, .action (.send .flushDb)]
    | request => request.actions.map .action

def Task.single : Task F shards → Option (Request F)
  | .request command => some command
  | _ => none

def Access.single : Access F shards → Option (Request F)
  | .request command _ => some command
  | _ => none

def Server.clearShard (shardOf : Bytes → Fin shards) (server : Server F) (shard : Fin shards) :
    Server F :=
  { server with db := server.db.clearShard shardOf shard }

variable [FloatArith F]

-- A single command is answered from its one access; its broadcast and its send come later.
def access (env : Env) (shardOf : Bytes → Fin shards) (i : ι) (history : History ι F shards) :
    Task F shards → History ι F shards × List (Task F shards)
  | .request request =>
    let reply := (history.server.handle env request).2
    let accesses := history.accesses ++ [(i, .request request reply)]
    match request.actions with
    | [] => ({ history with accesses }, [])
    | first :: rest =>
      ({ server := (history.server.perform env first).1, accesses }, rest.map .action)
  | .element key =>
    let reply := history.server.mgetElement env key
    ({ history with accesses := history.accesses ++ [(i, .element key reply)] }, [])
  | .clear shard =>
    ({ server := history.server.clearShard shardOf shard
       accesses := history.accesses ++ [(i, .clear shard)] }, [])
  | .action action =>
    let (server, more) := history.server.perform env action
    ({ server, accesses := history.accesses ++ [(i, .action action)] }, more.map .action)

def View.act (view : View F) (action : Action F) : View F where
  plain := action.store view.plain
  codec := match action with
    | .insert codec key _ => Function.update view.codec key codec
    | _ => view.codec
  vectors := match action with
    | .addVector key floats => view.vectors.run [.add (AirKey.fromBytes key.bytes) floats floats]
    | .clearVectors => view.vectors.run [.clear]
    | _ => view.vectors

def View.clearShard (shardOf : Bytes → Fin shards) (view : View F) (shard : Fin shards) : View F :=
  { view with plain := fun key => if shardOf key = shard then none else view.plain key }

def Task.Sound : Task F shards → Prop
  | .request command => command.Single = true
  | .element _ | .clear _ => True
  | .action (.merge _ fields) => Sized fields
  | .action (.insertBuffer _ _ _ newBuf) => Whole newBuf
  | .action _ => True

theorem completes_actions [DecidableEq ι] (env : Env) (shardOf : Bytes → Fin shards) (i : ι)
    (history : History ι F shards) {shared final : Observed ι F} {actions : List (Action F)}
    (complete : Threads.Completes (observe env) i shared actions final)
    (same : shared.server = history.server) :
    ∃ after, Threads.Completes (access env shardOf) i history (actions.map .action) after ∧
      after.server = final.server := by
  induction complete generalizing history with
  | done shared => exact ⟨history, .done _, same.symm⟩
  | turn shared final action rest later ih =>
    have next : (observe env i shared action).1.server =
        (access env shardOf i history (.action action)).1.server := by
      simp only [observe, access, same]
    obtain ⟨after, complete, server⟩ := ih _ next
    refine ⟨after, .turn _ _ _ _ ?_, server⟩
    rw [List.map_append] at complete
    simpa only [access, observe, same] using complete

theorem perform_single (env : Env) (server : Server F) (request : Request F)
    (single : request.Single = true) (first : Action F) (rest : List (Action F))
    (actions : request.actions = first :: rest) : (server.perform env first).2 = [] := by
  cases request with
  | mset batch => cases single
  | mget keys => cases single
  | command command whole =>
    cases command with
    | mSetHeader numArgs => cases whole
    | mGetHeader numArgs => cases whole
    | flushDb | hmSet | vAdd | vSearch => cases single
    | set key value =>
      obtain ⟨rfl, rfl⟩ := List.cons.inj actions
      rfl
    | del key =>
      obtain ⟨rfl, rfl⟩ := List.cons.inj actions
      rfl
    | _ => cases actions

theorem completes_elements (env : Env) (shardOf : Bytes → Fin shards) (i : ι)
    (history : History ι F shards) (keys : List Bytes) :
    ∃ after, Threads.Completes (access env shardOf) i history (keys.map .element) after ∧
      after.server = history.server := by
  induction keys generalizing history with
  | nil => exact ⟨history, .done _, rfl⟩
  | cons key keys ih =>
    obtain ⟨after, complete, server⟩ := ih (access env shardOf i history (.element key)).1
    exact ⟨after, .turn _ _ _ _ complete, server⟩

theorem completes_clears (env : Env) (shardOf : Bytes → Fin shards) (i : ι)
    (history : History ι F shards) (cleared : List (Fin shards)) :
    ∃ after, Threads.Completes (access env shardOf) i history (cleared.map .clear) after ∧
      after.server = { history.server with
        db := cleared.foldl (Db.clearShard shardOf) history.server.db } := by
  induction cleared generalizing history with
  | nil => exact ⟨history, .done _, rfl⟩
  | cons shard cleared ih =>
    obtain ⟨after, complete, server⟩ := ih (access env shardOf i history (.clear shard)).1
    exact ⟨after, .turn _ _ _ _ complete, server⟩

theorem completes_tasks [DecidableEq ι] (env : Env) (shardOf : Bytes → Fin shards) (i : ι)
    (history : History ι F shards) (request : Request F) :
    ∃ after, Threads.Completes (access env shardOf) i history request.tasks after ∧
      after.server = (history.server.handle env request).1 := by
  obtain ⟨final, complete, same⟩ := completes_handle env i (Observed.new history.server) request
  unfold Request.tasks
  split
  next single =>
    cases actions : request.actions with
    | nil =>
      rw [actions] at complete
      cases complete
      refine ⟨(access env shardOf i history (.request request)).1, .turn _ _ _ _ ?_, ?_⟩
      · simp only [access, actions]
        exact .done _
      · simp only [access, actions]
        exact same
    | cons first rest =>
      rw [actions] at complete
      cases complete with
      | turn _ _ _ _ later =>
        have none : (observe env i (Observed.new history.server) first).2 = [] :=
          perform_single env _ request single first rest actions
        rw [none, List.nil_append] at later
        obtain ⟨after, taken, server⟩ := completes_actions env shardOf i
          (access env shardOf i history (.request request)).1 later
          (by simp only [access, actions]; rfl)
        refine ⟨after, .turn _ _ _ _ ?_, server.trans same⟩
        simpa only [access, actions, List.append_nil] using taken
  next several =>
    have actions := completes_actions env shardOf i history complete rfl
    rw [same] at actions
    cases request with
    | mget keys => exact completes_elements env shardOf i history keys
    | mset batch => exact actions
    | command command whole =>
      cases command with
      | flushDb =>
        obtain ⟨middle, cleared, emptied⟩ :=
          completes_clears env shardOf i history (List.finRange shards)
        refine ⟨_, cleared.append (.turn _ _ _ _ (.turn _ _ _ _ (.done _))), ?_⟩
        rw [Db.clearShard_all] at emptied
        simp only [access, Server.perform, emptied]
        rfl
      | _ => exact actions

def View.after (shardOf : Bytes → Fin shards) : View F → List (ι × Access F shards) → View F :=
  List.foldl fun view entry =>
    match entry.2 with
    | .request request _ => view.apply request
    | .element _ _ => view
    | .clear shard => view.clearShard shardOf shard
    | .action action => view.act action

def answered [DecidableEq ι] (i : ι) (accesses : List (ι × Access F shards)) : List (Request F) :=
  (accesses.filter fun entry => entry.1 = i).filterMap fun entry => entry.2.single

variable [DecidableEq ι]

end Tasks

end OmegaDrive
