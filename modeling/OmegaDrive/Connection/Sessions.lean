import OmegaDrive.Connection.Interleaving
import OmegaDrive.Connection.Loop
import OmegaDrive.Connection.ReadBack
import OmegaDrive.Persistence.Batching

set_option autoImplicit false

namespace OmegaDrive

open Cursor
open PersistenceCommand (log)

/-! The process from one start to the next: what it boots with is what an earlier one left in the
file. First what the parser guarantees of the records the connections send. -/

section Parsed

variable {F : Type} [FloatText F]

theorem yields_fromUtf8 {α : Type} (raw : Bytes) (short : raw.length < 2 ^ 32)
    (next : Str → Cursor Byte α) (property : α → Prop)
    (rest : ∀ s : Str, s.bytes.length < 2 ^ 32 → Yields (next s) property) :
    Yields (lift (Str.fromUtf8 raw) >>= next) property := by
  intro buf value used run
  obtain ⟨s, _, _, valid, run, _⟩ := bind_eq_some _ _ _ _ _ run
  obtain ⟨_, read, same⟩ := Option.map_eq_some_iff.mp valid
  obtain ⟨rfl, _⟩ := Prod.mk.inj same
  rw [(Str.fromUtf8_eq_some raw _).mp read] at short
  exact rest _ short _ _ _ run

theorem yields_parseStr : Yields parseStr fun s => s.bytes.length < 2 ^ 32 := by
  refine yields_parseBulkStr.bind fun raw short => ?_
  rw [← bind_pure (lift (Str.fromUtf8 raw))]
  exact yields_fromUtf8 raw short _ _ fun s fits => yields_pure s _ fits

/-- Everything that `Enqueueable` asks for, except that a float's text is not read back here. -/
def Command.Bounded : Command F → Prop
  | .set key value => key.bytes.length < 2 ^ 32 ∧ value.length < 2 ^ 32
  | .del key => key.bytes.length < 2 ^ 32
  | .hmSet key fields =>
      key.bytes.length < 2 ^ 32 ∧ 0 < fields.length ∧ 2 + fields.length * 2 < 2 ^ 32 ∧
        ∀ field ∈ fields, field.1.bytes.length < 2 ^ 32 ∧ field.2.length < 2 ^ 32
  | .vAdd key floats =>
      key.bytes.length < 2 ^ 32 ∧ 0 < floats.length ∧ 2 + floats.length < 2 ^ 32
  | _ => True

omit [FloatText F] in
theorem yields_atLeast_of_le (least numArgs : Nat) (branch : Cursor Byte (Command F))
    (property : Command F → Prop) (yields : least ≤ numArgs → Yields branch property) :
    Yields (atLeast least numArgs branch) property := by
  intro buf command used run
  obtain ⟨_, _, _, enough, run, _⟩ := bind_eq_some _ _ _ _ _ run
  by_cases least ≤ numArgs
  next le => exact yields le _ _ _ run
  next gt => simp [require, gt] at enough

theorem bounded_parseArguments (numArgs : Nat) (bound : numArgs < 2 ^ 32) (word : Keyword) :
    Yields (parseArguments (F := F) numArgs word) Command.Bounded := by
  cases word with
  | set =>
    exact yields_atLeast _ _ _ _ (yields_parseBulkStr.bind fun key short =>
      yields_parseBulkStr.bind fun value fits => yields_fromUtf8 key short _ _
        fun _ keyFits => yields_pure _ _ ⟨keyFits, fits⟩)
  | del =>
    exact yields_atLeast _ _ _ _ (yields_parseStr.bind fun _ short => yields_pure _ _ short)
  | hmset =>
    refine yields_atLeast_of_le _ _ _ _ fun enough => yields_parseBulkStr.bind fun key short =>
      (yields_parseField.times _).bind fun fields ⟨count, sized⟩ => yields_fromUtf8 key short _ _
        fun _ keyFits => yields_pure _ _ ⟨keyFits, ?_, ?_, sized⟩
    all_goals omega
  | vadd =>
    refine yields_atLeast_of_le _ _ _ _ fun enough => yields_parseBulkStr.bind fun key short =>
      ((yields_trivial _).times _).bind fun floats ⟨count, _⟩ => yields_fromUtf8 key short _ _
        fun _ keyFits => yields_pure _ _ ⟨keyFits, ?_, ?_⟩
    all_goals omega
  | select =>
    exact yields_atLeast _ _ _ _ ((yields_trivial _).bind fun _ _ => (yields_trivial _).bind
      fun _ _ => yields_pure _ _ trivial)
  | vsearch =>
    exact yields_atLeast _ _ _ _ ((yields_trivial _).bind fun _ _ => (yields_trivial _).bind
      fun _ _ => (yields_trivial _).bind fun _ _ => yields_pure _ _ trivial)
  | get | hgetall | zadd =>
    exact yields_atLeast _ _ _ _ (yields_parseKeyed _ _ fun _ => trivial)
  | ping | mget | mset | save | bgsave | flushdb | info => exact yields_pure _ _ trivial

theorem bounded_parseCommandFast : Yields (parseCommandFast (F := F)) Command.Bounded :=
  parseCommandFast_yields (fun _ => trivial) bounded_parseArguments

def Request.floats : Request F → List F
  | .command (.vAdd _ floats) _ => floats
  | _ => []

theorem enqueueable_readRequest : Yields (readRequest (F := F)) fun request =>
    (∀ f ∈ request.floats, (FloatText.toStr f).bytes.length < 2 ^ 32) →
      ∀ record ∈ request.sent, record.Enqueueable := by
  refine bounded_parseCommandFast.bind fun command bounded => ?_
  unfold readArguments
  split
  next whole =>
    refine yields_pure _ _ fun short record member => ?_
    cases command with
    | vAdd key floats =>
      obtain rfl := List.mem_singleton.mp member
      exact ⟨bounded.1, bounded.2.1, bounded.2.2, short⟩
    | set | del | hmSet | flushDb =>
      obtain rfl := List.mem_singleton.mp member
      exact bounded
    | _ => cases member
  next =>
    split
    next =>
      have pairs : Yields parsePair fun pair => pair.1.length < 2 ^ 32 ∧ pair.2.length < 2 ^ 32 :=
        yields_parseBulkStr.bind fun _ key => yields_parseBulkStr.bind fun _ value =>
          yields_pure _ _ ⟨key, value⟩
      refine (pairs.times _).bind fun batch whole => yields_pure _ _ fun _ record member => ?_
      obtain ⟨pair, inside, made⟩ := List.mem_filterMap.mp member
      obtain ⟨key, valid, rfl⟩ := Option.map_eq_some_iff.mp made
      obtain ⟨keyFits, valueFits⟩ := whole.2 pair inside
      rw [(Str.fromUtf8_eq_some _ key).mp valid] at keyFits
      exact ⟨keyFits, valueFits⟩
    next => exact (yields_trivial _).bind fun _ _ => yields_pure _ _ fun _ _ member => by cases member
    next => exact yields_fail _

theorem reads_readRequest (roundTrip : FloatText.RoundTrip F) (record : PersistenceCommand F)
    (sized : record.Enqueueable) : Reads readRequest record.toResp (.ofRecord record) := by
  have whole : Reads (readArguments record.command) [] (Request.ofRecord record) := by
    cases record <;> exact reads_pure _
  have both := (record.reads_toResp roundTrip sized).bind whole
  rwa [List.append_nil] at both

end Parsed

def Action.told {F : Type} : Action F → List (PersistenceCommand F)
  | .send record => [record]
  | _ => []

/-- One life of the process, up to where it is killed. -/
structure Session (ι F : Type) [FloatText F] where
  env : Env
  -- `--hdd` is given
  enabled : env.persistence = true
  numCpus : Nat
  -- of each connection, in order
  requests : ι → List (Request F)
  parsed : ∀ i, ∀ request ∈ requests i, ∃ buf used, readRequest buf = some (request, used)
  events : List (ι ⊕ Bool)

structure Running (ι F : Type) where
  threads : Threads ι (Observed ι F) (Action F)
  worker : BatchWorker F

section Sessions

variable {ι F : Type} [DecidableEq ι] [FloatText F] [FloatArith F]

def boot (env : Env) (numCpus : Nat) (file : Bytes) : Server F :=
  (replayRecords file).foldl (fun server record => server.replayCommand env record.command)
    (Server.new numCpus)

namespace Running

def queue (running : Running ι F) : List (PersistenceCommand F) :=
  running.threads.shared.server.queue

-- A turn of a connection, or an action of the worker, whose I/O calls succeed.
def step (env : Env) (running : Running ι F) : ι ⊕ Bool → Running ι F
  | .inl i =>
    let threads := running.threads.step (observe env) i
    let fresh := threads.shared.server.queue.drop running.queue.length
    { threads, worker := Steps.run BatchWorker.step running.worker (fresh.map .send) }
  | .inr commit => { running with worker := running.worker.work commit .committed }

-- Everything that was sent is in the file.
def Settled (running : Running ι F) : Prop :=
  running.worker.queue = [] ∧ running.worker.pending = []

instance (running : Running ι F) : Decidable running.Settled :=
  inferInstanceAs (Decidable (running.worker.queue = [] ∧ running.worker.pending = []))

end Running

namespace Session

def start (session : Session ι F) (file : Bytes) : Running ι F :=
  { threads := connections (boot session.env session.numCpus file) session.requests
    worker := .start file }

def run (session : Session ι F) (file : Bytes) : Running ι F :=
  Steps.run (Running.step session.env) (session.start file) session.events

def fileAfter : Bytes → List (Session ι F) → Bytes
  | file, [] => file
  | file, session :: sessions => fileAfter (session.run file).worker.file sessions

-- Of each session a first part of what its connections sent, and all of it where it settled.
def Survives : Bytes → List (Session ι F) → List (List (PersistenceCommand F)) → Prop
  | _, [], [] => True
  | file, session :: sessions, part :: parts =>
    let ended := session.run file
    part <+: ended.queue ∧ (ended.Settled → part = ended.queue) ∧
      Survives ended.worker.file sessions parts
  | _, _, _ => False

end Session

namespace BatchWorker

omit [FloatArith F] in
theorem file_part (file : Bytes) (worker : BatchWorker F) (tracked : Tracked file worker)
    (counted : Counted file worker) :
    ∃ part rest, worker.sent = part ++ rest ∧ worker.file = file ++ log part ∧
      (worker.queue = [] ∧ worker.pending = [] → rest = []) := by
  have all := tracked.accounted
  by_cases inside : worker.InCommit
  · have none : worker.pending = [] := if_pos inside
    refine ⟨worker.committed.flatMap Batch.entries ++ worker.batchBuffer, worker.queue, all.symm, ?_,
      fun settled => settled.1⟩
    rw [Counted, none, ← all, log_append] at counted
    have grown : worker.file ++ log worker.queue =
        file ++ log (worker.committed.flatMap Batch.entries ++ worker.batchBuffer) ++
          log worker.queue := by
      simpa using counted
    exact List.append_cancel_right grown
  · have whole : worker.pending = worker.batchBuffer := if_neg inside
    refine ⟨worker.committed.flatMap Batch.entries, worker.batchBuffer ++ worker.queue, ?_, ?_,
      fun settled => ?_⟩
    · rw [← List.append_assoc, all]
    · rw [Counted, whole, ← all, log_append, log_append] at counted
      have grown : worker.file ++ (log worker.batchBuffer ++ log worker.queue) =
          file ++ log (worker.committed.flatMap Batch.entries) ++
            (log worker.batchBuffer ++ log worker.queue) := by
        simpa using counted
      exact List.append_cancel_right grown
    · rw [← whole, settled.2, settled.1]
      rfl

omit [FloatArith F] in
theorem tracked_sends (file : Bytes) (worker : BatchWorker F) (tracked : Tracked file worker)
    (counted : Counted file worker) (records : List (PersistenceCommand F)) :
    let after := Steps.run step worker (records.map .send)
    Tracked file after ∧ Counted file after ∧ after.sent = worker.sent ++ records := by
  induction records generalizing worker with
  | nil => exact ⟨tracked, counted, (List.append_nil _).symm⟩
  | cons record records ih =>
    have one : Tracked file (worker.step (.send record)) :=
      ⟨by simp [step, ← tracked.accounted], tracked.written⟩
    obtain ⟨tracked, counted, sent⟩ :=
      ih (worker.step (.send record)) one (counted_step file worker (.send record) counted trivial)
    refine ⟨tracked, counted, ?_⟩
    rw [List.map_cons, Steps.run_cons, sent, step, List.append_assoc]
    rfl

end BatchWorker

omit [FloatText F] [FloatArith F] in
theorem told_actions (request : Request F) :
    request.actions.flatMap Action.told = request.sent := by
  cases request with
  | mget keys => rfl
  | mset batch =>
    induction batch with
    | nil => rfl
    | cons pair batch ih =>
      simp only [Request.actions, Request.sent, List.flatMap_cons, List.flatMap_append] at ih ⊢
      rw [ih, List.filterMap_cons, pairActions]
      cases Str.fromUtf8 pair.1 <;> rfl
  | command command whole =>
    cases command with
    | mSetHeader => cases whole
    | mGetHeader => cases whole
    | _ => rfl

omit [FloatText F] in
theorem queue_observe (env : Env) (enabled : env.persistence = true) (i : ι) (shared : Observed ι F)
    (action : Action F) :
    (observe env i shared action).1.server.queue = shared.server.queue ++ action.told := by
  cases action with
  | send record => exact Server.queue_send env enabled shared.server record
  | _ => simp [observe, Server.perform, Server.insert, Server.remove, Server.clearDb,
      Server.clearVectors, Server.mergeHash, Server.addVector, Server.broadcastUpdate, Action.told]

omit [FloatText F] in
theorem told_more (env : Env) (i : ι) (shared : Observed ι F) (action : Action F) :
    ∀ more ∈ (observe env i shared action).2, more.told = [] := by
  cases action with
  | merge key fields =>
    intro more member
    rw [List.mem_singleton.mp member]
    rfl
  | _ => exact fun _ member => nomatch member

structure Ongoing (file : Bytes) (requests : ι → List (Request F)) (running : Running ι F) :
    Prop where
  tracked : BatchWorker.Tracked file running.worker
  counted : BatchWorker.Counted file running.worker
  received : running.worker.sent = running.queue
  told : ∀ record ∈ running.queue, ∃ i, ∃ request ∈ requests i, record ∈ request.sent
  telling : ∀ i, ∀ action ∈ running.threads.todo i, ∀ record ∈ action.told,
    ∃ request ∈ requests i, record ∈ request.sent

theorem ongoing_step (env : Env) (enabled : env.persistence = true) (file : Bytes)
    (requests : ι → List (Request F)) (running : Running ι F) (event : ι ⊕ Bool)
    (ongoing : Ongoing file requests running) :
    Ongoing file requests (running.step env event) := by
  cases event with
  | inr commit =>
    exact
      { tracked := BatchWorker.tracked_work file running.worker ongoing.tracked commit .committed
        counted := BatchWorker.counted_step file running.worker (.work commit .committed)
          ongoing.counted rfl
        received := by
          have same := BatchWorker.sent_step running.worker (.work commit .committed)
          rw [BatchWorker.sends, List.flatMap_cons, List.flatMap_nil, List.append_nil,
            List.append_nil] at same
          exact same.trans ongoing.received
        told := ongoing.told
        telling := ongoing.telling }
  | inl i =>
    cases turn : running.threads.todo i with
    | nil =>
      have still : running.step env (.inl i) = running := by
        rw [Running.step, Threads.step_nil _ i turn]
        simp [Running.queue, Steps.run]
      rwa [still]
    | cons action rest =>
      have queue : (running.threads.step (observe env) i).shared.server.queue =
          running.queue ++ action.told := by
        rw [Threads.step_cons _ i action rest turn]
        exact queue_observe env enabled i _ action
      obtain ⟨tracked, counted, sent⟩ := BatchWorker.tracked_sends file running.worker
        ongoing.tracked ongoing.counted action.told
      have worker : (running.step env (.inl i)).worker =
          Steps.run BatchWorker.step running.worker (action.told.map .send) := by
        rw [Running.step]
        simp only [queue, List.drop_left]
      have todo : (running.step env (.inl i)).threads.todo = Function.update running.threads.todo i
          ((observe env i running.threads.shared action).2 ++ rest) := by
        rw [Running.step, Threads.step_cons _ i action rest turn]
      have source : ∀ record ∈ action.told, ∃ request ∈ requests i, record ∈ request.sent :=
        ongoing.telling i action (by rw [turn]; exact List.mem_cons_self)
      refine ⟨by rwa [worker], by rwa [worker], ?_, fun record member => ?_,
        fun j later member record said => ?_⟩
      · rw [worker, sent, ongoing.received]
        exact queue.symm
      · have member : record ∈ running.queue ++ action.told := by rwa [← queue]
        obtain old | new := List.mem_append.mp member
        · exact ongoing.told record old
        · exact ⟨i, source record new⟩
      · rw [todo] at member
        by_cases here : j = i
        · subst here
          rw [Function.update_self] at member
          obtain fresh | old := List.mem_append.mp member
          · rw [told_more env j _ action later fresh] at said
            cases said
          · exact ongoing.telling j later (by rw [turn]; exact List.mem_cons_of_mem _ old) record said
        · rw [Function.update_of_ne here] at member
          exact ongoing.telling j later member record said

omit [FloatText F] in
theorem queue_replayCommand (env : Env) (server : Server F) (command : Command F) :
    (server.replayCommand env command).queue = server.queue := by
  cases command <;> rfl

theorem queue_boot (env : Env) (numCpus : Nat) (file : Bytes) :
    (boot (F := F) env numCpus file).queue = [] := by
  rw [boot]
  generalize replayRecords (F := F) file = records
  have kept : ∀ server : Server F, server.queue = [] →
      (records.foldl (fun server record => server.replayCommand env record.command)
        server).queue = [] := by
    induction records with
    | nil => exact fun _ none => none
    | cons record records ih =>
      intro server none
      exact ih _ ((queue_replayCommand env server record.command).trans none)
  exact kept _ rfl

omit [DecidableEq ι] in
theorem ongoing_start (session : Session ι F) (file : Bytes) :
    Ongoing file session.requests (session.start file) where
  tracked := ⟨rfl, file, rfl, rfl, rfl⟩
  counted := by
    simp [BatchWorker.Counted, BatchWorker.pending, BatchWorker.InCommit, Session.start,
      BatchWorker.start, log]
  received := (queue_boot session.env session.numCpus file).symm
  told record member := by
    rw [Running.queue, Session.start, connections, Observed.new, queue_boot] at member
    cases member
  telling i action member record said := by
    obtain ⟨request, mine, there⟩ := List.mem_flatMap.mp member
    refine ⟨request, mine, ?_⟩
    rw [← told_actions]
    exact List.mem_flatMap.mpr ⟨action, there, said⟩

theorem ongoing_run (session : Session ι F) (file : Bytes) :
    Ongoing file session.requests (session.run file) :=
  Steps.run_always (ongoing_step session.env session.enabled file session.requests)
    (session.start file) session.events (ongoing_start session file)

def Session.Short (session : Session ι F) : Prop :=
  ∀ i, ∀ request ∈ session.requests i, ∀ f ∈ request.floats,
    (FloatText.toStr f).bytes.length < 2 ^ 32

theorem session_part (session : Session ι F) (short : session.Short) (file : Bytes) :
    ∃ part, part <+: (session.run file).queue ∧
      ((session.run file).Settled → part = (session.run file).queue) ∧
      (session.run file).worker.file = file ++ log part ∧
      ∀ record ∈ part, record.Enqueueable := by
  have ongoing := ongoing_run session file
  obtain ⟨part, rest, all, grown, settled⟩ :=
    BatchWorker.file_part file _ ongoing.tracked ongoing.counted
  rw [ongoing.received] at all
  refine ⟨part, ⟨rest, all.symm⟩, fun quiet => ?_, grown, fun record member => ?_⟩
  · rw [all, settled quiet, List.append_nil]
  · obtain ⟨i, request, mine, there⟩ := ongoing.told record (by
      rw [all]
      exact List.mem_append_left _ member)
    obtain ⟨buf, used, read⟩ := session.parsed i request mine
    exact enqueueable_readRequest buf request used read (short i request mine) record there

theorem sessions_parts (sessions : List (Session ι F)) (short : ∀ session ∈ sessions, session.Short)
    (file : Bytes) :
    ∃ parts, Session.Survives file sessions parts ∧
      Session.fileAfter file sessions = file ++ log parts.flatten ∧
      ∀ record ∈ parts.flatten, record.Enqueueable := by
  induction sessions generalizing file with
  | nil => exact ⟨[], trivial, (List.append_nil _).symm, fun _ member => nomatch member⟩
  | cons session sessions ih =>
    obtain ⟨part, before, settled, grown, fits⟩ :=
      session_part session (short session List.mem_cons_self) file
    obtain ⟨parts, survives, whole, rest⟩ :=
      ih (fun other member => short other (List.mem_cons_of_mem _ member))
        (session.run file).worker.file
    refine ⟨part :: parts, ⟨before, settled, survives⟩, ?_, fun record member => ?_⟩
    · rw [Session.fileAfter, whole, grown, List.flatten_cons, BatchWorker.log_append,
        List.append_assoc]
    · rw [List.flatten_cons] at member
      exact (List.mem_append.mp member).elim (fits record) (rest record)

theorem boot_log (roundTrip : FloatText.RoundTrip F) (env : Env) (numCpus : Nat)
    (entries : List (PersistenceCommand F)) (sized : ∀ entry ∈ entries, entry.Enqueueable) :
    boot env numCpus (log entries) = (Server.new numCpus).replay env entries := by
  have commands : (replayRecords (F := F) (log entries)).map Record.command =
      entries.map PersistenceCommand.command := by
    have whole := replayAt_log roundTrip 0 entries sized []
    rw [List.append_nil] at whole
    rw [replayRecords, whole]
    simp
  have folded (records : List (Record F)) (server : Server F) :
      records.foldl (fun server record => server.replayCommand env record.command) server =
        (records.map Record.command).foldl (Server.replayCommand env) server := by
    rw [List.foldl_map]
  rw [boot, folded, commands, List.foldl_map]
  rfl

omit [FloatArith F] in
theorem sized_enqueueable (record : PersistenceCommand F) (sized : record.Enqueueable) :
    (Request.ofRecord record).Sized := by
  cases record with
  | hmSet key fields =>
    obtain ⟨_, _, count, fits⟩ := sized
    exact ⟨by omega, fits⟩
  | _ => trivial

theorem boot_survives (roundTrip : FloatText.RoundTrip F) (sessions : List (Session ι F))
    (short : ∀ session ∈ sessions, session.Short) :
    ∃ parts, Session.Survives [] sessions parts ∧
      ∀ (env : Env) (numCpus : Nat),
        let server : Server F := boot env numCpus (Session.fileAfter [] sessions)
        let writes := parts.flatten.flatMap PersistenceCommand.writes
        server.vectorDb =
            parts.flatten.foldl Server.vectorStep (SharedVectorStore.new 1536 numCpus rfl) ∧
          (HashesFit PlainStore.empty writes →
            Represents env.model server.db (PlainStore.empty.writeAll writes)) := by
  obtain ⟨parts, survives, whole, fits⟩ := sessions_parts sessions short []
  refine ⟨parts, survives, fun env numCpus => ?_⟩
  rw [whole, List.nil_append, boot_log roundTrip env numCpus _ fits]
  refine ⟨Server.vectorDb_replay env _ _, fun hashes => ?_⟩
  exact Server.represents_replay env _ _ Holds.initial _
    (fun record member => sized_enqueueable record (fits record member)) hashes

end Sessions

-- One connection sets a key, and the worker takes the record over, decides, writes and syncs it.
def setSession : Session Unit Int where
  env := Server.constantEnv 0
  enabled := rfl
  numCpus := 4
  requests _ := [.command (.set ⟨ascii "k", validUtf8_k⟩ (ascii "v")) rfl]
  parsed := by
    intro i request mine
    obtain rfl := List.mem_singleton.mp mine
    have text := reads_readRequest roundTrip_int (.set ⟨ascii "k", validUtf8_k⟩ (ascii "v"))
      (by decide) []
    exact ⟨_, _, text⟩
  events := List.replicate 3 (.inl ()) ++ List.replicate 5 (.inr true)

-- A vector reaches the file; the process is killed with the next record in the worker's batch and
-- a FLUSHDB that has cleared the store but sent nothing.
def killedSession : Session Unit Int where
  env := Server.constantEnv 0
  enabled := rfl
  numCpus := 4
  requests _ := [.command (.vAdd ⟨ascii "k", validUtf8_k⟩ [1]) rfl,
    .command (.del ⟨ascii "k", validUtf8_k⟩) rfl, .flushDb]
  parsed := by
    intro i request mine
    simp only [List.mem_cons, List.not_mem_nil, or_false] at mine
    rcases mine with rfl | rfl | rfl
    · exact ⟨_, _, reads_readRequest roundTrip_int (.vAdd ⟨ascii "k", validUtf8_k⟩ [1])
        (by decide) []⟩
    · exact ⟨_, _, reads_readRequest roundTrip_int (.del ⟨ascii "k", validUtf8_k⟩) (by decide) []⟩
    · exact ⟨_, _, reads_readRequest roundTrip_int .flushDb (by decide) []⟩
  events := List.replicate 2 (.inl ()) ++ List.replicate 5 (.inr true) ++
    List.replicate 2 (.inl ()) ++ [.inr false] ++ List.replicate 2 (.inl ())

theorem boot_survives_killed : ¬(killedSession.run []).Settled ∧
    (setSession.run (killedSession.run []).worker.file).Settled ∧ ∃ parts,
      Session.Survives [] [killedSession, setSession] parts ∧
        (boot (Server.constantEnv 0) 4 (Session.fileAfter [] [killedSession, setSession])).vectorDb =
          parts.flatten.foldl Server.vectorStep (SharedVectorStore.new 1536 4 rfl) := by
  refine ⟨by decide, by decide, ?_⟩
  obtain ⟨parts, survives, left⟩ := boot_survives roundTrip_int [killedSession, setSession] (by
    intro session member i request mine f inside
    simp only [List.mem_cons, List.not_mem_nil, or_false] at member
    rcases member with rfl | rfl
    · simp only [killedSession, List.mem_cons, List.not_mem_nil, or_false] at mine
      rcases mine with rfl | rfl | rfl
      · obtain rfl : f = 1 := List.mem_singleton.mp inside
        decide
      · cases inside
      · cases inside
    · obtain rfl : request = .command (.set ⟨ascii "k", validUtf8_k⟩ (ascii "v")) rfl :=
        List.mem_singleton.mp mine
      cases inside)
  exact ⟨parts, survives, (left (Server.constantEnv 0) 4).1⟩

end OmegaDrive
