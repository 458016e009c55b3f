import OmegaDrive.Connection.ReadBack
import Mathlib.Data.List.Flatten

set_option autoImplicit false

namespace OmegaDrive

namespace Request

variable {F : Type}

def sent : Request F → List (PersistenceCommand F)
  | .command (.set key value) _ => [.set key value]
  | .command (.del key) _ => [.del key]
  | .command .flushDb _ => [.flushDb]
  | .command (.hmSet key fields) _ => [.hmSet key fields]
  | .command (.vAdd key floats) _ => [.vAdd key floats]
  | .mset batch => batch.filterMap fun pair =>
      (Str.fromUtf8 pair.1).map fun key => .set key pair.2
  | _ => []

/-- The keys that MSET stored without logging them, and that no FLUSHDB has removed. -/
def unloggedKeys (requests : List (Request F)) : List Bytes :=
  requests.foldl (fun keys request =>
    match request with
    | .command .flushDb _ => []
    | .mset batch => keys ++ (batch.map Prod.fst).filter fun key => !validUtf8 key
    | _ => keys) []

end Request

def PlainWrite.loggable : PlainWrite → Bool
  | .set key _ => validUtf8 key
  | .del key => validUtf8 key
  | .hmSet key _ => validUtf8 key
  | .flush => true

-- The part of a plain store the log can describe.
def PlainStore.logged (plain : PlainStore) : PlainStore :=
  fun key => if validUtf8 key then plain key else none

namespace PlainStore

theorem logged_put (plain : PlainStore) (key : Bytes) (value : Option PlainValue) :
    (plain.put key value).logged =
      if validUtf8 key then plain.logged.put key value else plain.logged := by
  funext other
  by_cases same : other = key
  · subst same
    by_cases valid : validUtf8 other = true <;> simp [logged, put, valid]
  · by_cases valid : validUtf8 key = true <;> simp [logged, put, valid, same]

theorem logged_mergedAt (plain : PlainStore) (key : Bytes) (fields : List (Bytes × Bytes))
    (valid : validUtf8 key = true) :
    plain.logged.mergedAt key fields = plain.mergedAt key fields := by
  simp [mergedAt, hashAt, logged, valid]

theorem logged_write (plain : PlainStore) (write : PlainWrite) :
    (plain.write write).logged =
      if write.loggable then plain.logged.write write else plain.logged := by
  cases write with
  | set key value => exact logged_put plain key _
  | del key => exact logged_put plain key _
  | hmSet key fields =>
    rw [PlainStore.write, logged_put, PlainWrite.loggable]
    split
    next valid => rw [PlainStore.write, logged_mergedAt plain key fields valid]
    next => rfl
  | flush => funext key; simp [logged, PlainStore.write, PlainWrite.loggable]

theorem logged_writeAll (plain : PlainStore) (writes : List PlainWrite) :
    (plain.writeAll writes).logged =
      plain.logged.writeAll (writes.filter PlainWrite.loggable) := by
  induction writes generalizing plain with
  | nil => rfl
  | cons write writes ih =>
    rw [writeAll_cons, ih, logged_write]
    by_cases loggable : write.loggable = true <;> simp [loggable]

end PlainStore

theorem hashesFit_logged (plain : PlainStore) (writes : List PlainWrite)
    (fit : HashesFit plain writes) :
    HashesFit plain.logged (writes.filter PlainWrite.loggable) := by
  induction writes generalizing plain with
  | nil => trivial
  | cons write writes ih =>
    have rest := ih _ fit.2
    rw [PlainStore.logged_write] at rest
    by_cases loggable : write.loggable = true
    · rw [if_pos loggable] at rest
      rw [List.filter_cons_of_pos loggable]
      refine ⟨?_, rest⟩
      rintro key fields rfl
      rw [PlainStore.logged_mergedAt plain key fields loggable]
      exact fit.1 key fields rfl
    · rw [if_neg loggable] at rest
      rwa [List.filter_cons_of_neg loggable]

theorem writes_sent {F : Type} (request : Request F) :
    request.sent.flatMap PersistenceCommand.writes =
      request.writes.filter PlainWrite.loggable := by
  cases request with
  | mget keys => rfl
  | mset batch =>
    simp only [Request.sent, Request.writes]
    induction batch with
    | nil => rfl
    | cons pair batch ih =>
      rw [List.map_cons]
      cases read : Str.fromUtf8 pair.1 with
      | none =>
        have invalid := (Str.fromUtf8_eq_none pair.1).mp read
        rw [List.filterMap_cons_none (by rw [read]; rfl), ih,
          List.filter_cons_of_neg (by simp [PlainWrite.loggable, invalid])]
      | some key =>
        have bytes := (Str.fromUtf8_eq_some pair.1 key).mp read
        rw [List.filterMap_cons_some (by rw [read]; rfl), List.flatMap_cons, ih,
          List.filter_cons_of_pos (by simp [PlainWrite.loggable, bytes, key.valid])]
        simp [PersistenceCommand.writes, bytes]
  | command command whole =>
    cases command with
    | set key value =>
      simp [Request.sent, Request.writes, PersistenceCommand.writes, PlainWrite.loggable, key.valid]
    | del key =>
      simp [Request.sent, Request.writes, PersistenceCommand.writes, PlainWrite.loggable, key.valid]
    | hmSet key fields =>
      simp [Request.sent, Request.writes, PersistenceCommand.writes, PlainWrite.loggable, key.valid]
    | mSetHeader numArgs => cases whole
    | mGetHeader numArgs => cases whole
    | _ => rfl

theorem sized_sent {F : Type} (requests : List (Request F))
    (sized : ∀ request ∈ requests, request.Sized) :
    ∀ record ∈ requests.flatMap Request.sent, (Request.ofRecord record).Sized := by
  intro record member
  obtain ⟨request, present, inside⟩ := List.mem_flatMap.mp member
  have small := sized request present
  cases request with
  | mget keys => simp [Request.sent] at inside
  | mset batch =>
    obtain ⟨pair, _, read⟩ := List.mem_filterMap.mp inside
    obtain ⟨key, _, rfl⟩ := Option.map_eq_some_iff.mp read
    trivial
  | command command whole =>
    cases command with
    | set | del | flushDb | hmSet | vAdd =>
      obtain rfl := List.mem_singleton.mp inside
      exact small
    | _ => simp [Request.sent] at inside

theorem writes_sent_all {F : Type} (requests : List (Request F)) :
    (requests.flatMap Request.sent).flatMap PersistenceCommand.writes =
      (requests.flatMap Request.writes).filter PlainWrite.loggable := by
  induction requests with
  | nil => rfl
  | cons request requests ih =>
    rw [List.flatMap_cons, List.flatMap_append, ih, writes_sent, List.flatMap_cons,
      List.filter_append]

namespace Server

variable {F : Type}

theorem queue_msets (env : Env) (enabled : env.persistence = true) (server : Server F)
    (batch : List (Bytes × Bytes)) :
    (batch.foldl (msetPair env) server).queue =
      server.queue ++ (Request.mset batch : Request F).sent := by
  induction batch generalizing server with
  | nil => simp [Request.sent]
  | cons pair batch ih =>
    rw [List.foldl_cons, ih, msetPair]
    simp only [Request.sent]
    cases read : Str.fromUtf8 pair.1 with
    | none => rw [List.filterMap_cons_none (by rw [read]; rfl)]; rfl
    | some key =>
      rw [List.filterMap_cons_some (by rw [read]; rfl)]
      simp only [queue_send env enabled, insert, broadcastUpdate, List.append_assoc,
        List.singleton_append]

variable [FloatArith F]

def vectorStep (store : SharedVectorStore F) : PersistenceCommand F → SharedVectorStore F
  | .vAdd key floats => store.add (AirKey.fromBytes key.bytes) (store.quantize floats) floats
  | .flushDb => store.clear
  | _ => store

theorem queue_handle (env : Env) (enabled : env.persistence = true) (server : Server F)
    (request : Request F) :
    (server.handle env request).1.queue = server.queue ++ request.sent := by
  cases request with
  | mset batch => exact queue_msets env enabled server batch
  | mget keys => simp [handle, Request.sent]
  | command command whole =>
    cases command with
    | mSetHeader numArgs => cases whole
    | mGetHeader numArgs => cases whole
    | set | del | flushDb | hmSet | vAdd =>
      simp only [handle, queue_send env enabled]
      rfl
    | _ => simp [handle, Request.sent]

theorem queue_run (env : Env) (enabled : env.persistence = true) (server : Server F)
    (requests : List (Request F)) :
    (server.run env requests).queue = server.queue ++ requests.flatMap Request.sent := by
  induction requests generalizing server with
  | nil => simp [run]
  | cons request requests ih =>
    have step := ih (server.handle env request).1
    rw [queue_handle env enabled, List.append_assoc] at step
    exact step

theorem vectors_msets (store : SharedVectorStore F) (batch : List (Bytes × Bytes)) :
    (Request.mset batch : Request F).sent.foldl vectorStep store = store := by
  induction batch with
  | nil => rfl
  | cons pair batch ih =>
    simp only [Request.sent] at ih ⊢
    cases read : Str.fromUtf8 pair.1 with
    | none => rwa [List.filterMap_cons_none (by rw [read]; rfl)]
    | some key => rwa [List.filterMap_cons_some (by rw [read]; rfl)]

theorem vectorDb_handle (env : Env) (server : Server F) (request : Request F) :
    (server.handle env request).1.vectorDb = request.sent.foldl vectorStep server.vectorDb := by
  cases request with
  | mget keys => rfl
  | mset batch =>
    have same : (batch.foldl (msetPair env) server).vectorDb = server.vectorDb := by
      induction batch generalizing server with
      | nil => rfl
      | cons pair batch ih => rw [List.foldl_cons, ih, vectorDb_msetPair]
    simp only [handle, same]
    exact (vectors_msets server.vectorDb batch).symm
  | command command whole =>
    cases command with
    | mSetHeader numArgs => cases whole
    | mGetHeader numArgs => cases whole
    | set | del | flushDb | hmSet | vAdd =>
      simp only [handle, vectorDb_send]
      rfl
    | _ => rfl

theorem vectorDb_run (env : Env) (server : Server F) (requests : List (Request F)) :
    (server.run env requests).vectorDb =
      (requests.flatMap Request.sent).foldl vectorStep server.vectorDb := by
  induction requests generalizing server with
  | nil => rfl
  | cons request requests ih =>
    have step := ih (server.handle env request).1
    rw [vectorDb_handle, ← List.foldl_append] at step
    exact step

theorem vectorDb_replay (env : Env) (server : Server F) (records : List (PersistenceCommand F)) :
    (server.replay env records).vectorDb = records.foldl vectorStep server.vectorDb := by
  induction records generalizing server with
  | nil => rfl
  | cons record records ih =>
    rw [List.foldl_cons, replay, List.foldl_cons]
    have step : (server.replayCommand env record.command).vectorDb =
        vectorStep server.vectorDb record := by cases record <;> rfl
    rw [← step]
    exact ih _

end Server

theorem invalid_put (plain : PlainStore) (key other : Bytes) (value : Option PlainValue)
    (valid : validUtf8 key = true) (invalid : validUtf8 other = false) :
    plain.put key value other = plain other := by
  rw [PlainStore.put_apply, if_neg]
  rintro rfl
  rw [valid] at invalid
  cases invalid

theorem unloggedKeys_mset (plain : PlainStore) (batch : List (Bytes × Bytes)) (key : Bytes) :
    plain.writeAll (batch.map fun pair => .set pair.1 pair.2) key ≠ none ↔
      plain key ≠ none ∨ key ∈ batch.map Prod.fst := by
  induction batch generalizing plain with
  | nil => simp
  | cons pair batch ih =>
    rw [List.map_cons, List.map_cons, PlainStore.writeAll_cons, ih, List.mem_cons]
    by_cases same : key = pair.1
    · simp [PlainStore.write, PlainStore.put_apply, same]
    · simp [PlainStore.write, PlainStore.put_apply, same]

theorem mem_unloggedKeys {F : Type} (requests : List (Request F)) (key : Bytes) :
    key ∈ Request.unloggedKeys requests ↔
      validUtf8 key = false ∧ Request.plainRun PlainStore.empty requests key ≠ none := by
  suffices both : ∀ (keys : List Bytes) (plain : PlainStore),
      (key ∈ keys ↔ validUtf8 key = false ∧ plain key ≠ none) →
      (key ∈ requests.foldl (fun keys request =>
          match request with
          | .command .flushDb _ => []
          | .mset batch => keys ++ (batch.map Prod.fst).filter fun key => !validUtf8 key
          | _ => keys) keys ↔
        validUtf8 key = false ∧ Request.plainRun plain requests key ≠ none) from
    both [] PlainStore.empty (by simp)
  induction requests with
  | nil => exact fun _ _ same => same
  | cons request requests ih =>
    intro keys plain same
    rw [List.foldl_cons, Request.plainRun, List.flatMap_cons, PlainStore.writeAll_append]
    apply ih
    cases request with
    | mget => exact same
    | mset batch =>
      simp only [Request.writes, List.mem_append, List.mem_filter, same]
      by_cases invalid : validUtf8 key = false
      · rw [unloggedKeys_mset plain batch key]
        simp [invalid]
      · simp [invalid]
    | command command whole =>
      cases command with
      | flushDb => simp [Request.writes, PlainStore.write]
      | set name value | del name | hmSet name fields =>
        by_cases invalid : validUtf8 key = false
        · simp only [Request.writes, PlainStore.writeAll_cons, PlainStore.writeAll_nil,
            PlainStore.write, invalid_put _ _ _ _ name.valid invalid]
          exact same
        · simp [same, invalid]
      | _ => exact same

namespace Server

variable {F : Type} [FloatArith F]

theorem replay_queue_iff (env restarted : Env) (enabled : env.persistence = true) (numCpus : Nat)
    (requests : List (Request F)) (sized : ∀ request ∈ requests, request.Sized)
    (fit : HashesFit PlainStore.empty (requests.flatMap Request.writes)) :
    let live := (Server.new numCpus).run env requests
    let replayed := (Server.new numCpus).replay restarted live.queue
    let plain := Request.plainRun PlainStore.empty requests
    Represents env.model live.db plain ∧
      ((Represents restarted.model replayed.db plain ∧ replayed.vectorDb = live.vectorDb) ↔
        Request.unloggedKeys requests = []) := by
  intro live replayed plain
  have queue : live.queue = requests.flatMap Request.sent := by
    simp [live, queue_run env enabled, Server.new]
  have logged : Represents restarted.model replayed.db plain.logged := by
    have writes := writes_sent_all requests
    have start : PlainStore.empty.logged = PlainStore.empty := by
      funext key
      simp [PlainStore.logged]
    have fits := hashesFit_logged PlainStore.empty _ fit
    rw [start, ← writes] at fits
    have held := represents_replay restarted (Server.new numCpus) PlainStore.empty Holds.initial
      (requests.flatMap Request.sent) (sized_sent requests sized) fits
    rw [writes, ← start, ← PlainStore.logged_writeAll] at held
    simp only [replayed, queue]
    exact held
  have vectors : replayed.vectorDb = live.vectorDb := by
    simp only [replayed, live, vectorDb_replay, vectorDb_run, queue_run env enabled]
    rfl
  refine ⟨represents_run env _ _ Holds.initial requests sized fit, ?_⟩
  constructor
  · rintro ⟨held, _⟩
    -- A key that was not logged is in the plain store and not in the replayed one.
    apply List.eq_nil_iff_forall_not_mem.mpr
    intro key member
    obtain ⟨invalid, present⟩ := (mem_unloggedKeys requests key).mp member
    have missing := logged.absent key (by simp [PlainStore.logged, invalid])
    cases value : plain key with
    | none => exact present value
    | some value' =>
      cases value' with
      | str s =>
        obtain ⟨codec, stored⟩ := held.string key s value
        rw [missing] at stored
        cases stored
      | hash fields =>
        obtain ⟨buf, stored, _⟩ := held.hash key fields value
        rw [missing] at stored
        cases stored
  · intro none_lost
    have whole : plain.logged = plain := by
      funext key
      by_cases valid : validUtf8 key = true
      · simp [PlainStore.logged, valid]
      · have invalid : validUtf8 key = false := by simpa using valid
        have absent : plain key = none := by
          by_contra present
          have member := (mem_unloggedKeys requests key).mpr ⟨invalid, present⟩
          rw [none_lost] at member
          cases member
        simp [PlainStore.logged, valid, absent]
    rw [whole] at logged
    exact ⟨logged, vectors⟩

-- A FLUSHDB takes away the key that was not logged, and writes follow it.
def flushedRun : List (Request Int) :=
  [.set ⟨ascii "k", validUtf8_k⟩ (ascii "v"), .mset [([0xFF], ascii "v"), (ascii "k", ascii "w")],
    .flushDb,
    .command (.hmSet ⟨ascii "k", validUtf8_k⟩ [(⟨ascii "k", validUtf8_k⟩, ascii "v")]) rfl,
    .command (.vAdd ⟨ascii "k", validUtf8_k⟩ [1, -1]) rfl]

theorem replay_queue_flushed :
    let live := (Server.new 4).run (constantEnv 0) flushedRun
    let replayed := (Server.new 4).replay (constantEnv 0) live.queue
    Represents (constantEnv 0).model replayed.db (Request.plainRun PlainStore.empty flushedRun) ∧
      replayed.vectorDb = live.vectorDb := by
  refine (replay_queue_iff (F := Int) (constantEnv 0) (constantEnv 0) rfl 4 flushedRun ?_ ?_).2.mpr
    (by decide)
  · intro request member
    simp only [flushedRun, List.mem_cons, List.not_mem_nil, or_false] at member
    rcases member with rfl | rfl | rfl | rfl | rfl
    · trivial
    · trivial
    · trivial
    · refine ⟨by decide, fun field inside => ?_⟩
      obtain rfl := List.mem_singleton.mp inside
      decide
    · trivial
  · refine ⟨?_, ?_, ?_, ?_, ?_, trivial⟩ <;> rintro key fields same <;> cases same
    decide

-- MSET stores a key that is no UTF-8, and nothing in the log says so.
theorem mset_not_logged :
    let live := (Server.new 4 : Server Int).run (constantEnv 0) [.mset [([0xFF], ascii "v")]]
    (live.db [0xFF]).isSome ∧
      ((Server.new 4).replay (constantEnv 0) live.queue).db [0xFF] = none := by
  decide

end Server

end OmegaDrive
