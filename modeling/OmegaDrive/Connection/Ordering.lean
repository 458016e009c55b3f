import OmegaDrive.Connection.Interleaving

set_option autoImplicit false

namespace OmegaDrive

def PlainWrite.Commutes (first second : PlainWrite) : Prop :=
  ∀ plain : PlainStore, (plain.write first).write second = (plain.write second).write first

def PlainWrite.key? : PlainWrite → Option Bytes
  | .set key _ => some key
  | .del key => some key
  | .hmSet key _ => some key
  | .flush => none

theorem PlainStore.put_comm (plain : PlainStore) (key other : Bytes)
    (value another : Option PlainValue) (different : key ≠ other) :
    (plain.put key value).put other another = (plain.put other another).put key value := by
  funext name
  simp only [put_apply]
  by_cases one : name = key
  · subst one
    simp [different]
  · simp [one]

theorem PlainStore.hashAt_put (plain : PlainStore) (key other : Bytes)
    (value : Option PlainValue) (different : key ≠ other) :
    (plain.put key value).hashAt other = plain.hashAt other := by
  rw [hashAt, put_apply, if_neg different.symm, hashAt]

theorem PlainWrite.write_eq_put (write : PlainWrite) (key : Bytes) (named : write.key? = some key) :
    ∃ value : HashFields → Option PlainValue, ∀ plain : PlainStore,
      plain.write write = plain.put key (value (plain.hashAt key)) := by
  cases write with
  | set name content =>
    obtain rfl := Option.some.inj named
    exact ⟨fun _ => some (.str content), fun _ => rfl⟩
  | del name =>
    obtain rfl := Option.some.inj named
    exact ⟨fun _ => none, fun _ => rfl⟩
  | hmSet name fields =>
    obtain rfl := Option.some.inj named
    exact ⟨fun old => some (.hash (FieldMap.insertAll old fields)), fun _ => rfl⟩
  | flush => cases named

theorem PlainWrite.commutes_of_keys (first second : PlainWrite) (key other : Bytes)
    (one : first.key? = some key) (two : second.key? = some other) (different : key ≠ other) :
    Commutes first second := by
  obtain ⟨value, firstPut⟩ := first.write_eq_put key one
  obtain ⟨another, secondPut⟩ := second.write_eq_put other two
  intro plain
  rw [firstPut, secondPut, secondPut, firstPut, PlainStore.hashAt_put _ _ _ _ different,
    PlainStore.hashAt_put _ _ _ _ different.symm, PlainStore.put_comm _ _ _ _ _ different]

-- A sent write can move in front of the earlier ones of other connections.
theorem writeAll_settle {ι : Type} [DecidableEq ι] (plain : PlainStore)
    (unsent : List (ι × PlainWrite)) (i : ι) (sent : List PlainWrite)
    (own : (unsent.filter fun entry => entry.1 = i).map Prod.snd = sent) (single : sent.length ≤ 1)
    (commutes : ∀ write ∈ sent, ∀ earlier ∈ unsent.takeWhile fun entry => entry.1 ≠ i,
      PlainWrite.Commutes earlier.2 write) :
    plain.writeAll (unsent.map Prod.snd) =
      (plain.writeAll sent).writeAll
        ((unsent.filter fun entry => entry.1 ≠ i).map Prod.snd) := by
  induction unsent generalizing plain sent with
  | nil =>
    subst own
    rfl
  | cons entry unsent ih =>
    obtain ⟨j, write⟩ := entry
    by_cases mine : j = i
    · subst mine
      obtain rfl : sent = [write] := by
        rw [List.filter_cons_of_pos (by simp), List.map_cons] at own
        subst own
        simpa using single
      have others : (unsent.filter fun entry => entry.1 = j).map Prod.snd = [] := by
        simpa using own
      have rest := ih (plain.write write) [] others (by simp) (by simp)
      rw [List.filter_cons_of_neg (by simp), List.map_cons, PlainStore.writeAll_cons, rest]
      rfl
    · rw [List.filter_cons_of_neg (by simpa using mine)] at own
      rw [List.takeWhile_cons_of_pos (by simpa using mine)] at commutes
      have rest := ih (plain.write write) sent own single fun sent member earlier before =>
        commutes sent member earlier (List.mem_cons_of_mem _ before)
      have swapped : (plain.write write).writeAll sent = (plain.writeAll sent).write write := by
        cases sent with
        | nil => rfl
        | cons last sent =>
          obtain rfl : sent = [] := by
            simpa using single
          exact commutes last List.mem_cons_self (j, write) List.mem_cons_self plain
      rw [List.filter_cons_of_pos (by simpa using mine), List.map_cons, List.map_cons,
        PlainStore.writeAll_cons, PlainStore.writeAll_cons, rest, swapped]

section Invariant

variable {F : Type}

namespace Action

/-- The write that an action makes or leads up to. -/
def promised : Action F → Option PlainWrite
  | .merge key fields => some (.hmSet key.bytes (FlatHash.fieldBytes fields))
  | action => action.write

def records : Action F → List (PersistenceCommand F)
  | .send record => [record]
  | _ => []

def leaves (owed : List PlainWrite) : Action F → List PlainWrite
  | .send _ => []
  | action => owed ++ action.write.toList

-- What the parser guarantees of an action, and where a merged buffer comes from.
def Sound : Action F → Prop
  | .merge _ fields => fields.length < 2 ^ 32 ∧ OmegaDrive.Sized fields
  | .insertBuffer _ fields found newBuf => (fields.length < 2 ^ 32 ∧ OmegaDrive.Sized fields) ∧
      ∃ iter, newBuf = hmSetBuffer iter found fields
  | .send record => (Request.ofRecord record).Sized
  | _ => True

end Action

-- A connection that owes the log some writes sends them next, and it owes one at most.
def Owes : List PlainWrite → List (Action F) → Prop
  | owed, [] => owed = []
  | owed, .send record :: rest => record.writes = owed ∧ Owes [] rest
  | owed, action :: rest =>
    match action.promised with
    | some write => owed = [] ∧ Owes [write] rest
    | none => Owes owed rest

theorem owes_pair (pair : Bytes × Bytes) (valid : validUtf8 pair.1 = true)
    (rest : List (Action F)) (owes : Owes [] rest) : Owes [] (pairActions pair ++ rest) := by
  cases read : Str.fromUtf8 pair.1 with
  | none => rw [(Str.fromUtf8_eq_none pair.1).mp read] at valid; cases valid
  | some key =>
    have bytes := (Str.fromUtf8_eq_some pair.1 key).mp read
    simp [pairActions, Owes, Action.promised, Action.write, PersistenceCommand.writes,
      bytes, owes]

def Request.Utf8 : Request F → Prop
  | .mset batch => ∀ pair ∈ batch, validUtf8 pair.1 = true
  | _ => True

theorem owes_actions (request : Request F) (utf8 : request.Utf8) (rest : List (Action F))
    (owes : Owes [] rest) : Owes [] (request.actions ++ rest) := by
  cases request with
  | mget keys => exact owes
  | mset batch =>
    simp only [Request.actions]
    induction batch with
    | nil => exact owes
    | cons pair batch ih =>
      rw [List.flatMap_cons, List.append_assoc]
      exact owes_pair pair (utf8 pair List.mem_cons_self) _
        (ih fun other member => utf8 other (List.mem_cons_of_mem _ member))
  | command command whole =>
    cases command with
    | set | del | flushDb | hmSet | vAdd =>
      simp [Request.actions, Owes, Action.promised, Action.write, PersistenceCommand.writes, owes]
    | mSetHeader numArgs => cases whole
    | mGetHeader numArgs => cases whole
    | _ => exact owes

theorem sound_actions (request : Request F) (sized : request.Sized) :
    ∀ action ∈ request.actions, action.Sound := by
  intro action member
  cases request with
  | mget keys => simp [Request.actions] at member
  | mset batch =>
    obtain ⟨pair, _, inside⟩ := List.mem_flatMap.mp member
    rw [pairActions] at inside
    cases read : Str.fromUtf8 pair.1 <;>
      simp only [read, List.mem_cons, List.not_mem_nil, or_false] at inside
    · subst inside
      trivial
    · rcases inside with rfl | rfl | rfl <;> trivial
  | command command whole =>
    cases command with
    | mSetHeader numArgs => cases whole
    | mGetHeader numArgs => cases whole
    | hmSet key fields =>
      simp only [Request.actions, List.mem_cons, List.not_mem_nil, or_false] at member
      rcases member with rfl | rfl <;> exact sized
    | set | flushDb =>
      simp only [Request.actions, List.mem_cons, List.not_mem_nil, or_false] at member
      rcases member with rfl | rfl | rfl <;> trivial
    | del | vAdd =>
      simp only [Request.actions, List.mem_cons, List.not_mem_nil, or_false] at member
      rcases member with rfl | rfl <;> trivial
    | _ => simp [Request.actions] at member

end Invariant

section Coherence

variable {ι F : Type} [DecidableEq ι] [FloatArith F]

def Observed.owed (shared : Observed ι F) (i : ι) : List PlainWrite :=
  (shared.unsent.filter fun entry => entry.1 = i).map Prod.snd

-- An action that keeps the log in the order of the store: a buffer is inserted over the entry it
-- was merged from, and what is sent commutes with all that other connections have stored before it
-- and not sent. No hash grows past the count its header can hold.
def InOrder (i : ι) (threads : Threads ι (Observed ι F) (Action F)) : Action F → Prop
  | .insertBuffer key fields found _ =>
      threads.shared.server.db.get (AirKey.fromBytes key.bytes) = found ∧
        HashesFit threads.shared.stored [.hmSet key.bytes (FlatHash.fieldBytes fields)]
  | .send record =>
      HashesFit threads.shared.logged record.writes ∧
        ∀ write ∈ record.writes,
          ∀ earlier ∈ threads.shared.unsent.takeWhile fun entry => entry.1 ≠ i,
            PlainWrite.Commutes earlier.2 write
  | _ => True

structure Coherent (env : Env) (threads : Threads ι (Observed ι F) (Action F)) : Prop where
  held : Represents env.model threads.shared.server.db threads.shared.stored
  ahead : threads.shared.stored =
    threads.shared.logged.writeAll (threads.shared.unsent.map Prod.snd)
  owes : ∀ i, Owes (threads.shared.owed i) (threads.todo i)
  sound : ∀ i, ∀ action ∈ threads.todo i, action.Sound
  fit : HashesFit PlainStore.empty
    (threads.shared.server.queue.flatMap PersistenceCommand.writes)
  sized : ∀ record ∈ threads.shared.server.queue, (Request.ofRecord record).Sized

omit [DecidableEq ι] in
theorem represents_perform (env : Env) (server : Server F) (plain : PlainStore)
    (held : Represents env.model server.db plain) (action : Action F) :
    Represents env.model (server.perform env action).1.db (action.store plain) := by
  cases action with
  | insert codec key value => exact held.insert_encode codec key value
  | remove key => exact held.remove key.bytes
  | clearDb => exact Holds.initial
  | insertBuffer key fields found newBuf =>
    simp only [Server.perform, Server.insert, Db.insert_fromBytes]
    exact held.put key.bytes _ (some (.hash (hashFields newBuf))) (by simp) (by simp)
      fun fields same => ⟨newBuf, rfl, by cases same; rfl⟩
  | send record =>
    simp only [Server.perform, Server.db_send]
    exact held
  | broadcast | clearVectors | merge | addVector => exact held

omit [DecidableEq ι] in
theorem queue_perform (env : Env) (enabled : env.persistence = true) (server : Server F)
    (action : Action F) :
    (server.perform env action).1.queue = server.queue ++ action.records := by
  cases action with
  | send record => exact Server.queue_send env enabled server record
  | _ => exact (List.append_nil _).symm

theorem sound_perform (env : Env) (server : Server F) (action : Action F) (sound : action.Sound) :
    ∀ more ∈ (server.perform env action).2, more.Sound := by
  intro more member
  cases action with
  | merge key fields =>
    obtain rfl := List.mem_singleton.mp member
    exact ⟨sound, env.iter server.maps, rfl⟩
  | _ => cases member

theorem owes_perform (env : Env) (server : Server F) (action : Action F) (rest : List (Action F))
    (owed : List PlainWrite) (owes : Owes owed (action :: rest)) :
    Owes (action.leaves owed) ((server.perform env action).2 ++ rest) := by
  cases action with
  | send record => exact owes.2
  | insert | remove | clearDb | insertBuffer =>
    obtain ⟨rfl, later⟩ := owes
    exact later
  | merge key fields =>
    obtain ⟨rfl, later⟩ := owes
    exact ⟨rfl, later⟩
  | broadcast | clearVectors | addVector =>
    change Owes (owed ++ []) rest
    rwa [List.append_nil]

omit [FloatArith F]

theorem records_inOrder (i : ι) (threads : Threads ι (Observed ι F) (Action F))
    (action : Action F) (sound : action.Sound) (order : InOrder i threads action) :
    HashesFit threads.shared.logged (action.records.flatMap PersistenceCommand.writes) ∧
      ∀ record ∈ action.records, (Request.ofRecord record).Sized := by
  cases action with
  | send record => exact ⟨by simpa [Action.records] using order.1, by simpa [Action.records]⟩
  | _ => simp [Action.records, HashesFit]

theorem store_inOrder (env : Env) (i : ι) (threads : Threads ι (Observed ι F) (Action F))
    (held : Represents env.model threads.shared.server.db threads.shared.stored)
    (action : Action F) (sound : action.Sound) (order : InOrder i threads action) :
    action.store threads.shared.stored =
      threads.shared.stored.writeAll action.write.toList := by
  cases action with
  | insertBuffer key fields found newBuf =>
    obtain ⟨⟨count, sized⟩, iter, rfl⟩ := sound
    obtain ⟨rfl, fits, _⟩ := order
    have merged := held.hashFields_hmSetBuffer iter key.bytes fields count sized (fits _ _ rfl)
    simp only [Action.store, merged]
    rfl
  | _ => rfl

theorem writes_single (record : PersistenceCommand F) : record.writes.length ≤ 1 := by
  cases record <;> simp [PersistenceCommand.writes]

theorem unsent_settle (plain : PlainStore) (unsent : List (ι × PlainWrite)) (i : ι)
    (action : Action F) (owes : ∀ record, action = .send record →
      (unsent.filter fun entry => entry.1 = i).map Prod.snd = record.writes)
    (commutes : ∀ record, action = .send record → ∀ write ∈ record.writes,
      ∀ earlier ∈ unsent.takeWhile fun entry => entry.1 ≠ i,
        PlainWrite.Commutes earlier.2 write) :
    (plain.writeAll (unsent.map Prod.snd)).writeAll action.write.toList =
      (plain.writeAll (action.records.flatMap PersistenceCommand.writes)).writeAll
        ((unsentAfter i unsent action).map Prod.snd) := by
  cases action with
  | send record =>
    simp only [Action.records, Action.write, Option.toList_none, PlainStore.writeAll_nil,
      List.flatMap_cons, List.flatMap_nil, List.append_nil, unsentAfter]
    exact writeAll_settle plain unsent i record.writes (owes record rfl) (writes_single record)
      (commutes record rfl)
  | _ =>
    simp [Action.records, unsentAfter, PlainStore.writeAll_append, Function.comp_def]

theorem filter_unsentAfter (i j : ι) (unsent : List (ι × PlainWrite)) (action : Action F) :
    ((unsentAfter i unsent action).filter fun entry => entry.1 = j).map Prod.snd =
      if j = i then
        action.leaves ((unsent.filter fun entry => entry.1 = j).map Prod.snd)
      else (unsent.filter fun entry => entry.1 = j).map Prod.snd := by
  have others : ((unsent.filter fun entry => entry.1 ≠ i).filter fun entry => entry.1 = j) =
      if j = i then [] else unsent.filter fun entry => entry.1 = j := by
    rw [List.filter_filter]
    split
    next same => simp [same]
    next different =>
      congr 1
      funext entry
      by_cases here : entry.1 = j <;> simp [here, different]
  cases action with
  | send record =>
    simp only [unsentAfter, others, Action.leaves]
    split <;> rfl
  | _ =>
    by_cases same : j = i
    · subst same
      simp [unsentAfter, Action.leaves, Action.write]
    · have other : i ≠ j := fun same' => same same'.symm
      simp [unsentAfter, Action.write, same, other]

variable [FloatArith F]

theorem coherent_step (env : Env) (enabled : env.persistence = true)
    (threads : Threads ι (Observed ι F) (Action F)) (i : ι) (action : Action F)
    (rest : List (Action F)) (coherent : Coherent env threads)
    (turn : threads.todo i = action :: rest) (order : InOrder i threads action) :
    Coherent env (threads.step (observe env) i) := by
  have sound := coherent.sound i action (by rw [turn]; exact List.mem_cons_self)
  have owes := coherent.owes i
  rw [turn] at owes
  obtain ⟨fits, small⟩ := records_inOrder i threads action sound order
  have queue : (observe env i threads.shared action).1.server.queue = _ :=
    queue_perform env enabled threads.shared.server action
  have logged : (observe env i threads.shared action).1.logged =
      threads.shared.logged.writeAll (action.records.flatMap PersistenceCommand.writes) := by
    rw [Observed.logged, queue, List.flatMap_append, PlainStore.writeAll_append]
    rfl
  have owed (j : ι) := filter_unsentAfter i j threads.shared.unsent action
  rw [Threads.step_cons threads i action rest turn]
  constructor
  case held => exact represents_perform env _ _ coherent.held action
  case ahead =>
    have stored : (observe env i threads.shared action).1.stored = _ :=
      store_inOrder env i threads coherent.held action sound order
    have settled := unsent_settle threads.shared.logged threads.shared.unsent i action
      (by rintro record rfl; exact owes.1.symm) (by rintro record rfl; exact order.2)
    rw [← coherent.ahead] at settled
    simp only [stored, logged]
    exact settled
  case owes =>
    intro j
    by_cases same : j = i
    · subst same
      have left := owes_perform env threads.shared.server action rest _ owes
      simp only [Function.update_self]
      rw [Observed.owed]
      exact (owed j).trans (if_pos rfl) ▸ left
    · simp only [Function.update_of_ne same]
      rw [Observed.owed]
      exact (owed j).trans (if_neg same) ▸ coherent.owes j
  case sound =>
    intro j more member
    by_cases same : j = i
    · subst same
      simp only [Function.update_self] at member
      rcases List.mem_append.mp member with left | right
      · exact sound_perform env _ action sound more left
      · exact coherent.sound j more (by rw [turn]; exact List.mem_cons_of_mem _ right)
    · simp only [Function.update_of_ne same] at member
      exact coherent.sound j more member
  case fit =>
    rw [queue, List.flatMap_append, hashesFit_append]
    exact ⟨coherent.fit, fits⟩
  case sized =>
    intro record member
    rw [queue] at member
    rcases List.mem_append.mp member with old | new
    · exact coherent.sized record old
    · exact small record new

omit [FloatArith F] in
theorem coherent_start (env : Env) (numCpus : Nat) (requests : ι → List (Request F))
    (sized : ∀ i, ∀ request ∈ requests i, request.Sized)
    (utf8 : ∀ i, ∀ request ∈ requests i, request.Utf8) :
    Coherent env (connections (Server.new numCpus) requests) where
  held := Holds.initial
  ahead := rfl
  owes i := by
    change Owes [] ((requests i).flatMap Request.actions)
    have keys := utf8 i
    generalize requests i = mine at keys
    induction mine with
    | nil => rfl
    | cons request rest ih =>
      exact owes_actions request (keys request List.mem_cons_self) _
        (ih fun other member => keys other (List.mem_cons_of_mem _ member))
  sound i action member := by
    obtain ⟨request, present, inside⟩ := List.mem_flatMap.mp member
    exact sound_actions request (sized i request present) action inside
  fit := trivial
  sized record member := by cases member

theorem represents_connections (env : Env) (numCpus : Nat) (requests : ι → List (Request F))
    (schedule : List ι) :
    let final := (connections (Server.new numCpus) requests).run (observe env) schedule
    Represents env.model final.shared.server.db final.shared.stored := by
  have preserved (threads : Threads ι (Observed ι F) (Action F)) (i : ι) (action : Action F)
      (rest : List (Action F))
      (held : Represents env.model threads.shared.server.db threads.shared.stored)
      (turn : threads.todo i = action :: rest) (_ : True) :
      Represents env.model (threads.step (observe env) i).shared.server.db
        (threads.step (observe env) i).shared.stored := by
    rw [Threads.step_cons threads i action rest turn]
    exact represents_perform env _ _ held action
  exact Threads.run_invariant preserved _ schedule Holds.initial
    (Threads.along_of_all (fun _ _ _ => trivial) _ schedule)

theorem replay_interleaved (env restarted : Env) (enabled : env.persistence = true) (numCpus : Nat)
    (requests : ι → List (Request F)) (sized : ∀ i, ∀ request ∈ requests i, request.Sized)
    (utf8 : ∀ i, ∀ request ∈ requests i, request.Utf8) (schedule : List ι)
    (ordered : Threads.Along (observe env) InOrder (connections (Server.new numCpus) requests)
      schedule) :
    let final := (connections (Server.new numCpus) requests).run (observe env) schedule
    Represents env.model final.shared.server.db final.shared.stored ∧
      (final.Idle → Represents restarted.model
        ((Server.new numCpus : Server F).replay restarted final.shared.server.queue).db
        final.shared.stored) := by
  intro final
  refine ⟨represents_connections env numCpus requests schedule, fun idle => ?_⟩
  have coherent : Coherent env final :=
    Threads.run_invariant (coherent_step env enabled) _ schedule
      (coherent_start env numCpus requests sized utf8) ordered
  have settled : final.shared.unsent = [] := by
    apply List.eq_nil_iff_forall_not_mem.mpr
    intro entry member
    have owes := coherent.owes entry.1
    rw [idle entry.1] at owes
    have own : entry.2 ∈ final.shared.owed entry.1 :=
      List.mem_map.mpr ⟨entry, List.mem_filter.mpr ⟨member, by simp⟩, rfl⟩
    rw [show final.shared.owed entry.1 = [] from owes] at own
    cases own
  have replayed := Server.represents_replay restarted (Server.new numCpus) PlainStore.empty
    Holds.initial final.shared.server.queue coherent.sized coherent.fit
  rw [coherent.ahead, settled]
  exact replayed

end Coherence

def twoSets (first second : Bytes) (valid : validUtf8 first ∧ validUtf8 second) :
    Bool → List (Request Int)
  | false => [.set ⟨first, valid.1⟩ (ascii "a")]
  | true => [.set ⟨second, valid.2⟩ (ascii "b")]

-- Both store before either sends, and they send in the other order.
def crossing : List Bool := [false, true, false, true, true, false]

def afterCrossing (first second : Bytes) (valid : validUtf8 first ∧ validUtf8 second) :
    Threads Bool (Observed Bool Int) (Action Int) :=
  (connections (Server.new 4) (twoSets first second valid)).run
    (observe (Server.constantEnv 0)) crossing

theorem replay_interleaved_twoKeys :
    Represents (Server.constantEnv 0).model
      ((Server.new 4).replay (Server.constantEnv 0)
        (afterCrossing (ascii "j") (ascii "k") (by decide)).shared.server.queue).db
      (afterCrossing (ascii "j") (ascii "k") (by decide)).shared.stored := by
  refine (replay_interleaved (Server.constantEnv 0) (Server.constantEnv 0) rfl 4
    (twoSets (ascii "j") (ascii "k") (by decide)) ?_ ?_ crossing ?_).2 ?_
  · intro i request member
    cases i <;> obtain rfl := List.mem_singleton.mp member <;> trivial
  · intro i request member
    cases i <;> obtain rfl := List.mem_singleton.mp member <;> trivial
  · refine ⟨?_, ?_, ?_, ?_, ?_, ?_, trivial⟩
    all_goals
      intro action member
      obtain rfl := Option.some.inj member
    · trivial
    · trivial
    · trivial
    · trivial
    · refine ⟨⟨fun _ _ other => (by cases other), trivial⟩,
        fun write sent earlier before => ?_⟩
      obtain rfl := List.mem_singleton.mp sent
      obtain rfl := List.mem_singleton.mp before
      exact PlainWrite.commutes_of_keys _ _ (ascii "j") (ascii "k") rfl rfl (by decide)
    · exact ⟨⟨fun _ _ other => (by cases other), trivial⟩,
        fun write sent earlier before => (by cases before)⟩
  · intro i
    cases i <;> rfl

-- The store keeps the later SET, and the log replays the earlier one.
theorem crossing_sets :
    let final := afterCrossing (ascii "k") (ascii "k") (by decide)
    final.Idle ∧ ¬ Represents (Server.constantEnv 0).model
      ((Server.new 4).replay (Server.constantEnv 0) final.shared.server.queue).db
      final.shared.stored := by
  intro final
  refine ⟨fun i => by cases i <;> rfl, fun held => ?_⟩
  obtain ⟨codec, stored⟩ := held.string (ascii "k") (ascii "b") rfl
  cases codec <;> revert stored <;> decide +kernel

end OmegaDrive
