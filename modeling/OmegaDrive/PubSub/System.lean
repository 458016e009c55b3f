import OmegaDrive.Connection.Interleaving
import OmegaDrive.PubSub.Subscription

set_option autoImplicit false

namespace OmegaDrive

/-- What another part of the process does not do for the WebSocket connection. -/
def WsEvent.Own : WsEvent → Prop
  | .publish _ _ => False
  | _ => True

structure Process (ι F : Type) where
  threads : Threads ι (Observed ι F) (Action F)
  socket : WebSocket

inductive ProcessEvent (ι : Type) where
  | turn (i : ι)
  | socket (event : { event : WsEvent // event.Own })

def Action.said {F : Type} : Action F → List (Str × Bytes)
  | .broadcast key payload => [(key, payload)]
  | _ => []

-- The updates that a request announces: MSET has none for a key that is no UTF-8.
def Request.announces {F : Type} : Request F → List (Str × Bytes)
  | .command (.set key value) _ => [(key, value)]
  | .mset batch => batch.filterMap fun pair => (Str.fromUtf8 pair.1).map fun key => (key, pair.2)
  | _ => []

namespace Process

variable {ι F : Type} [DecidableEq ι] [FloatArith F]

def start (server : Server F) (requests : ι → List (Request F)) : Process ι F :=
  { threads := connections server requests, socket := .start fun _ => none }

def seen (process : Process ι F) : ProcessEvent ι → List WsEvent
  | .turn i => ((process.threads.todo i).head?.toList.flatMap Action.said).map fun pair =>
      .publish pair.1 pair.2
  | .socket event => [event.1]

def step (env : Env) (fromStr : Str → Option WsAction) (process : Process ι F)
    (event : ProcessEvent ι) : Process ι F :=
  { threads := match event with
      | .turn i => process.threads.step (observe env) i
      | .socket _ => process.threads
    socket := Steps.run (WebSocket.step fromStr) process.socket (process.seen event) }

def broadcasts (process : Process ι F) : List (Str × Bytes) := process.threads.shared.server.broadcasts

-- What the broadcasts say of one key, in their order.
def valuesOf (key : Str) : List (Str × Bytes) → List Bytes :=
  List.filterMap fun pair => if pair.1 = key then some pair.2 else none

theorem valuesOf_append (key : Str) (first second : List (Str × Bytes)) :
    valuesOf key (first ++ second) = valuesOf key first ++ valuesOf key second :=
  List.filterMap_append

-- A topic has the latest of what was broadcast for its key: nothing from before its entry.
def Followed (process : Process ι F) : Prop :=
  ∀ key, process.socket.registry.sent key <:+ valuesOf key process.broadcasts

theorem sent_own (fromStr : Str → Option WsAction) (socket : WebSocket) (event : WsEvent)
    (own : event.Own) (key : Str) :
    (socket.step fromStr event).registry.sent key = socket.registry.sent key := by
  cases event with
  | publish => exact own.elim
  | entry name => exact TopicRegistry.sent_orInsert _ _ _
  | receive message =>
    simp only [WebSocket.step, WebSocket.receive]
    repeat' split
    all_goals rfl
  | read =>
    cases at' : socket.reader with
    | entering name =>
      simp only [WebSocket.step, WebSocket.read, at']
      exact TopicRegistry.sent_orInsert _ _ _
    | acking name =>
      simp only [WebSocket.step, WebSocket.read, at']
      split <;> rfl
    | _ => simp only [WebSocket.step, WebSocket.read, at']
  | recv i => rfl
  | forward i =>
    simp only [WebSocket.step, WebSocket.forward]
    repeat' split
    all_goals rfl
  | pull =>
    simp only [WebSocket.step, WebSocket.pull]
    split <;> rfl
  | push sent =>
    simp only [WebSocket.step, WebSocket.push]
    repeat' split
    all_goals rfl

theorem sent_publish (registry : TopicRegistry) (name key : Str) (payload : Bytes) (all : List Bytes)
    (followed : registry.sent key <:+ all) :
    (registry.broadcastUpdate name payload).sent key <:+
      all ++ valuesOf key [(name, payload)] := by
  unfold TopicRegistry.broadcastUpdate
  by_cases same : name = key
  · subst same
    have one : valuesOf name [(name, payload)] = [payload] := by simp [valuesOf]
    rw [one]
    cases found : registry name with
    | none =>
      simp only [TopicRegistry.sent, found]
      exact List.nil_suffix
    | some topic =>
      rw [TopicRegistry.sent_some found] at followed
      obtain ⟨before, rfl⟩ := followed
      simp [TopicRegistry.sent]
  · have none : valuesOf key [(name, payload)] = [] := by simp [valuesOf, same]
    rw [none, List.append_nil]
    split
    next => simpa [TopicRegistry.sent, Ne.symm same] using followed
    next => exact followed

theorem broadcasts_observe (env : Env) (i : ι) (shared : Observed ι F) (action : Action F) :
    (observe env i shared action).1.server.broadcasts =
      shared.server.broadcasts ++ action.said := by
  cases action with
  | broadcast key payload => rfl
  | send record =>
    simp only [observe, Server.perform, Server.send]
    split <;> simp [Action.said]
  | _ => simp [observe, Server.perform, Server.insert, Server.remove, Server.clearDb,
      Server.clearVectors, Server.mergeHash, Server.addVector, Action.said]

theorem said_more (env : Env) (i : ι) (shared : Observed ι F) (action : Action F) :
    ∀ more ∈ (observe env i shared action).2, more.said = [] := by
  cases action with
  | merge key fields =>
    intro more member
    rw [List.mem_singleton.mp member]
    rfl
  | _ => exact fun _ member => nomatch member

omit [FloatArith F] in
theorem said_actions (request : Request F) :
    request.actions.flatMap Action.said = request.announces := by
  cases request with
  | mget keys => rfl
  | mset batch =>
    induction batch with
    | nil => rfl
    | cons pair batch ih =>
      simp only [Request.actions, Request.announces, List.flatMap_cons, List.flatMap_append] at ih ⊢
      rw [ih, List.filterMap_cons, pairActions]
      cases Str.fromUtf8 pair.1 <;> rfl
  | command command whole =>
    cases command with
    | mSetHeader => cases whole
    | mGetHeader => cases whole
    | _ => rfl

theorem turn_cases (env : Env) (fromStr : Str → Option WsAction) (process : Process ι F) (i : ι) :
    (process.seen (.turn i) = [] ∧ process.step env fromStr (.turn i) = process) ∨
      ∃ action rest more, process.threads.todo i = action :: rest ∧
        (∀ later ∈ more, Action.said later = []) ∧
        (process.step env fromStr (.turn i)).threads.todo =
          Function.update process.threads.todo i (more ++ rest) ∧
        (process.step env fromStr (.turn i)).broadcasts = process.broadcasts ++ action.said ∧
        process.seen (.turn i) = action.said.map fun pair => .publish pair.1 pair.2 := by
  cases turn : process.threads.todo i with
  | nil =>
    have nothing : process.seen (.turn i) = [] := by simp [seen, turn]
    refine .inl ⟨nothing, ?_⟩
    rw [step, nothing, Threads.step_nil _ i turn]
    rfl
  | cons action rest =>
    refine .inr ⟨action, rest, (observe env i process.threads.shared action).2, rfl,
      said_more env i _ action, ?_, ?_, ?_⟩
    · rw [step, Threads.step_cons _ i action rest turn]
    · rw [broadcasts, step, Threads.step_cons _ i action rest turn]
      exact broadcasts_observe env i _ action
    · simp [seen, turn]

theorem followed_step (env : Env) (fromStr : Str → Option WsAction) (process : Process ι F)
    (event : ProcessEvent ι) (followed : Followed process) :
    Followed (process.step env fromStr event) := by
  intro key
  cases event with
  | socket event =>
    have same := sent_own fromStr process.socket event.1 event.2 key
    have now := followed key
    rw [← same] at now
    exact now
  | turn i =>
    obtain ⟨-, same⟩ | ⟨action, rest, more, -, -, -, told, saw⟩ := turn_cases env fromStr process i
    · rw [same]
      exact followed key
    · rw [told, valuesOf_append, step, saw]
      cases action with
      | broadcast name payload => exact sent_publish _ name key payload _ (followed key)
      | _ => simpa [Action.said, Steps.run, valuesOf] using followed key

structure Sourced (requests : ι → List (Request F)) (process : Process ι F) : Prop where
  told : ∀ pair ∈ process.broadcasts, ∃ i, ∃ request ∈ requests i, pair ∈ request.announces
  telling : ∀ i, ∀ action ∈ process.threads.todo i, ∀ pair ∈ action.said,
    ∃ request ∈ requests i, pair ∈ request.announces
  owed : ∀ i, ∀ request ∈ requests i, ∀ pair ∈ request.announces,
    pair ∈ process.broadcasts ∨ ∃ action ∈ process.threads.todo i, pair ∈ action.said

theorem sourced_step (env : Env) (fromStr : Str → Option WsAction)
    (requests : ι → List (Request F)) (process : Process ι F) (event : ProcessEvent ι)
    (sourced : Sourced requests process) : Sourced requests (process.step env fromStr event) := by
  cases event with
  | socket event => exact ⟨sourced.told, sourced.telling, sourced.owed⟩
  | turn i =>
    obtain ⟨-, same⟩ | ⟨action, rest, more, turn, silent, todo, told, -⟩ :=
      turn_cases env fromStr process i
    · rwa [same]
    · refine ⟨fun pair member => ?_, fun j later member pair said => ?_,
        fun j request member pair announced => ?_⟩
      · rw [told] at member
        obtain old | new := List.mem_append.mp member
        · exact sourced.told pair old
        · exact ⟨i, sourced.telling i action (by rw [turn]; exact List.mem_cons_self) pair new⟩
      · rw [todo] at member
        by_cases here : j = i
        · subst here
          rw [Function.update_self] at member
          obtain fresh | old := List.mem_append.mp member
          · rw [silent later fresh] at said
            cases said
          · exact sourced.telling j later (by rw [turn]; exact List.mem_cons_of_mem _ old) pair said
        · rw [Function.update_of_ne here] at member
          exact sourced.telling j later member pair said
      · rw [told, todo]
        obtain done | ⟨later, member', said⟩ := sourced.owed j request member pair announced
        · exact .inl (List.mem_append_left _ done)
        · by_cases here : j = i
          · subst here
            rw [turn] at member'
            rw [Function.update_self]
            obtain rfl | old := List.mem_cons.mp member'
            · exact .inl (List.mem_append_right _ said)
            · exact .inr ⟨later, List.mem_append_right _ old, said⟩
          · rw [Function.update_of_ne here]
            exact .inr ⟨later, member', said⟩

theorem filterMap_getElem? {α : Type} (items : List α) (numbers : List Nat) (first : Nat)
    (increasing : numbers.Pairwise (· < ·)) (from' : ∀ number ∈ numbers, first ≤ number) :
    (numbers.filterMap (items[·]?)).Sublist (items.drop first) := by
  induction numbers generalizing first with
  | nil => exact List.nil_sublist _
  | cons number numbers ih =>
    obtain ⟨least, rest⟩ := List.pairwise_cons.mp increasing
    have later := ih (number + 1) rest least
    have reached : (items.drop number).Sublist (items.drop first) := by
      obtain ⟨skipped, rfl⟩ := Nat.exists_eq_add_of_le (from' number List.mem_cons_self)
      rw [← List.drop_drop]
      exact List.drop_sublist skipped _
    apply List.Sublist.trans _ reached
    cases here : items[number]? with
    | none =>
      rw [List.filterMap_cons_none here]
      exact later.trans (by rw [← List.drop_drop]; exact List.drop_sublist 1 _)
    | some item =>
      obtain ⟨inside, same⟩ := List.getElem?_eq_some_iff.mp here
      rw [List.filterMap_cons_some here, List.drop_eq_getElem_cons inside, same]
      exact later.cons_cons item

def updates (key : Str) (registry : TopicRegistry) (history : List Trace) : List Bytes :=
  (WebSocket.numbers key history).filterMap ((registry.sent key)[·]?)

theorem mem_valuesOf {key : Str} {payload : Bytes} {pairs : List (Str × Bytes)}
    (member : payload ∈ valuesOf key pairs) : (key, payload) ∈ pairs := by
  obtain ⟨pair, there, same⟩ := List.mem_filterMap.mp member
  split at same
  next name =>
    obtain rfl := Option.some.inj same
    rwa [← name]
  next => cases same

theorem mem_payloads {registry : TopicRegistry} {history : List Trace} {frame : Bytes}
    (member : frame ∈ WebSocket.payloads registry history) :
    ∃ key, (WebSocket.acks key history ≠ [] ∧ frame = ack key) ∨
      (WebSocket.numbers key history ≠ [] ∧ frame ∈ registry.sent key) := by
  obtain ⟨trace, there, same⟩ := List.mem_filterMap.mp member
  cases trace with
  | acked key =>
    refine ⟨key, .inl ⟨fun none => ?_, (Option.some.inj same).symm⟩⟩
    have absent := List.filterMap_eq_nil_iff.mp none _ there
    simp at absent
  | queued key number =>
    refine ⟨key, .inr ⟨fun none => ?_, List.mem_of_getElem? same⟩⟩
    have absent := List.filterMap_eq_nil_iff.mp none _ there
    simp at absent
  | subscribed => cases same
  | skipped => cases same

theorem updates_sublist (env : Env) (fromStr : Str → Option WsAction) (numCpus : Nat)
    (requests : ι → List (Request F)) (events : List (ProcessEvent ι)) (key : Str) :
    let first : Process ι F := start (Server.new numCpus) requests
    let process := Steps.run (step env fromStr) first events
    let history := WebSocket.history fromStr first.socket
      (Steps.outputs (step env fromStr) seen first events)
    (updates key process.socket.registry history).Sublist (valuesOf key process.broadcasts) := by
  intro first process history
  have socket : process.socket = Steps.run (WebSocket.step fromStr) first.socket
      (Steps.outputs (step env fromStr) seen first events) :=
    Steps.run_project Process.socket seen (fun _ _ => rfl) first events
  have followed : Followed process := Steps.run_always (followed_step env fromStr) first events
    fun _ => List.nil_suffix
  have stage : WebSocket.Stage key process.socket history := by
    rw [socket]
    exact WebSocket.stage_run key fromStr _ _
  apply List.Sublist.trans _ (followed key).sublist
  by_cases none : WebSocket.starts key history = []
  · rw [updates, ((WebSocket.delivered_stage stage).2.1 none).2]
    exact List.nil_sublist _
  · obtain ⟨start, there⟩ := List.exists_mem_of_ne_nil _ none
    have delivered := ((WebSocket.delivered_stage stage).2.2 start there).2
    exact filterMap_getElem? _ _ 0 delivered.increasing fun _ _ => Nat.zero_le _

theorem announced (env : Env) (fromStr : Str → Option WsAction) (numCpus : Nat)
    (requests : ι → List (Request F)) (events : List (ProcessEvent ι)) :
    let first : Process ι F := start (Server.new numCpus) requests
    let process := Steps.run (step env fromStr) first events
    let history := WebSocket.history fromStr first.socket
      (Steps.outputs (step env fromStr) seen first events)
    (∀ key, (updates key process.socket.registry history).Sublist
        (valuesOf key process.broadcasts)) ∧
      (∀ pair ∈ process.broadcasts, ∃ i, ∃ request ∈ requests i, pair ∈ request.announces) ∧
      (∀ i, process.threads.todo i = [] → ∀ request ∈ requests i, ∀ pair ∈ request.announces,
        pair ∈ process.broadcasts) ∧
      ∀ frame ∈ process.socket.frames, ∃ key, WebSocket.starts key history ≠ [] ∧
        (frame = ack key ∨ ∃ i, ∃ request ∈ requests i, (key, frame) ∈ request.announces) := by
  intro first process history
  have socket : process.socket = Steps.run (WebSocket.step fromStr) first.socket
      (Steps.outputs (step env fromStr) seen first events) :=
    Steps.run_project Process.socket seen (fun _ _ => rfl) first events
  have followed : Followed process := Steps.run_always (followed_step env fromStr) first events
    fun _ => List.nil_suffix
  have sourced : Sourced requests process :=
    Steps.run_always (sourced_step env fromStr requests) first events
      { told := fun _ member => nomatch member
        telling := fun i action member pair said => by
          obtain ⟨request, mine, there⟩ := List.mem_flatMap.mp member
          refine ⟨request, mine, ?_⟩
          rw [← said_actions]
          exact List.mem_flatMap.mpr ⟨action, there, said⟩
        owed := fun i request mine pair announced => by
          rw [← said_actions] at announced
          obtain ⟨action, there, said⟩ := List.mem_flatMap.mp announced
          exact .inr ⟨action, List.mem_flatMap.mpr ⟨request, mine, there⟩, said⟩ }
  have stage (key : Str) : WebSocket.Stage key process.socket history := by
    rw [socket]
    exact WebSocket.stage_run key fromStr _ _
  refine ⟨updates_sublist env fromStr numCpus requests events, sourced.told,
    fun i idle request mine pair announced => ?_, fun frame member => ?_⟩
  · obtain done | ⟨action, member, _⟩ := sourced.owed i request mine pair announced
    · exact done
    · rw [idle] at member
      cases member
  · have on : WebSocket.OnLine process.socket history := by
      rw [socket]
      exact WebSocket.onLine_run fromStr _ _
    have line : frame ∈ process.socket.line := by
      rw [WebSocket.line, List.append_assoc]
      exact List.mem_append_left _ member
    obtain ⟨key, ⟨acked, same⟩ | ⟨numbered, sent⟩⟩ := mem_payloads (on.ahead.subset line)
    · refine ⟨key, fun none => acked ?_, .inl same⟩
      exact ((WebSocket.delivered_stage (stage key)).2.1 none).1
    · refine ⟨key, fun none => numbered ?_, .inr ?_⟩
      · exact ((WebSocket.delivered_stage (stage key)).2.1 none).2
      · exact sourced.told _ (mem_valuesOf ((followed key).sublist.subset sent))

end Process

end OmegaDrive
