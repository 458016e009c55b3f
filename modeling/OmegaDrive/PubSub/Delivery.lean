import OmegaDrive.PubSub.WebSocket

set_option autoImplicit false

namespace OmegaDrive

namespace TopicRegistry

def sent (registry : TopicRegistry) (key : Str) : List Bytes :=
  match registry key with
  | some topic => topic.sent
  | none => []

theorem sent_some {registry : TopicRegistry} {key : Str} {topic : Topic}
    (found : registry key = some topic) : registry.sent key = topic.sent := by
  rw [sent, found]

theorem subscribe_eq (registry : TopicRegistry) (key : Str) :
    registry.subscribe key = (registry.sent key).length := by
  rw [subscribe, sent]
  cases registry key <;> rfl

theorem sent_orInsert (registry : TopicRegistry) (key other : Str) :
    (registry.orInsert key).sent other = registry.sent other := by
  unfold orInsert
  split
  next => rfl
  next none =>
    by_cases same : other = key
    · subst same
      simp [sent, none]
    · simp [sent, same]

theorem sent_broadcastUpdate (registry : TopicRegistry) (key other : Str) (payload : Bytes) :
    registry.sent other <+: (registry.broadcastUpdate key payload).sent other := by
  unfold broadcastUpdate
  split
  next topic found =>
    by_cases same : other = key
    · subst same
      simp [sent, found]
    · simp [sent, same]
  next => exact List.prefix_refl _

theorem recv_message {registry : TopicRegistry} {key : Str} {next later : Nat} {payload : Bytes}
    (received : registry.recv key next = .message payload later) :
    later = next + 1 ∧ (registry.sent key)[next]? = some payload := by
  unfold recv at received
  split at received
  next topic found =>
    rw [sent_some found]
    unfold Topic.recv at received
    split at received
    next => cases received
    next =>
      split at received
      next message inside =>
        cases received
        exact ⟨rfl, inside⟩
      next => cases received
  next => cases received

theorem recv_lagged {registry : TopicRegistry} {key : Str} {next later : Nat}
    (received : registry.recv key next = .lagged later) :
    next < later ∧ later ≤ (registry.sent key).length := by
  unfold recv at received
  split at received
  next topic found =>
    rw [sent_some found]
    unfold Topic.recv at received
    have oldest := Nat.sub_le topic.sent.length Topic.capacity
    generalize topic.sent.length - Topic.capacity = first at received oldest
    split at received
    next behind =>
      obtain rfl := Received.lagged.inj received
      exact ⟨behind, oldest⟩
    next => split at received <;> cases received
  next => cases received

end TopicRegistry

inductive Trace where
  | subscribed (key : Str) (number : Nat)
  | acked (key : Str)
  -- an update of the topic, by its number, is in the client's queue
  | queued (key : Str) (number : Nat)
  | skipped (key : Str) (count : Nat)

namespace WebSocket

def trace (socket : WebSocket) : WsEvent → List Trace
  | .read =>
    match socket.reader with
    | .subscribing key => [.subscribed key (socket.registry.subscribe key)]
    | .acking key =>
      match socket.send (ack key) with
      | .queued _ => [.acked key]
      | _ => []
    | _ => []
  | .recv i =>
    match socket.forwarders[i]? with
    | some { key, next, held := none, running := true } =>
      match socket.registry.recv key next with
      | .lagged later => [.skipped key (later - next)]
      | _ => []
    | _ => []
  | .forward i =>
    match socket.forwarders[i]? with
    | some { key, next, held := some message, running := true } =>
      match socket.send message with
      | .queued _ => [.queued key (next - 1)]
      | _ => []
    | _ => []
  | _ => []

def history (fromStr : Str → Option WsAction) (socket : WebSocket) (events : List WsEvent) :
    List Trace :=
  Steps.outputs (step fromStr) trace socket events

def starts (key : Str) : List Trace → List Nat :=
  List.filterMap fun
    | .subscribed name number => if name = key then some number else none
    | _ => none

def acks (key : Str) : List Trace → List Unit :=
  List.filterMap fun
    | .acked name => if name = key then some () else none
    | _ => none

def numbers (key : Str) : List Trace → List Nat :=
  List.filterMap fun
    | .queued name number => if name = key then some number else none
    | _ => none

def skips (key : Str) (history : List Trace) : Nat :=
  (history.filterMap fun
    | .skipped name count => if name = key then some count else none
    | _ => none).sum

def payloads (registry : TopicRegistry) : List Trace → List Bytes :=
  List.filterMap fun
    | .acked key => some (ack key)
    | .queued key number => (registry.sent key)[number]?
    | _ => none

def Held (socket : WebSocket) : Prop :=
  ∀ forwarder ∈ socket.forwarders, ∀ payload, forwarder.held = some payload →
    0 < forwarder.next ∧ (socket.registry.sent forwarder.key)[forwarder.next - 1]? = some payload

structure OnLine (socket : WebSocket) (history : List Trace) : Prop where
  held : Held socket
  known : ∀ key number, .queued key number ∈ history →
    number < (socket.registry.sent key).length
  ahead : socket.line <+: payloads socket.registry history
  whole : socket.closed = false → socket.line = payloads socket.registry history

theorem payloads_append (registry : TopicRegistry) (first second : List Trace) :
    payloads registry (first ++ second) = payloads registry first ++ payloads registry second :=
  List.filterMap_append

theorem getElem?_grown {old new : List Bytes} (grown : old <+: new) (i : Nat)
    (inside : i < old.length) : new[i]? = old[i]? := by
  obtain ⟨more, rfl⟩ := grown
  exact List.getElem?_append_left inside

theorem payloads_grown {old new : TopicRegistry} {history : List Trace}
    (grown : ∀ key, old.sent key <+: new.sent key)
    (known : ∀ key number, .queued key number ∈ history → number < (old.sent key).length) :
    payloads new history = payloads old history := by
  apply List.filterMap_congr
  intro trace member
  cases trace with
  | queued key number => exact getElem?_grown (grown key) number (known key number member)
  | _ => rfl

theorem OnLine.same {socket after : WebSocket} {history : List Trace} (on : OnLine socket history)
    (grown : ∀ key, socket.registry.sent key <+: after.registry.sent key)
    (forwarders : ∀ forwarder ∈ after.forwarders,
      forwarder ∈ socket.forwarders ∨ forwarder.held = none)
    (line : after.line = socket.line) (closed : after.closed = socket.closed) :
    OnLine after history := by
  have still := payloads_grown grown on.known
  refine ⟨fun forwarder member payload holds => ?_, fun key number member => ?_, ?_, ?_⟩
  · obtain old | empty := forwarders forwarder member
    · obtain ⟨positive, there⟩ := on.held forwarder old payload holds
      refine ⟨positive, ?_⟩
      rw [getElem?_grown (grown _) _ (List.getElem?_eq_some_iff.mp there).1, there]
    · rw [empty] at holds
      cases holds
  · exact Nat.lt_of_lt_of_le (on.known key number member) (grown key).length_le
  · rw [line, still]
    exact on.ahead
  · rw [line, closed, still]
    exact on.whole

theorem OnLine.enter {socket : WebSocket} {history : List Trace} (on : OnLine socket history)
    (forwarders : List Forwarder) (reader : Reader) (trace : Trace) (payload : Bytes)
    (clears : ∀ forwarder ∈ forwarders, forwarder ∈ socket.forwarders ∨ forwarder.held = none)
    (open' : socket.closed = false)
    (known : ∀ key number, trace = .queued key number →
      number < (socket.registry.sent key).length)
    (content : payloads socket.registry [trace] = [payload]) :
    OnLine { socket with forwarders, reader, clientQueue := socket.clientQueue ++ [payload] }
      (history ++ [trace]) := by
  have grown : socket.line ++ [payload] = payloads socket.registry (history ++ [trace]) := by
    rw [payloads_append, content, on.whole open']
  have line : line { socket with forwarders, reader, clientQueue := socket.clientQueue ++ [payload] } =
      socket.line ++ [payload] := by
    simp [WebSocket.line]
  refine ⟨fun forwarder member message holds => ?_, fun key number member => ?_, ?_, fun _ => ?_⟩
  · obtain old | empty := clears forwarder member
    · exact on.held forwarder old message holds
    · rw [empty] at holds
      cases holds
  · obtain old | new := List.mem_append.mp member
    · exact on.known key number old
    · exact known key number (List.mem_singleton.mp new).symm
  · exact (line.trans grown) ▸ List.prefix_refl _
  · exact line.trans grown

theorem OnLine.note {socket : WebSocket} {history : List Trace} (on : OnLine socket history)
    (trace : Trace) (quiet : ∀ key number, trace ≠ .queued key number)
    (content : payloads socket.registry [trace] = []) : OnLine socket (history ++ [trace]) := by
  have nothing : payloads socket.registry (history ++ [trace]) = payloads socket.registry history := by
    rw [payloads_append, content, List.append_nil]
  refine ⟨on.held, fun key number member => ?_, by rw [nothing]; exact on.ahead,
    fun open' => by rw [nothing]; exact on.whole open'⟩
  obtain old | new := List.mem_append.mp member
  · exact on.known key number old
  · exact absurd (List.mem_singleton.mp new).symm (quiet key number)

theorem onLine_receive (fromStr : Str → Option WsAction) (socket : WebSocket)
    (message : Option WsMessage) (history : List Trace) (on : OnLine socket history) :
    OnLine (socket.receive fromStr message) history := by
  unfold receive
  split
  next => exact on.same (fun _ => List.prefix_refl _) (fun _ => .inl) rfl rfl
  next =>
    split
    next =>
      split
      next => exact on
      next => exact on.same (fun _ => List.prefix_refl _) (fun _ => .inl) rfl rfl
    next => exact on
  next => exact on

theorem onLine_read (socket : WebSocket) (history : List Trace) (on : OnLine socket history) :
    OnLine socket.read (history ++ socket.trace .read) := by
  cases at' : socket.reader with
  | entering key =>
    simp only [read, trace, at', List.append_nil]
    refine on.same (fun other => ?_) (fun _ => .inl) rfl rfl
    simp only [TopicRegistry.sent_orInsert]
    exact List.prefix_refl _
  | subscribing key =>
    simp only [read, trace, at']
    have noted := on.note (.subscribed key (socket.registry.subscribe key))
      (fun _ _ same => by cases same) rfl
    exact noted.same (fun _ => List.prefix_refl _) (fun _ => .inl) rfl rfl
  | spawning key next =>
    simp only [read, trace, at', List.append_nil]
    refine on.same (fun _ => List.prefix_refl _) (fun forwarder member => ?_) rfl rfl
    obtain old | new := List.mem_append.mp member
    · exact .inl old
    · exact .inr (by rw [List.mem_singleton.mp new])
  | acking key =>
    cases sent : socket.send (ack key) with
    | queued clientQueue =>
      obtain ⟨open', rfl⟩ := send_queued socket _ _ sent
      simp only [read, trace, at', sent]
      exact on.enter _ _ (.acked key) _ (fun _ => .inl) open' (fun _ _ same => by cases same) rfl
    | full =>
      simp only [read, trace, at', sent, List.append_nil]
      exact on
    | gone =>
      simp only [read, trace, at', sent, List.append_nil]
      exact on.same (fun _ => List.prefix_refl _) (fun _ => .inl) rfl rfl
  | waiting =>
    simp only [read, trace, at', List.append_nil]
    exact on
  | ended =>
    simp only [read, trace, at', List.append_nil]
    exact on

theorem recv_cases (socket : WebSocket) (i : Nat) (forwarder : Forwarder)
    (at' : socket.forwarders[i]? = some forwarder) :
    (socket.recv forwarder = forwarder ∧ socket.trace (.recv i) = []) ∨
      ((forwarder.held = none ∧ forwarder.running = true) ∧ ∃ payload,
        (socket.registry.sent forwarder.key)[forwarder.next]? = some payload ∧
        socket.recv forwarder =
          { forwarder with held := some payload, next := forwarder.next + 1 } ∧
        socket.trace (.recv i) = []) ∨
      ((forwarder.held = none ∧ forwarder.running = true) ∧ ∃ later, forwarder.next < later ∧
        later ≤ (socket.registry.sent forwarder.key).length ∧
        socket.recv forwarder = { forwarder with next := later } ∧
        socket.trace (.recv i) = [.skipped forwarder.key (later - forwarder.next)]) := by
  obtain ⟨key, next, held, running⟩ := forwarder
  cases held with
  | some payload => exact .inl ⟨rfl, by simp only [trace, at']⟩
  | none =>
    cases running with
    | false => exact .inl ⟨rfl, by simp only [trace, at']⟩
    | true =>
      cases received : socket.registry.recv key next with
      | message payload later =>
        obtain ⟨rfl, there⟩ := TopicRegistry.recv_message received
        refine .inr (.inl ⟨⟨rfl, rfl⟩, payload, there, ?_, ?_⟩)
        · simp only [recv, received]
        · simp only [trace, at', received]
      | lagged later =>
        obtain ⟨behind, fits⟩ := TopicRegistry.recv_lagged received
        refine .inr (.inr ⟨⟨rfl, rfl⟩, later, behind, fits, ?_, ?_⟩)
        · simp only [recv, received]
        · simp only [trace, at', received]
      | empty =>
        refine .inl ⟨?_, ?_⟩
        · simp only [recv, received]
        · simp only [trace, at', received]

theorem key_recv (socket : WebSocket) (forwarder : Forwarder) :
    (socket.recv forwarder).key = forwarder.key := by
  unfold recv
  split
  next => split <;> rfl
  next => rfl

theorem held_recv (socket : WebSocket) (i : Nat) (held : Held socket) :
    Held { socket with forwarders := socket.forwarders.modify i socket.recv } := by
  intro forwarder member payload holds
  obtain ⟨j, at'⟩ := List.mem_iff_getElem?.mp member
  rw [List.getElem?_modify, Option.map_eq_map, Option.map_eq_some_iff] at at'
  obtain ⟨before, there, rfl⟩ := at'
  have old := held before (List.mem_of_getElem? there)
  split at holds
  next same =>
    subst same
    rw [if_pos rfl]
    obtain ⟨still, -⟩ | ⟨-, message, next, after, -⟩ | ⟨⟨empty, -⟩, later, -, -, after, -⟩ :=
      socket.recv_cases i before there
    · rw [still] at holds ⊢
      exact old payload holds
    · rw [after] at holds ⊢
      obtain rfl := Option.some.inj holds
      exact ⟨Nat.succ_pos _, next⟩
    · rw [after] at holds
      exact absurd (empty.symm.trans holds) (Option.some_ne_none payload).symm
  next other =>
    rw [if_neg other]
    exact old payload holds

theorem onLine_recv (socket : WebSocket) (i : Nat) (history : List Trace)
    (on : OnLine socket history) :
    OnLine { socket with forwarders := socket.forwarders.modify i socket.recv }
      (history ++ socket.trace (.recv i)) := by
  have moved : OnLine { socket with forwarders := socket.forwarders.modify i socket.recv } history :=
    ⟨held_recv socket i on.held, on.known, on.ahead, on.whole⟩
  cases at' : socket.forwarders[i]? with
  | none => simpa only [trace, at', List.append_nil] using moved
  | some forwarder =>
    obtain ⟨-, none⟩ | ⟨-, _, -, -, none⟩ | ⟨-, later, -, -, -, one⟩ :=
      socket.recv_cases i forwarder at'
    · rwa [none, List.append_nil]
    · rwa [none, List.append_nil]
    · rw [one]
      exact moved.note _ (fun _ _ same => nomatch same) rfl

theorem mem_set {forwarders : List Forwarder} {i : Nat} {changed forwarder : Forwarder}
    (empty : changed.held = none) (member : forwarder ∈ forwarders.set i changed) :
    forwarder ∈ forwarders ∨ forwarder.held = none := by
  obtain old | rfl := List.mem_or_eq_of_mem_set member
  · exact .inl old
  · exact .inr empty

theorem onLine_forward (socket : WebSocket) (i : Nat) (history : List Trace)
    (on : OnLine socket history) :
    OnLine (socket.forward i) (history ++ socket.trace (.forward i)) := by
  cases at' : socket.forwarders[i]? with
  | none =>
    simp only [forward, trace, at', List.append_nil]
    exact on
  | some forwarder =>
    obtain ⟨key, next, held, running⟩ := forwarder
    cases held with
    | none =>
      simp only [forward, trace, at', List.append_nil]
      exact on
    | some message =>
      cases running with
      | false =>
        simp only [forward, trace, at', List.append_nil]
        exact on
      | true =>
        obtain ⟨positive, there⟩ := on.held _ (List.mem_of_getElem? at') message rfl
        cases sent : socket.send message with
        | queued clientQueue =>
          obtain ⟨open', rfl⟩ := send_queued socket _ _ sent
          simp only [forward, trace, at', sent]
          refine on.enter _ _ (.queued key (next - 1)) message (fun _ => mem_set rfl) open' ?_ ?_
          · rintro _ _ ⟨rfl, rfl⟩
            exact (List.getElem?_eq_some_iff.mp there).1
          · simp only [payloads, List.filterMap_cons, there, List.filterMap_nil]
        | full =>
          simp only [forward, trace, at', sent, List.append_nil]
          exact on
        | gone =>
          simp only [forward, trace, at', sent, List.append_nil]
          exact on.same (fun _ => List.prefix_refl _) (fun _ => mem_set rfl) rfl rfl

theorem onLine_push (socket : WebSocket) (sent : Bool) (history : List Trace)
    (on : OnLine socket history) : OnLine (socket.push sent) history := by
  cases pushing : socket.pushing with
  | none =>
    rw [push, pushing]
    exact on
  | some message =>
    rw [push, pushing]
    cases sent with
    | true =>
      refine on.same (fun _ => List.prefix_refl _) (fun _ => .inl) ?_ rfl
      simp [line, pushing]
    | false =>
      -- what the pusher had not sent is dropped with the queue
      refine ⟨on.held, on.known, ?_, fun open' => by cases open'⟩
      apply List.IsPrefix.trans _ on.ahead
      simp [line]

theorem onLine_step (fromStr : Str → Option WsAction) (socket : WebSocket) (history : List Trace)
    (event : WsEvent) (on : OnLine socket history) :
    OnLine (socket.step fromStr event) (history ++ socket.trace event) := by
  cases event with
  | publish key payload =>
    simp only [trace, List.append_nil]
    exact on.same (fun other => TopicRegistry.sent_broadcastUpdate _ key other payload)
      (fun _ => .inl) rfl rfl
  | entry key =>
    simp only [trace, List.append_nil]
    refine on.same (fun other => ?_) (fun _ => .inl) rfl rfl
    simp only [step, TopicRegistry.sent_orInsert]
    exact List.prefix_refl _
  | receive message =>
    simp only [trace, List.append_nil]
    exact onLine_receive fromStr socket message history on
  | read => exact onLine_read socket history on
  | recv i => exact onLine_recv socket i history on
  | forward i => exact onLine_forward socket i history on
  | pull =>
    simp only [trace, List.append_nil]
    have line := line_pull socket
    simp only [step]
    unfold pull at line ⊢
    split
    next message clientQueue open' idle queued =>
      rw [open', idle, queued] at line
      exact on.same (fun _ => List.prefix_refl _) (fun _ => .inl) line rfl
    next => exact on
  | push sent =>
    simp only [trace, List.append_nil]
    exact onLine_push socket sent history on

theorem onLine_run (fromStr : Str → Option WsAction) (registry : TopicRegistry)
    (events : List WsEvent) :
    OnLine (Steps.run (step fromStr) (start registry) events)
      (history fromStr (start registry) events) :=
  Steps.outputs_invariant (onLine_step fromStr) (start registry) [] events
    { held := fun _ member => nomatch member
      known := fun _ _ member => nomatch member
      ahead := List.prefix_refl _
      whole := fun _ => rfl }

end WebSocket

end OmegaDrive
