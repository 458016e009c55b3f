import OmegaDrive.Resp.Text
import OmegaDrive.Shared.Steps

set_option autoImplicit false

namespace OmegaDrive

/-! One WebSocket connection: its reader loop, a forwarder for each topic it subscribed to, the
pusher that writes to its socket, and the publishers. -/

structure WsAction where
  action : Str
  key : Str

structure Topic where
  sent : List Bytes

inductive Received where
  | message (payload : Bytes) (next : Nat)
  | lagged (next : Nat)
  | empty

namespace Topic

-- `broadcast::channel(10000)` rounds its ring up to a power of two.
def capacity : Nat := 16384

def recv (topic : Topic) (next : Nat) : Received :=
  if next < topic.sent.length - capacity then .lagged (topic.sent.length - capacity)
  else match topic.sent[next]? with
    | some payload => .message payload (next + 1)
    | none => .empty

end Topic

abbrev TopicRegistry := Str → Option Topic

namespace TopicRegistry

def orInsert (registry : TopicRegistry) (key : Str) : TopicRegistry :=
  match registry key with
  | some _ => registry
  | none => Function.update registry key (some ⟨[]⟩)

def broadcastUpdate (registry : TopicRegistry) (key : Str) (payload : Bytes) : TopicRegistry :=
  match registry key with
  | some topic => Function.update registry key (some ⟨topic.sent ++ [payload]⟩)
  | none => registry

/-- A new receiver starts behind the last message. -/
def subscribe (registry : TopicRegistry) (key : Str) : Nat :=
  match registry key with
  | some topic => topic.sent.length
  | none => 0

def recv (registry : TopicRegistry) (key : Str) (next : Nat) : Received :=
  match registry key with
  | some topic => topic.recv next
  | none => .empty

end TopicRegistry

def ack (key : Str) : Bytes :=
  ascii "\x7b\"status\":\"subscribed\",\"key\":\"" ++ key.bytes ++ ascii "\"\x7d"

inductive WsMessage where
  | text (text : Str)
  | other

inductive Reader where
  -- `ws_receiver.next()`
  | waiting
  -- `TOPIC_REGISTRY.entry(..)`, `tx.subscribe()`, `tokio::spawn`, `client_tx.send(ack)`
  | entering (key : Str)
  | subscribing (key : Str)
  | spawning (key : Str) (next : Nat)
  | acking (key : Str)
  | ended

structure Forwarder where
  key : Str
  next : Nat
  -- received, and not yet sent to the client's queue
  held : Option Bytes
  running : Bool

structure WebSocket where
  registry : TopicRegistry
  -- a `HashSet`, in the order of the insertions
  activeSubs : List Str
  reader : Reader
  forwarders : List Forwarder
  clientQueue : List Bytes
  pushing : Option Bytes
  -- the pusher has ended, and its end of the queue is dropped
  closed : Bool
  frames : List Bytes

inductive WsEvent where
  | publish (key : Str) (payload : Bytes)
  -- another connection subscribes to a topic
  | entry (key : Str)
  -- `ws_receiver.next()`; none when the client is gone
  | receive (message : Option WsMessage)
  | read
  -- a forwarder's `rx.recv()` and `client_tx_clone.send(msg)`
  | recv (i : Nat)
  | forward (i : Nat)
  -- the pusher's `client_rx.recv()` and `ws_sender.send(..)`, which may fail
  | pull
  | push (sent : Bool)

namespace WebSocket

def start (registry : TopicRegistry) : WebSocket :=
  { registry, activeSubs := [], reader := .waiting, forwarders := [], clientQueue := []
    pushing := none, closed := false, frames := [] }

inductive Sent where
  | queued (clientQueue : List Bytes)
  | full
  | gone

-- A send to the client's queue. It waits while the queue is full.
def send (socket : WebSocket) (message : Bytes) : Sent :=
  if socket.closed then .gone
  else if socket.clientQueue.length < 1024 then .queued (socket.clientQueue ++ [message])
  else .full

def request (fromStr : Str → Option WsAction) : Option WsMessage → Option Str
  | some (.text text) =>
    match fromStr text with
    | some req => if req.action.bytes = ascii "subscribe" then some req.key else none
    | none => none
  | _ => none

def receive (fromStr : Str → Option WsAction) (socket : WebSocket) (message : Option WsMessage) :
    WebSocket :=
  match socket.reader, message with
  | .waiting, none => { socket with reader := .ended }
  | .waiting, some message =>
    match request fromStr (some message) with
    | some key =>
      if key ∈ socket.activeSubs then socket
      else { socket with activeSubs := socket.activeSubs ++ [key], reader := .entering key }
    | none => socket
  | _, _ => socket

def read (socket : WebSocket) : WebSocket :=
  match socket.reader with
  | .entering key =>
    { socket with registry := socket.registry.orInsert key, reader := .subscribing key }
  | .subscribing key => { socket with reader := .spawning key (socket.registry.subscribe key) }
  | .spawning key next =>
    { socket with
      forwarders := socket.forwarders ++ [{ key, next, held := none, running := true }]
      reader := .acking key }
  | .acking key =>
    match socket.send (ack key) with
    | .queued clientQueue => { socket with clientQueue, reader := .waiting }
    | .gone => { socket with reader := .waiting }
    | .full => socket
  | _ => socket

def recv (socket : WebSocket) (forwarder : Forwarder) : Forwarder :=
  match forwarder with
  | { key, next, held := none, running := true } =>
    match socket.registry.recv key next with
    | .message payload next => { key, next, held := some payload, running := true }
    | .lagged next => { key, next, held := none, running := true }
    | .empty => forwarder
  | _ => forwarder

def forward (socket : WebSocket) (i : Nat) : WebSocket :=
  match socket.forwarders[i]? with
  | some { key, next, held := some message, running := true } =>
    match socket.send message with
    | .queued clientQueue =>
      { socket with
        clientQueue
        forwarders := socket.forwarders.set i { key, next, held := none, running := true } }
    | .gone =>
      { socket with
        forwarders := socket.forwarders.set i { key, next, held := none, running := false } }
    | .full => socket
  | _ => socket

def pull (socket : WebSocket) : WebSocket :=
  match socket.closed, socket.pushing, socket.clientQueue with
  | false, none, message :: clientQueue => { socket with pushing := some message, clientQueue }
  | _, _, _ => socket

def push (socket : WebSocket) (sent : Bool) : WebSocket :=
  match socket.pushing with
  | some message =>
    if sent then { socket with frames := socket.frames ++ [message], pushing := none }
    else { socket with pushing := none, clientQueue := [], closed := true }
  | none => socket

def step (fromStr : Str → Option WsAction) (socket : WebSocket) : WsEvent → WebSocket
  | .publish key payload =>
    { socket with registry := socket.registry.broadcastUpdate key payload }
  | .entry key => { socket with registry := socket.registry.orInsert key }
  | .receive message => socket.receive fromStr message
  | .read => socket.read
  | .recv i => { socket with forwarders := socket.forwarders.modify i socket.recv }
  | .forward i => socket.forward i
  | .pull => socket.pull
  | .push sent => socket.push sent

def requested (fromStr : Str → Option WsAction) : WsEvent → Option Str
  | .receive message => request fromStr message
  | _ => none

def firstRequest (fromStr : Str → Option WsAction) (events : List WsEvent) : Option Str :=
  events.findSome? (requested fromStr)

def Unacknowledged (socket : WebSocket) : Prop :=
  ∃ key, socket.activeSubs = [key] ∧ socket.reader = .acking key

def AckFirst (socket : WebSocket) : WsEvent → Prop
  | .forward i => ∀ forwarder ∈ socket.forwarders[i]?, forwarder.held.isSome → ¬ Unacknowledged socket
  | _ => True

-- All that the client has received or has still to receive, in order.
def line (socket : WebSocket) : List Bytes :=
  socket.frames ++ socket.pushing.toList ++ socket.clientQueue

def Entering (key : Str) : Reader → Prop
  | .entering name => name = key
  | .subscribing name => name = key
  | .spawning name _ => name = key
  | _ => False

inductive Progress (socket : WebSocket) : Prop where
  | idle (none : socket.activeSubs = [])
      (reader : socket.reader = .waiting ∨ socket.reader = .ended)
      (alone : socket.forwarders = []) (silent : socket.line = [])
  | entering (key : Str) (only : socket.activeSubs = [key]) (reader : Entering key socket.reader)
      (alone : socket.forwarders = []) (silent : socket.line = [])
  | acking (key : Str) (only : socket.activeSubs = [key]) (reader : socket.reader = .acking key)
      (silent : socket.line = [])
  | acked (key : Str) (first : socket.activeSubs.head? = some key)
      (head : ∀ frame ∈ socket.line.head?, frame = ack key)
      (sent : socket.line = [] → socket.closed = true)

theorem line_nil (socket : WebSocket) (silent : socket.line = []) :
    socket.frames = [] ∧ socket.pushing = none ∧ socket.clientQueue = [] := by
  rw [line, List.append_assoc, List.append_eq_nil_iff, List.append_eq_nil_iff] at silent
  exact ⟨silent.1, Option.toList_eq_nil_iff.mp silent.2.1, silent.2.2⟩

theorem line_pull (socket : WebSocket) : socket.pull.line = socket.line := by
  rw [pull]
  split
  next message clientQueue open' idle queued => simp [line, idle, queued]
  next => rfl

theorem send_queued (socket : WebSocket) (message : Bytes) (clientQueue : List Bytes)
    (sent : socket.send message = .queued clientQueue) :
    socket.closed = false ∧ clientQueue = socket.clientQueue ++ [message] := by
  unfold send at sent
  split at sent
  next => cases sent
  next open' =>
    split at sent
    next =>
      cases sent
      exact ⟨Bool.eq_false_iff.mpr open', rfl⟩
    next => cases sent

theorem send_gone (socket : WebSocket) (message : Bytes) (sent : socket.send message = .gone) :
    socket.closed = true := by
  unfold send at sent
  split at sent
  next closed => exact closed
  next => split at sent <;> cases sent

theorem Progress.later {socket after : WebSocket} {key : Str}
    (head : ∀ frame ∈ socket.line.head?, frame = ack key)
    (sent : socket.line = [] → socket.closed = true)
    (first : after.activeSubs.head? = some key)
    (grown : (after.closed = socket.closed ∧ ∃ more, after.line = socket.line ++ more ∧
        (socket.closed = true → more = [])) ∨
      after.closed = true ∧ ∃ lost, socket.line = after.line ++ lost) : Progress after := by
  obtain ⟨closed, more, same, still⟩ | ⟨closed, lost, same⟩ := grown
  · cases old : socket.line with
    | nil =>
      have nothing : after.line = [] := by rw [same, old, still (sent old), List.append_nil]
      exact .acked key first (by simp [nothing]) fun _ => closed.trans (sent old)
    | cons front rest =>
      rw [old] at head same
      exact .acked key first (by simpa [same] using head) (by simp [same])
  · refine .acked key first (fun frame member => head frame ?_) fun _ => closed
    obtain ⟨rest, line⟩ := List.head?_eq_some_iff.mp (Option.mem_def.mp member)
    rw [same, line]
    rfl

theorem progress_receive (fromStr : Str → Option WsAction) (socket : WebSocket)
    (message : Option WsMessage) (progress : Progress socket) :
    Progress (socket.receive fromStr message) := by
  unfold receive
  split
  next waiting =>
    cases progress with
    | idle none _ alone silent => exact .idle none (.inr rfl) alone silent
    | entering key _ reader => rw [waiting] at reader; exact reader.elim
    | acking key _ reader => rw [waiting] at reader; cases reader
    | acked key first head sent => exact .acked key first head sent
  next message waiting =>
    split
    next name asked =>
      split
      next => exact progress
      next fresh =>
        cases progress with
        | idle none _ alone silent => exact .entering name (by simp [none]) rfl alone silent
        | entering key _ reader => rw [waiting] at reader; exact reader.elim
        | acking key _ reader => rw [waiting] at reader; cases reader
        | acked key first head sent =>
          exact .acked key (by simp [List.head?_append, first]) head sent
    next => exact progress
  next => exact progress

theorem progress_read (socket : WebSocket) (progress : Progress socket) :
    Progress socket.read := by
  cases progress with
  | idle none reader alone silent =>
    have stays : socket.read = socket := by
      rcases reader with waiting | ended
      · rw [read, waiting]
      · rw [read, ended]
    rw [stays]
    exact .idle none reader alone silent
  | entering key only reader alone silent =>
    rw [read]
    split
    next name at' =>
      rw [at'] at reader
      exact .entering key only reader alone silent
    next name at' =>
      rw [at'] at reader
      exact .entering key only reader alone silent
    next name next' at' =>
      rw [at'] at reader
      obtain rfl : name = key := reader
      exact .acking name only rfl silent
    next name at' => rw [at'] at reader; exact reader.elim
    next => exact .entering key only reader alone silent
  | acking key only reader silent =>
    obtain ⟨frames, pushing, queue⟩ := line_nil socket silent
    rw [read, reader]
    simp only
    split
    next clientQueue sent =>
      obtain ⟨_, rfl⟩ := send_queued socket _ _ sent
      refine .acked key (by simp [only]) ?_ ?_
      · simp [line, frames, pushing, queue]
      · simp [line]
    next sent =>
      have closed := send_gone socket _ sent
      exact .acked key (by simp [only]) (by simp [line, frames, pushing, queue]) fun _ => closed
    next => exact .acking key only reader silent
  | acked key first head sent =>
    rw [read]
    split
    next => exact .acked key first head sent
    next => exact .acked key first head sent
    next => exact .acked key first head sent
    next name at' =>
      split
      next clientQueue queued =>
        obtain ⟨open', rfl⟩ := send_queued socket _ _ queued
        refine .later head sent first (.inl ⟨rfl, [ack name], ?_, ?_⟩)
        · simp [line]
        · simp [open']
      next => exact .acked key first head sent
      next => exact .acked key first head sent
    next => exact .acked key first head sent

theorem progress_forward (socket : WebSocket) (i : Nat) (progress : Progress socket)
    (allowed : AckFirst socket (.forward i)) : Progress (socket.forward i) := by
  unfold forward
  split
  next key next' message at' =>
    have late : ¬ Unacknowledged socket := allowed _ at' rfl
    cases progress with
    | idle _ _ alone => simp [alone] at at'
    | entering _ _ _ alone => simp [alone] at at'
    | acking key only reader => exact absurd ⟨key, only, reader⟩ late
    | acked key first head sent =>
      split
      next clientQueue queued =>
        obtain ⟨open', rfl⟩ := send_queued socket _ _ queued
        refine .later head sent first (.inl ⟨rfl, [message], ?_, ?_⟩)
        · simp [line]
        · simp [open']
      next => exact .acked key first head sent
      next => exact .acked key first head sent
  next => exact progress

theorem progress_silent {socket after : WebSocket} (progress : Progress socket)
    (subs : after.activeSubs = socket.activeSubs) (reader : after.reader = socket.reader)
    (forwarders : socket.forwarders = [] → after.forwarders = [])
    (line : after.line = socket.line) (closed : after.closed = socket.closed) :
    Progress after := by
  cases progress with
  | idle none reader' alone silent =>
    exact .idle (subs.trans none) (by rwa [reader]) (forwarders alone) (line.trans silent)
  | entering key only reader' alone silent =>
    exact .entering key (subs.trans only) (by rwa [reader]) (forwarders alone) (line.trans silent)
  | acking key only reader' silent =>
    exact .acking key (subs.trans only) (reader.trans reader') (line.trans silent)
  | acked key first head sent =>
    exact .acked key (by rwa [subs]) (by rwa [line]) (by rwa [line, closed])

theorem progress_pull (socket : WebSocket) (progress : Progress socket) :
    Progress socket.pull := by
  have line := line_pull socket
  unfold pull at line ⊢
  split
  next message clientQueue open' idle queued =>
    rw [open', idle, queued] at line
    exact progress_silent progress rfl rfl id line rfl
  next => exact progress

theorem progress_push (socket : WebSocket) (sent : Bool) (progress : Progress socket) :
    Progress (socket.push sent) := by
  rw [push]
  split
  next message pushing =>
    have busy : socket.line ≠ [] := fun silent => by
      have idle := (line_nil socket silent).2.1
      rw [pushing] at idle
      cases idle
    cases progress with
    | idle _ _ _ silent => exact absurd silent busy
    | entering _ _ _ _ silent => exact absurd silent busy
    | acking _ _ _ silent => exact absurd silent busy
    | acked key first head acknowledged =>
      cases sent with
      | true =>
        refine .later head acknowledged first (.inl ⟨rfl, [], ?_, fun _ => rfl⟩)
        simp [line, pushing]
      | false =>
        -- what is lost with the pusher is lost from behind
        refine .later head acknowledged first (.inr ⟨rfl, message :: socket.clientQueue, ?_⟩)
        simp [line, pushing]
  next => exact progress

theorem progress_step (fromStr : Str → Option WsAction) (socket : WebSocket) (event : WsEvent)
    (progress : Progress socket) (allowed : AckFirst socket event) :
    Progress (socket.step fromStr event) := by
  cases event with
  | publish key payload => exact progress_silent progress rfl rfl id rfl rfl
  | entry key => exact progress_silent progress rfl rfl id rfl rfl
  | receive message => exact progress_receive fromStr socket message progress
  | read => exact progress_read socket progress
  | recv i =>
    refine progress_silent progress rfl rfl (fun alone => ?_) rfl rfl
    simp [step, alone]
  | forward i => exact progress_forward socket i progress allowed
  | pull => exact progress_pull socket progress
  | push sent => exact progress_push socket sent progress

theorem progress_run (fromStr : Str → Option WsAction) (registry : TopicRegistry)
    (events : List WsEvent)
    (along : Steps.Along (step fromStr) AckFirst (start registry) events) :
    Progress (Steps.run (step fromStr) (start registry) events) :=
  Steps.run_invariant (progress_step fromStr) (start registry) events
    (.idle rfl (.inl rfl) rfl rfl) along

theorem step_reader (fromStr : Str → Option WsAction) (socket : WebSocket) (event : WsEvent) :
    (∃ message, event = .receive message) ∨ event = .read ∨
      (requested fromStr event = none ∧
        (socket.step fromStr event).activeSubs = socket.activeSubs ∧
        (socket.step fromStr event).reader = socket.reader) := by
  cases event with
  | receive message => exact .inl ⟨message, rfl⟩
  | read => exact .inr (.inl rfl)
  | forward i =>
    refine .inr (.inr ⟨rfl, ?_⟩)
    simp only [step]
    unfold forward
    split
    next => split <;> exact ⟨rfl, rfl⟩
    next => exact ⟨rfl, rfl⟩
  | pull =>
    refine .inr (.inr ⟨rfl, ?_⟩)
    simp only [step]
    unfold pull
    split <;> exact ⟨rfl, rfl⟩
  | push sent =>
    refine .inr (.inr ⟨rfl, ?_⟩)
    simp only [step]
    unfold push
    split
    next => split <;> exact ⟨rfl, rfl⟩
    next => exact ⟨rfl, rfl⟩
  | _ => exact .inr (.inr ⟨rfl, rfl, rfl⟩)

theorem subs_read (socket : WebSocket) : socket.read.activeSubs = socket.activeSubs := by
  unfold read
  split
  next => rfl
  next => rfl
  next => rfl
  next => split <;> rfl
  next => rfl

theorem first_step (fromStr : Str → Option WsAction) (socket : WebSocket) (event : WsEvent)
    (key : Str) (first : socket.activeSubs.head? = some key) :
    (socket.step fromStr event).activeSubs.head? = some key := by
  rcases step_reader fromStr socket event with ⟨message, rfl⟩ | rfl | ⟨_, same, _⟩
  · simp only [step]
    unfold receive
    split
    next => exact first
    next =>
      split
      next =>
        split
        next => exact first
        next => simp [List.head?_append, first]
      next => exact first
    next => exact first
  · simpa only [step, subs_read] using first
  · rw [same, first]

theorem ended_step (fromStr : Str → Option WsAction) (socket : WebSocket) (event : WsEvent)
    (ended : socket.reader = .ended ∧ socket.activeSubs = []) :
    (socket.step fromStr event).reader = .ended ∧ (socket.step fromStr event).activeSubs = [] := by
  rcases step_reader fromStr socket event with ⟨message, rfl⟩ | rfl | ⟨_, subs, reader⟩
  · simpa only [step, receive, ended.1] using ended
  · simpa only [step, read, ended.1] using ended
  · rwa [subs, reader]

theorem waiting_step (fromStr : Str → Option WsAction) (socket : WebSocket) (event : WsEvent)
    (waiting : socket.reader = .waiting) (none : socket.activeSubs = []) :
    (∃ key, requested fromStr event = some key ∧
        (socket.step fromStr event).activeSubs = [key]) ∨
      (requested fromStr event = Option.none ∧ (socket.step fromStr event).activeSubs = [] ∧
        ((socket.step fromStr event).reader = .waiting ∨
          (socket.step fromStr event).reader = .ended)) := by
  rcases step_reader fromStr socket event with ⟨message, rfl⟩ | rfl | ⟨other, subs, reader⟩
  · cases message with
    | none => exact .inr (by simp [requested, request, step, receive, waiting, none])
    | some message =>
      cases asked : request fromStr (some message) with
      | some key => exact .inl ⟨key, asked, by simp [step, receive, waiting, asked, none]⟩
      | none => exact .inr ⟨asked, by simp [step, receive, waiting, asked, none]⟩
  · exact .inr ⟨rfl, by simp [step, read, waiting, none]⟩
  · exact .inr ⟨other, subs.trans none, .inl (reader.trans waiting)⟩

theorem subs_run (fromStr : Str → Option WsAction) (socket : WebSocket) (events : List WsEvent)
    (key : Str) (waiting : socket.reader = .waiting) (none : socket.activeSubs = [])
    (first : (Steps.run (step fromStr) socket events).activeSubs.head? = some key) :
    firstRequest fromStr events = some key := by
  induction events generalizing socket with
  | nil => simp [Steps.run, none] at first
  | cons event events ih =>
    rw [Steps.run_cons] at first
    rw [firstRequest, List.findSome?_cons]
    rcases waiting_step fromStr socket event waiting none with
      ⟨name, asked, subscribed⟩ | ⟨other, still, waiting | ended⟩
    · have kept := Steps.run_always (fun socket event => first_step fromStr socket event name) _
        events (by rw [subscribed]; rfl)
      rw [first] at kept
      rw [asked, kept]
    · rw [other]
      exact ih _ waiting still first
    · have gone := Steps.run_always (ended_step fromStr) _ events ⟨ended, still⟩
      simp [gone.2] at first

theorem ack_first (fromStr : Str → Option WsAction) (registry : TopicRegistry)
    (events : List WsEvent)
    (along : Steps.Along (step fromStr) AckFirst (start registry) events) :
    ∀ frame ∈ (Steps.run (step fromStr) (start registry) events).frames.head?,
      ∃ key, firstRequest fromStr events = some key ∧ frame = ack key := by
  intro frame received
  have ahead : frame ∈ (Steps.run (step fromStr) (start registry) events).line.head? := by
    rw [line, List.append_assoc, List.head?_append]
    rw [Option.mem_def.mp received]
    rfl
  have nothing (silent : (Steps.run (step fromStr) (start registry) events).line = []) : False := by
    rw [silent] at ahead
    cases ahead
  cases progress_run fromStr registry events along with
  | idle _ _ _ silent => exact (nothing silent).elim
  | entering _ _ _ _ silent => exact (nothing silent).elim
  | acking _ _ _ silent => exact (nothing silent).elim
  | acked key first head => exact ⟨key, subs_run fromStr _ events key rfl rfl first, head frame ahead⟩

theorem validUtf8_subscribe : validUtf8 (ascii "subscribe") = true := by decide

def subscribeText : Bytes := ascii "\x7b\"action\":\"subscribe\",\"key\":\"k\"\x7d"

theorem validUtf8_subscribeText : validUtf8 subscribeText = true := by decide

-- One text and what it parses to.
def subscribeOnly (text : Str) : Option WsAction :=
  if text.bytes = subscribeText then
    some ⟨⟨ascii "subscribe", validUtf8_subscribe⟩, ⟨ascii "k", validUtf8_k⟩⟩
  else none

-- A subscription up to the acknowledgement, and an update of its topic.
def subscribing : List WsEvent :=
  [.receive (some (.text ⟨subscribeText, validUtf8_subscribeText⟩)), .read, .read, .read,
    .publish ⟨ascii "k", validUtf8_k⟩ (ascii "v"), .recv 0]

theorem ack_first_published :
    ∃ frame, (Steps.run (step subscribeOnly) (start fun _ => none)
        (subscribing ++ [.read, .forward 0, .pull, .push true])).frames.head? = some frame ∧
      ∃ key, firstRequest subscribeOnly
        (subscribing ++ [.read, .forward 0, .pull, .push true]) = some key ∧ frame = ack key := by
  have received : (Steps.run (step subscribeOnly) (start fun _ => none)
      (subscribing ++ [.read, .forward 0, .pull, .push true])).frames.head? =
        some (ack ⟨ascii "k", validUtf8_k⟩) := by decide
  have allowed : Steps.Along (step subscribeOnly) AckFirst (start fun _ => none)
      (subscribing ++ [.read, .forward 0, .pull, .push true]) := by
    refine ⟨trivial, trivial, trivial, trivial, trivial, trivial, trivial, ?_, trivial, trivial,
      trivial⟩
    rintro forwarder - - ⟨key, -, reader⟩
    cases reader
  exact ⟨_, received, ack_first subscribeOnly _ _ allowed _ received⟩

-- The update of a topic is received in place of the acknowledgement.
theorem update_first :
    ¬ ∀ frame ∈ (Steps.run (step subscribeOnly) (start fun _ => none)
        (subscribing ++ [.forward 0, .read, .pull, .push true])).frames.head?,
      ∃ key, firstRequest subscribeOnly
        (subscribing ++ [.forward 0, .read, .pull, .push true]) = some key ∧ frame = ack key := by
  intro always
  have received : (Steps.run (step subscribeOnly) (start fun _ => none)
      (subscribing ++ [.forward 0, .read, .pull, .push true])).frames.head? = some (ascii "v") := by
    decide
  have asked : firstRequest subscribeOnly
      (subscribing ++ [.forward 0, .read, .pull, .push true]) =
        some ⟨ascii "k", validUtf8_k⟩ := by decide
  obtain ⟨key, first, same⟩ := always _ received
  obtain rfl := Option.some.inj (asked.symm.trans first)
  exact absurd same (by decide)

end WebSocket

end OmegaDrive
