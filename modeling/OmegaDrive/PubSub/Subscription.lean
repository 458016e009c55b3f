import OmegaDrive.PubSub.Delivery

set_option autoImplicit false

namespace OmegaDrive

namespace WebSocket

section Subscription

variable (key : Str)

theorem starts_append (first second : List Trace) :
    starts key (first ++ second) = starts key first ++ starts key second := List.filterMap_append

theorem acks_append (first second : List Trace) :
    acks key (first ++ second) = acks key first ++ acks key second := List.filterMap_append

theorem numbers_append (first second : List Trace) :
    numbers key (first ++ second) = numbers key first ++ numbers key second :=
  List.filterMap_append

theorem skips_append (first second : List Trace) :
    skips key (first ++ second) = skips key first + skips key second := by
  rw [skips, List.filterMap_append, List.sum_append]
  rfl

/-- A forwarder that has ended has dropped the message it held. -/
def upcoming (forwarder : Forwarder) : Nat :=
  if forwarder.held = none ∧ forwarder.running = true then forwarder.next else forwarder.next - 1

/-- How a forwarder has come from where its topic was when it subscribed. -/
structure Follows (sent start : Nat) (forwarder : Forwarder) (numbers : List Nat) (skips : Nat) :
    Prop where
  fits : forwarder.next ≤ sent
  holds : ¬ (forwarder.held = none ∧ forwarder.running = true) → 0 < forwarder.next
  increasing : numbers.Pairwise (· < ·)
  within : ∀ number ∈ numbers, start ≤ number ∧ number < upcoming forwarder
  counted : start + numbers.length + skips = upcoming forwarder

def keys (socket : WebSocket) : List Str := socket.forwarders.map Forwarder.key

def Names (key : Str) : Reader → Prop
  | .entering name => name = key
  | .subscribing name => name = key
  | .spawning name _ => name = key
  | .acking name => name = key
  | _ => False

structure Elsewhere (history : List Trace) : Prop where
  new : starts key history = []
  unacked : acks key history = []
  silent : numbers key history = []
  even : skips key history = 0

theorem elsewhere_nil : Elsewhere key [] := ⟨rfl, rfl, rfl, rfl⟩

variable {key} in
theorem Elsewhere.append {first second : List Trace} (left : Elsewhere key first)
    (right : Elsewhere key second) : Elsewhere key (first ++ second) where
  new := by rw [starts_append, left.new, right.new, List.append_nil]
  unacked := by rw [acks_append, left.unacked, right.unacked, List.append_nil]
  silent := by rw [numbers_append, left.silent, right.silent, List.append_nil]
  even := by rw [skips_append, left.even, right.even]

inductive Stage (socket : WebSocket) (history : List Trace) : Prop where
  | away (none : key ∉ socket.activeSubs) (elsewhere : ¬ Names key socket.reader)
      (alone : key ∉ keys socket) (nothing : Elsewhere key history)
  | entering (member : key ∈ socket.activeSubs)
      (reader : socket.reader = .entering key ∨ socket.reader = .subscribing key)
      (alone : key ∉ keys socket) (nothing : Elsewhere key history)
  | spawning (start : Nat) (member : key ∈ socket.activeSubs)
      (reader : socket.reader = .spawning key start)
      (fits : start ≤ (socket.registry.sent key).length)
      (alone : key ∉ keys socket)
      (started : starts key history = [start]) (unacked : acks key history = [])
      (silent : numbers key history = []) (even : skips key history = 0)
  | following (start i : Nat) (forwarder : Forwarder) (member : key ∈ socket.activeSubs)
      (at' : socket.forwarders[i]? = some forwarder) (named : forwarder.key = key)
      (only : ∀ j, (keys socket)[j]? = some key → j = i)
      (started : starts key history = [start])
      (acked : ¬ Names key socket.reader ∧ (acks key history).length ≤ 1 ∨
        socket.reader = .acking key ∧ acks key history = [])
      (follows : Follows (socket.registry.sent key).length start forwarder (numbers key history)
        (skips key history))

variable {key}

theorem Stage.frame {socket after : WebSocket} {history more : List Trace}
    (stage : Stage key socket history) (subs : after.activeSubs = socket.activeSubs)
    (reader : after.reader = socket.reader) (same : keys after = keys socket)
    (mine : ∀ (i : Nat) (forwarder : Forwarder), socket.forwarders[i]? = some forwarder →
      forwarder.key = key → after.forwarders[i]? = some forwarder)
    (grown : (socket.registry.sent key).length ≤ (after.registry.sent key).length)
    (elsewhere : Elsewhere key more) : Stage key after (history ++ more) := by
  have new : starts key (history ++ more) = starts key history := by
    rw [starts_append, elsewhere.new, List.append_nil]
  have unacked : acks key (history ++ more) = acks key history := by
    rw [acks_append, elsewhere.unacked, List.append_nil]
  have silent : numbers key (history ++ more) = numbers key history := by
    rw [numbers_append, elsewhere.silent, List.append_nil]
  have even : skips key (history ++ more) = skips key history := by
    rw [skips_append, elsewhere.even, Nat.add_zero]
  cases stage with
  | away none out alone nothing =>
    exact .away (by rwa [subs]) (by rwa [reader]) (by rwa [same]) (nothing.append elsewhere)
  | entering member at' alone nothing =>
    exact .entering (by rwa [subs]) (by rwa [reader]) (by rwa [same]) (nothing.append elsewhere)
  | spawning start member at' fits alone new' unacked' silent' even' =>
    exact .spawning start (by rwa [subs]) (by rwa [reader]) (Nat.le_trans fits grown) (by rwa [same])
      (new.trans new') (unacked.trans unacked') (silent.trans silent') (even.trans even')
  | following start i forwarder member at' named only started acked follows =>
    refine .following start i forwarder (by rwa [subs]) (mine i forwarder at' named) named
      (by rwa [same]) (new.trans started) (by rwa [reader, unacked]) ?_
    rw [silent, even]
    exact { follows with fits := Nat.le_trans follows.fits grown }

theorem stage_receive (fromStr : Str → Option WsAction) (socket : WebSocket)
    (message : Option WsMessage) (history : List Trace) (stage : Stage key socket history) :
    Stage key (socket.receive fromStr message) history := by
  unfold receive
  split
  next waiting =>
    cases stage with
    | away none out alone nothing =>
      exact .away none (fun named => named) alone nothing
    | entering _ at' => simp [waiting] at at'
    | spawning _ _ at' => simp [waiting] at at'
    | following start i forwarder member at' named only started acked follows =>
      obtain ⟨_, few⟩ | ⟨acking, _⟩ := acked
      · exact .following start i forwarder member at' named only started
          (.inl ⟨fun named => named, few⟩) follows
      · simp [waiting] at acking
  next message waiting =>
    split
    next name asked =>
      split
      next => exact stage
      next fresh =>
        cases stage with
        | away none out alone nothing =>
          by_cases mine : name = key
          · subst mine
            exact .entering (by simp) (.inl rfl) alone nothing
          · exact .away (by simp [none, Ne.symm mine]) mine alone nothing
        | entering _ at' => simp [waiting] at at'
        | spawning _ _ at' => simp [waiting] at at'
        | following start i forwarder member at' named only started acked follows =>
          obtain ⟨_, few⟩ | ⟨acking, _⟩ := acked
          · have other : name ≠ key := fun same => fresh (same ▸ member)
            exact .following start i forwarder (by simp [member]) at' named only started
              (.inl ⟨other, few⟩) follows
          · simp [waiting] at acking
    next => exact stage
  next => exact stage

theorem elsewhere_subscribed {name : Str} (number : Nat) (other : name ≠ key) :
    Elsewhere key [.subscribed name number] :=
  ⟨by simp [starts, other], rfl, rfl, rfl⟩

theorem elsewhere_acked {name : Str} (other : name ≠ key) : Elsewhere key [.acked name] :=
  ⟨rfl, by simp [acks, other], rfl, rfl⟩

theorem elsewhere_queued {name : Str} (number : Nat) (other : name ≠ key) :
    Elsewhere key [.queued name number] :=
  ⟨rfl, rfl, by simp [numbers, other], rfl⟩

theorem elsewhere_skipped {name : Str} (count : Nat) (other : name ≠ key) :
    Elsewhere key [.skipped name count] :=
  ⟨rfl, rfl, rfl, by simp [skips, other]⟩

theorem Stage.reads {socket after : WebSocket} {history more : List Trace}
    (stage : Stage key socket history) (other : ¬ Names key socket.reader)
    (still : ¬ Names key after.reader) (subs : after.activeSubs = socket.activeSubs)
    (forwarders : ∃ fresh, after.forwarders = socket.forwarders ++ fresh ∧
      ∀ forwarder ∈ fresh, forwarder.key ≠ key)
    (grown : (socket.registry.sent key).length ≤ (after.registry.sent key).length)
    (elsewhere : Elsewhere key more) : Stage key after (history ++ more) := by
  obtain ⟨fresh, same, strangers⟩ := forwarders
  have absent : key ∉ fresh.map Forwarder.key := by
    intro member
    obtain ⟨forwarder, there, named⟩ := List.mem_map.mp member
    exact strangers forwarder there named
  have grownKeys : keys after = keys socket ++ fresh.map Forwarder.key := by
    rw [keys, same, List.map_append, keys]
  cases stage with
  | away none out alone nothing =>
    exact .away (by rwa [subs]) still (by simp [grownKeys, alone, absent]) (nothing.append elsewhere)
  | entering _ reader => exact absurd (by rcases reader with at' | at' <;> rw [at'] <;> rfl) other
  | spawning _ _ reader => exact absurd (by rw [reader]; rfl) other
  | following start i forwarder member at' named only started acked follows =>
    have few : (acks key history).length ≤ 1 := by
      obtain ⟨_, few⟩ | ⟨_, none⟩ := acked
      · exact few
      · rw [none]
        exact Nat.zero_le 1
    have inside : i < socket.forwarders.length := (List.getElem?_eq_some_iff.mp at').1
    refine .following start i forwarder (by rwa [subs]) ?_ named (fun j here => ?_) ?_
      (.inl ⟨still, ?_⟩) ?_
    · rw [same, List.getElem?_append_left inside, at']
    · rw [grownKeys, List.getElem?_append] at here
      split at here
      next => exact only j here
      next => exact absurd (List.mem_of_getElem? here) absent
    · rw [starts_append, elsewhere.new, List.append_nil, started]
    · rw [acks_append, elsewhere.unacked, List.append_nil]
      exact few
    · rw [numbers_append, elsewhere.silent, List.append_nil, skips_append, elsewhere.even,
        Nat.add_zero]
      exact { follows with fits := Nat.le_trans follows.fits grown }

theorem stage_read (socket : WebSocket) (history : List Trace) (stage : Stage key socket history) :
    Stage key socket.read (history ++ socket.trace .read) := by
  cases at' : socket.reader with
  | waiting =>
    simp only [read, trace, at', List.append_nil]
    exact stage
  | ended =>
    simp only [read, trace, at', List.append_nil]
    exact stage
  | entering name =>
    simp only [read, trace, at']
    by_cases mine : name = key
    · subst mine
      cases stage with
      | away none out => exact absurd (by rw [at']; rfl) out
      | entering member _ alone nothing =>
        exact .entering member (.inr rfl) alone (nothing.append (elsewhere_nil _))
      | spawning _ _ reader => simp [at'] at reader
      | following _ _ _ _ _ _ _ _ acked => simp [at', Names] at acked
    · refine stage.reads (by rwa [at']) mine rfl ⟨[], by simp⟩ ?_ (elsewhere_nil _)
      simp [TopicRegistry.sent_orInsert]
  | subscribing name =>
    simp only [read, trace, at']
    by_cases mine : name = key
    · subst mine
      cases stage with
      | away none out => exact absurd (by rw [at']; rfl) out
      | entering member _ alone nothing =>
        refine .spawning _ member rfl ?_ alone ?_ ?_ ?_ ?_
        · rw [TopicRegistry.subscribe_eq]
        · rw [starts_append, nothing.new]
          simp [starts]
        · rw [acks_append, nothing.unacked]
          rfl
        · rw [numbers_append, nothing.silent]
          rfl
        · rw [skips_append, nothing.even]
          rfl
      | spawning _ _ reader => simp [at'] at reader
      | following _ _ _ _ _ _ _ _ acked => simp [at', Names] at acked
    · exact stage.reads (by rwa [at']) mine rfl ⟨[], by simp⟩ (Nat.le_refl _)
        (elsewhere_subscribed _ mine)
  | spawning name next =>
    simp only [read, trace, at']
    by_cases mine : name = key
    · subst mine
      cases stage with
      | away none out => exact absurd (by rw [at']; rfl) out
      | entering _ reader => simp [at'] at reader
      | spawning start member reader fits alone started unacked silent even =>
        obtain ⟨-, rfl⟩ : name = name ∧ next = start := by simpa [at'] using reader
        have last : (socket.forwarders ++
            [{ key := name, next := next, held := none, running := true }])[socket.forwarders.length]? =
              some { key := name, next := next, held := none, running := true } :=
          List.getElem?_concat_length
        refine .following next socket.forwarders.length _ member last rfl (fun j here => ?_) ?_
          (.inr ⟨rfl, ?_⟩) ?_
        · rw [keys, List.map_append, List.getElem?_append] at here
          split at here
          next => exact absurd (List.mem_of_getElem? here) alone
          next outside =>
            have inside := (List.getElem?_eq_some_iff.mp here).1
            simp at inside outside
            omega
        · rw [List.append_nil, started]
        · rw [List.append_nil, unacked]
        · rw [List.append_nil, silent, even]
          exact
            { fits
              holds := fun busy => absurd ⟨rfl, rfl⟩ busy
              increasing := .nil
              within := fun _ member => by cases member
              counted := rfl }
      | following _ _ _ _ _ _ _ _ acked => simp [at', Names] at acked
    · refine stage.reads (by rwa [at']) mine rfl ⟨_, rfl, ?_⟩ (Nat.le_refl _) (elsewhere_nil _)
      intro forwarder member
      rw [List.mem_singleton.mp member]
      exact mine
  | acking name =>
    by_cases mine : name = key
    · subst mine
      cases stage with
      | away none out => exact absurd (by rw [at']; rfl) out
      | entering _ reader => simp [at'] at reader
      | spawning _ _ reader => simp [at'] at reader
      | following start i forwarder member here named only started acked follows =>
        have none : acks name history = [] := by
          obtain ⟨out, _⟩ | ⟨_, none⟩ := acked
          · exact absurd (by rw [at']; rfl) out
          · exact none
        cases sent : socket.send (ack name) with
        | queued clientQueue =>
          simp only [read, trace, at', sent]
          refine .following start i forwarder member here named only ?_
            (.inl ⟨fun names => names, ?_⟩) ?_
          · rw [starts_append, started]
            rfl
          · rw [acks_append, none]
            simp [acks]
          · have silent : numbers name (history ++ [.acked name]) = numbers name history := by
              rw [numbers_append]
              exact List.append_nil _
            have even : skips name (history ++ [.acked name]) = skips name history := skips_append ..
            rwa [silent, even]
        | gone =>
          simp only [read, trace, at', sent, List.append_nil]
          exact .following start i forwarder member here named only started
            (.inl ⟨fun names => names, by simp [none]⟩) follows
        | full =>
          simp only [read, trace, at', sent, List.append_nil]
          exact .following start i forwarder member here named only started acked follows
    · cases sent : socket.send (ack name) with
      | queued clientQueue =>
        simp only [read, trace, at', sent]
        exact stage.reads (by rwa [at']) (fun names => names) rfl ⟨[], by simp⟩ (Nat.le_refl _)
          (elsewhere_acked mine)
      | gone =>
        simp only [read, trace, at', sent]
        exact stage.reads (by rwa [at']) (fun names => names) rfl ⟨[], by simp⟩ (Nat.le_refl _)
          (elsewhere_nil _)
      | full =>
        simp only [read, trace, at', sent, List.append_nil]
        exact stage

theorem only_following {socket : WebSocket} {history : List Trace} {i : Nat} {forwarder : Forwarder}
    (stage : Stage key socket history) (at' : socket.forwarders[i]? = some forwarder)
    (mine : forwarder.key = key) :
    ∃ start, starts key history = [start] ∧ key ∈ socket.activeSubs ∧
      (∀ j, (keys socket)[j]? = some key → j = i) ∧
      (¬ Names key socket.reader ∧ (acks key history).length ≤ 1 ∨
        socket.reader = .acking key ∧ acks key history = []) ∧
      Follows (socket.registry.sent key).length start forwarder (numbers key history)
        (skips key history) := by
  have named : (keys socket)[i]? = some key := by
    rw [keys, List.getElem?_map, at', Option.map_some, mine]
  have present : key ∈ keys socket := List.mem_of_getElem? named
  cases stage with
  | away _ _ alone => exact absurd present alone
  | entering _ _ alone => exact absurd present alone
  | spawning _ _ _ _ alone => exact absurd present alone
  | following start j other member there named' only started acked follows =>
    obtain rfl := only i named
    obtain rfl := Option.some.inj (at'.symm.trans there)
    exact ⟨start, started, member, only, acked, follows⟩

theorem Stage.moves {socket : WebSocket} {history more : List Trace} {i : Nat}
    {forwarder : Forwarder} (stage : Stage key socket history)
    (at' : socket.forwarders[i]? = some forwarder) (other : forwarder.key ≠ key)
    (forwarders : List Forwarder) (clientQueue : List Bytes)
    (same : forwarders.map Forwarder.key = keys socket)
    (rest : ∀ j, j ≠ i → forwarders[j]? = socket.forwarders[j]?)
    (elsewhere : Elsewhere key more) :
    Stage key { socket with forwarders, clientQueue } (history ++ more) := by
  refine stage.frame rfl rfl same (fun j found there mine => ?_) (Nat.le_refl _) elsewhere
  have elsewhere' : j ≠ i := by
    rintro rfl
    obtain rfl := Option.some.inj (at'.symm.trans there)
    exact other mine
  exact (rest j elsewhere').trans there

theorem Stage.moved {socket : WebSocket} {history more : List Trace} {i : Nat}
    {forwarder : Forwarder} (stage : Stage key socket history)
    (at' : socket.forwarders[i]? = some forwarder) (mine : forwarder.key = key)
    (forwarders : List Forwarder) (clientQueue : List Bytes) (changed : Forwarder)
    (there : forwarders[i]? = some changed) (same : forwarders.map Forwarder.key = keys socket)
    (new : starts key more = []) (unacked : acks key more = [])
    (follows : ∀ start numbers' skips',
      Follows (socket.registry.sent key).length start forwarder numbers' skips' →
      Follows (socket.registry.sent key).length start changed (numbers' ++ numbers key more)
        (skips' + skips key more)) :
    Stage key { socket with forwarders, clientQueue } (history ++ more) := by
  obtain ⟨start, started, member, only, acked, before⟩ := only_following stage at' mine
  have name : changed.key = key := by
    have named : (forwarders.map Forwarder.key)[i]? = some key := by
      rw [same, keys, List.getElem?_map, at', Option.map_some, mine]
    rw [List.getElem?_map, there, Option.map_some] at named
    exact Option.some.inj named
  refine .following start i changed member there name ?_ ?_ ?_ ?_
  · rwa [keys, same]
  · rw [starts_append, new, List.append_nil, started]
  · rwa [acks_append, unacked, List.append_nil]
  · rw [numbers_append, skips_append]
    exact follows start _ _ before

theorem stage_recv (socket : WebSocket) (i : Nat) (history : List Trace)
    (stage : Stage key socket history) :
    Stage key { socket with forwarders := socket.forwarders.modify i socket.recv }
      (history ++ socket.trace (.recv i)) := by
  have same : (socket.forwarders.modify i socket.recv).map Forwarder.key = keys socket := by
    apply List.ext_getElem?
    intro j
    rw [keys, List.getElem?_map, List.getElem?_modify, List.getElem?_map]
    cases socket.forwarders[j]? with
    | none => rfl
    | some forwarder =>
      simp only [Option.map_eq_map, Option.map_some]
      split
      next => rw [key_recv]
      next => rfl
  cases at' : socket.forwarders[i]? with
  | none =>
    simp only [trace, at', List.append_nil]
    rwa [List.modify_eq_self (List.getElem?_eq_none_iff.mp at')]
  | some forwarder =>
    have rest (j : Nat) (other : j ≠ i) :
        (socket.forwarders.modify i socket.recv)[j]? = socket.forwarders[j]? := by
      rw [List.getElem?_modify]
      simp [Ne.symm other]
    have there : (socket.forwarders.modify i socket.recv)[i]? = some (socket.recv forwarder) := by
      rw [List.getElem?_modify, at']
      simp
    by_cases mine : forwarder.key = key
    · obtain ⟨still, none⟩ | ⟨ready, payload, next, after, none⟩ |
        ⟨ready, later, behind, fits, after, one⟩ := socket.recv_cases i forwarder at'
      · rw [none]
        refine stage.moved at' mine _ _ _ there same rfl rfl fun start _ _ follows => ?_
        rw [still]
        simpa [numbers, skips] using follows
      · rw [none]
        refine stage.moved at' mine _ _ _ there same rfl rfl fun start _ _ follows => ?_
        rw [after]
        have same : upcoming { forwarder with held := some payload, next := forwarder.next + 1 } =
            upcoming forwarder := by simp [upcoming, ready]
        have inside := (List.getElem?_eq_some_iff.mp next).1
        rw [mine] at inside
        refine ⟨inside, fun _ => Nat.succ_pos _, ?_, ?_, ?_⟩
        · simpa [numbers] using follows.increasing
        · simpa [numbers, same] using follows.within
        · simpa [numbers, skips, same] using follows.counted
      · rw [one]
        refine stage.moved at' mine _ _ _ there same rfl rfl fun start _ _ follows => ?_
        rw [after]
        have before : upcoming forwarder = forwarder.next := if_pos ready
        have now : upcoming { forwarder with next := later } = later := if_pos ready
        have count : skips key [.skipped forwarder.key (later - forwarder.next)] =
            later - forwarder.next := by simp [skips, mine]
        have counted := follows.counted
        rw [before] at counted
        refine ⟨by rwa [mine] at fits, fun busy => absurd ready busy, ?_, fun number member => ?_, ?_⟩
        · simpa [numbers] using follows.increasing
        · obtain ⟨after', inside⟩ := follows.within number (by simpa [numbers] using member)
          rw [before] at inside
          rw [now]
          exact ⟨after', Nat.lt_trans inside behind⟩
        · rw [now, count, numbers, List.filterMap_cons, List.filterMap_nil, List.append_nil]
          omega
    · have elsewhere : Elsewhere key (socket.trace (.recv i)) := by
        obtain ⟨-, none⟩ | ⟨-, _, -, -, none⟩ | ⟨-, later, -, -, -, one⟩ :=
          socket.recv_cases i forwarder at'
        · rw [none]
          exact elsewhere_nil key
        · rw [none]
          exact elsewhere_nil key
        · rw [one]
          exact elsewhere_skipped _ mine
      exact stage.moves at' mine _ _ same rest elsewhere

theorem stage_forward (socket : WebSocket) (i : Nat) (history : List Trace)
    (stage : Stage key socket history) :
    Stage key (socket.forward i) (history ++ socket.trace (.forward i)) := by
  cases at' : socket.forwarders[i]? with
  | none =>
    simp only [forward, trace, at', List.append_nil]
    exact stage
  | some forwarder =>
    obtain ⟨name, next, held, running⟩ := forwarder
    cases held with
    | none =>
      simp only [forward, trace, at', List.append_nil]
      exact stage
    | some message =>
      cases running with
      | false =>
        simp only [forward, trace, at', List.append_nil]
        exact stage
      | true =>
        have inside : i < socket.forwarders.length := (List.getElem?_eq_some_iff.mp at').1
        have named : (keys socket)[i]? = some name := by
          rw [keys, List.getElem?_map, at']
          rfl
        have same (running : Bool) : (socket.forwarders.set i ⟨name, next, none, running⟩).map
            Forwarder.key = keys socket := by
          rw [List.map_set]
          apply List.ext_getElem?
          intro j
          rw [List.getElem?_set]
          split
          next here => rw [← here, named, ← keys, if_pos (List.getElem?_eq_some_iff.mp named).1]
          next => rfl
        have rest (running : Bool) (j : Nat) (other : j ≠ i) :
            (socket.forwarders.set i ⟨name, next, none, running⟩)[j]? = socket.forwarders[j]? :=
          List.getElem?_set_ne (Ne.symm other)
        have there (running : Bool) : (socket.forwarders.set i ⟨name, next, none, running⟩)[i]? =
            some ⟨name, next, none, running⟩ := List.getElem?_set_self inside
        have before : upcoming ⟨name, next, some message, true⟩ = next - 1 := rfl
        cases sent : socket.send message with
        | queued clientQueue =>
          simp only [forward, trace, at', sent]
          by_cases mine : name = key
          · subst mine
            refine stage.moved at' rfl _ _ _ (there true) (same true) rfl rfl
              fun start numbers' skips' follows => ?_
            have positive : 0 < next := follows.holds (by simp)
            have now : upcoming ⟨name, next, none, true⟩ = next := rfl
            have one : numbers name [.queued name (next - 1)] = [next - 1] := by simp [numbers]
            have counted := follows.counted
            rw [before] at counted
            rw [one]
            refine ⟨follows.fits, fun busy => absurd ⟨rfl, rfl⟩ busy, ?_, fun number member => ?_, ?_⟩
            · refine List.pairwise_append.mpr ⟨follows.increasing, List.pairwise_singleton _ _, ?_⟩
              intro number member last final
              rw [List.mem_singleton.mp final]
              exact (follows.within number member).2
            · rw [now]
              obtain old | new := List.mem_append.mp member
              · obtain ⟨after, below⟩ := follows.within number old
                rw [before] at below
                exact ⟨after, by omega⟩
              · rw [List.mem_singleton.mp new]
                omega
            · have none : skips name [.queued name (next - 1)] = 0 := rfl
              rw [now, none, List.length_append, List.length_singleton]
              omega
          · exact stage.moves at' mine _ _ (same true) (rest true) (elsewhere_queued _ mine)
        | full =>
          simp only [forward, trace, at', sent, List.append_nil]
          exact stage
        | gone =>
          simp only [forward, trace, at', sent]
          by_cases mine : name = key
          · subst mine
            refine stage.moved at' rfl _ _ _ (there false) (same false) rfl rfl
              fun start numbers' skips' follows => ?_
            have now : upcoming ⟨name, next, none, false⟩ = next - 1 := rfl
            refine ⟨follows.fits, fun _ => follows.holds (by simp), ?_, ?_, ?_⟩
            · simpa [numbers] using follows.increasing
            · simpa [numbers, now, before] using follows.within
            · simpa [numbers, skips, now, before] using follows.counted
          · exact stage.moves at' mine _ _ (same false) (rest false) (elsewhere_nil key)

theorem stage_step (fromStr : Str → Option WsAction) (socket : WebSocket) (history : List Trace)
    (event : WsEvent) (stage : Stage key socket history) :
    Stage key (socket.step fromStr event) (history ++ socket.trace event) := by
  have mine : ∀ (i : Nat) (forwarder : Forwarder), socket.forwarders[i]? = some forwarder →
      forwarder.key = key → socket.forwarders[i]? = some forwarder := fun _ _ there _ => there
  cases event with
  | publish name payload =>
    have grown := TopicRegistry.sent_broadcastUpdate socket.registry name key payload
    exact stage.frame rfl rfl rfl mine grown.length_le (elsewhere_nil key)
  | entry name =>
    refine stage.frame rfl rfl rfl mine ?_ (elsewhere_nil key)
    simp only [step, TopicRegistry.sent_orInsert]
    exact Nat.le_refl _
  | receive message =>
    simp only [trace, List.append_nil]
    exact stage_receive fromStr socket message history stage
  | read => exact stage_read socket history stage
  | recv i => exact stage_recv socket i history stage
  | forward i => exact stage_forward socket i history stage
  | pull =>
    simp only [step, pull]
    split
    next => exact stage.frame rfl rfl rfl mine (Nat.le_refl _) (elsewhere_nil key)
    next => exact stage.frame rfl rfl rfl mine (Nat.le_refl _) (elsewhere_nil key)
  | push sent =>
    simp only [step, push]
    split
    next =>
      split
      next => exact stage.frame rfl rfl rfl mine (Nat.le_refl _) (elsewhere_nil key)
      next => exact stage.frame rfl rfl rfl mine (Nat.le_refl _) (elsewhere_nil key)
    next => exact stage.frame rfl rfl rfl mine (Nat.le_refl _) (elsewhere_nil key)

theorem stage_run (key : Str) (fromStr : Str → Option WsAction) (registry : TopicRegistry)
    (events : List WsEvent) :
    Stage key (Steps.run (step fromStr) (start registry) events)
      (history fromStr (start registry) events) :=
  Steps.outputs_invariant (stage_step fromStr) (start registry) [] events
    (.away (fun member => nomatch member) (fun names => names) (fun member => nomatch member)
      (elsewhere_nil key))

end Subscription

theorem eq_range' (numbers : List Nat) (start : Nat) (increasing : numbers.Pairwise (· < ·))
    (within : ∀ number ∈ numbers, start ≤ number ∧ number < start + numbers.length) :
    numbers = List.range' start numbers.length := by
  induction numbers generalizing start with
  | nil => rfl
  | cons first numbers ih =>
    obtain ⟨least, rest⟩ := List.pairwise_cons.mp increasing
    obtain ⟨low, high⟩ := within first List.mem_cons_self
    rw [List.length_cons] at within
    have tail := ih (start + 1) rest fun number member => by
      have after := least number member
      obtain ⟨_, below⟩ := within number (List.mem_cons_of_mem _ member)
      omega
    have same : first = start := by
      cases numbers with
      | nil => simp at high; omega
      | cons second numbers =>
        have next : second = start + 1 := (List.cons.inj tail).1
        have before := least second List.mem_cons_self
        omega
    rw [List.length_cons, List.range'_succ, ← tail, same]

/-- Nothing is on its way, and no forwarder has anything left to do. -/
structure Quiet (socket : WebSocket) : Prop where
  open' : socket.closed = false
  pushed : socket.pushing = none ∧ socket.clientQueue = []
  idle : socket.reader = .waiting ∨ socket.reader = .ended
  caughtUp : ∀ forwarder ∈ socket.forwarders, forwarder.held = none ∧ forwarder.running = true ∧
    forwarder.next = (socket.registry.sent forwarder.key).length

structure Delivered (socket : WebSocket) (history : List Trace) (key : Str) (start : Nat) :
    Prop where
  increasing : (numbers key history).Pairwise (· < ·)
  -- what is missing in front of a number was skipped
  within : ∀ number ∈ numbers key history,
    start ≤ number ∧ number < start + (numbers key history).length + skips key history
  gapless : skips key history = 0 →
    numbers key history = List.range' start (numbers key history).length
  counted : start + (numbers key history).length + skips key history ≤
    (socket.registry.sent key).length
  complete : Quiet socket → start + (numbers key history).length + skips key history =
    (socket.registry.sent key).length

theorem delivered_following {key : Str} {socket : WebSocket} {history : List Trace} {start i : Nat}
    {forwarder : Forwarder} (at' : socket.forwarders[i]? = some forwarder)
    (named : forwarder.key = key)
    (follows : Follows (socket.registry.sent key).length start forwarder (numbers key history)
      (skips key history)) : Delivered socket history key start := by
  have counted := follows.counted
  refine ⟨follows.increasing, fun number member => ?_, fun even => ?_, ?_, fun quiet => ?_⟩
  · rw [counted]
    exact follows.within number member
  · apply eq_range' _ _ follows.increasing
    intro number member
    obtain ⟨after, below⟩ := follows.within number member
    exact ⟨after, by omega⟩
  · have fits := follows.fits
    have last : upcoming forwarder ≤ forwarder.next := by
      unfold upcoming
      split <;> omega
    omega
  · obtain ⟨empty, running, next⟩ := quiet.caughtUp forwarder (List.mem_of_getElem? at')
    rw [counted, upcoming, if_pos ⟨empty, running⟩, next, named]

theorem delivered_stage {key : Str} {socket : WebSocket} {history : List Trace}
    (stage : Stage key socket history) :
    (acks key history).length ≤ 1 ∧
      (starts key history = [] → acks key history = [] ∧ numbers key history = []) ∧
      ∀ start ∈ starts key history,
        starts key history = [start] ∧ Delivered socket history key start := by
  cases stage with
  | away _ _ _ nothing =>
    rw [nothing.unacked, nothing.new]
    exact ⟨Nat.zero_le 1, fun _ => ⟨rfl, nothing.silent⟩, fun _ member => nomatch member⟩
  | entering _ _ _ nothing =>
    rw [nothing.unacked, nothing.new]
    exact ⟨Nat.zero_le 1, fun _ => ⟨rfl, nothing.silent⟩, fun _ member => nomatch member⟩
  | spawning start _ reader fits _ started unacked silent even =>
    rw [started, unacked]
    refine ⟨Nat.zero_le 1, fun none => (nomatch none), fun number member => ?_⟩
    obtain rfl := List.mem_singleton.mp member
    refine ⟨rfl, by simp [silent], by simp [silent], fun _ => by rw [silent]; rfl,
      by rwa [silent, even], fun quiet => ?_⟩
    have idle := quiet.idle
    rw [reader] at idle
    simp at idle
  | following start i forwarder member at' named only started acked follows =>
    rw [started]
    refine ⟨?_, fun none => (nomatch none), fun number member => ?_⟩
    · obtain ⟨_, few⟩ | ⟨_, none⟩ := acked
      · exact few
      · rw [none]
        exact Nat.zero_le 1
    · obtain rfl := List.mem_singleton.mp member
      exact ⟨rfl, delivered_following at' named follows⟩

theorem delivery (fromStr : Str → Option WsAction) (registry : TopicRegistry)
    (events : List WsEvent) :
    let socket := Steps.run (step fromStr) (start registry) events
    let history := history fromStr (start registry) events
    socket.frames <+: payloads socket.registry history ∧
      (Quiet socket → socket.frames = payloads socket.registry history) ∧
      ∀ key, (acks key history).length ≤ 1 ∧
        (starts key history = [] → acks key history = [] ∧ numbers key history = []) ∧
        ∀ start ∈ starts key history,
          starts key history = [start] ∧ Delivered socket history key start := by
  intro socket history
  have on : OnLine socket history := onLine_run fromStr registry events
  refine ⟨List.IsPrefix.trans ?_ on.ahead, fun quiet => ?_, fun key => ?_⟩
  · rw [line, List.append_assoc]
    exact List.prefix_append _ _
  · rw [← on.whole quiet.open', line, quiet.pushed.1, quiet.pushed.2]
    simp
  · exact delivered_stage (stage_run key fromStr registry events)

end WebSocket

end OmegaDrive
