import OmegaDrive.Connection.Bench
import OmegaDrive.Connection.Sessions
import OmegaDrive.Connection.Vectors
import OmegaDrive.Vector.Results

set_option autoImplicit false

namespace OmegaDrive

open Cursor

section Keys

variable {F : Type}

def Request.Keyed : Request F → Prop
  | .command (.vAdd key _) _ => key.bytes.length < 2 ^ 32
  | _ => True

variable [FloatText F]

def Request.Parsed (request : Request F) : Prop := ∃ buf used, readRequest buf = some (request, used)

def AllParsed (requests : List (Request F)) : Prop := ∀ request ∈ requests, request.Parsed

theorem keyed_readRequest : Yields (readRequest (F := F)) Request.Keyed := by
  refine readRequest_yields bounded_parseCommandFast (fun command whole bounded => ?_)
    (fun _ => trivial) fun _ => trivial
  cases command with
  | vAdd key floats => exact bounded.1
  | _ => trivial

theorem Request.Parsed.keyed {request : Request F} (parsed : request.Parsed) : request.Keyed := by
  obtain ⟨buf, used, run⟩ := parsed
  exact keyed_readRequest buf request used run

end Keys

section Searches

variable {F : Type} [FloatArith F]

omit [FloatArith F] in
theorem vectors_keyed (requests : List (Request F)) (keyed : ∀ request ∈ requests, request.Keyed)
    (vector : Added F) (member : vector ∈ Request.vectors requests) :
    ∃ key : Str, key.bytes = vector.key.asBytes ∧ key.bytes.length < 2 ^ 32 := by
  obtain ⟨request, asked, stored⟩ := List.mem_flatMap.mp (SharedVectorStore.mem_added _ _ member)
  cases request with
  | mset batch => cases stored
  | mget keys => cases stored
  | command command whole =>
    cases command with
    | vAdd key floats =>
      have same := List.mem_singleton.mp stored
      injection same with sameKey
      exact ⟨key, by rw [sameKey, AirKey.asBytes_fromBytes], keyed _ asked⟩
    | flushDb => cases List.mem_singleton.mp stored
    | _ => cases stored

theorem search_named (env : Env) (numCpus : Nat) (requests : List (Request F))
    (keyed : ∀ request ∈ requests, request.Keyed) (few : requests.length < 2 ^ 64) (k : Nat)
    (positive : 0 < k) (room : Reserves 24 k) (floats : List F) :
    let vectorDb := ((Server.new numCpus).run env requests).vectorDb
    ∃ results, vectorDb.searchReranked env.std (vectorDb.quantize floats) floats k = some results ∧
      results.length ≤ k ∧ ∀ result ∈ results, ∃ key : Str, key.bytes = result.1.asBytes ∧
        key.bytes.length < 2 ^ 32 := by
  intro vectorDb
  have placed := Server.placed_requests env 1536 numCpus rfl (Server.new (F := F) numCpus) rfl requests
  have ops := Server.vectorDb_ops env (Server.new (F := F) numCpus) requests
  have formed : SharedVectorStore.WellFormed vectorDb := by
    rw [show vectorDb = _ from ops]
    exact SharedVectorStore.wellFormed_run _ _ (SharedVectorStore.wellFormed_new 1536 numCpus rfl)
  have count : vectorDb.len = (Request.vectors requests).length := by
    rw [show vectorDb = _ from ops]
    exact SharedVectorStore.len_run (max numCpus 4) 1536 (by omega) _
  have stored : vectorDb.len < 2 ^ 64 := by
    have fewer := Request.length_vectors_le requests
    omega
  obtain ⟨entries, found, listing⟩ := SharedVectorStore.searchReranked_listing env.std vectorDb
    formed (vectorDb.quantize floats) (SharedVectorStore.length_quantize vectorDb floats) floats k
    positive (SharedVectorStore.reserved_of_heaps vectorDb k stored room)
  refine ⟨_, found, ?_, fun result member => ?_⟩
  · rw [List.length_map, listing.size]
    exact Nat.min_le_left _ _
  · obtain ⟨entry, inside, rfl⟩ := List.mem_map.mp member
    obtain ⟨places, _, each⟩ := listing.places
    obtain ⟨place, _, shard, present, key, _⟩ := OptionLoop.related_mem each entry inside
    have stored := List.mem_of_getElem? key
    rw [placed.keys_eq place.1 shard present] at stored
    obtain ⟨vector, dealt, same⟩ := List.mem_map.mp stored
    rw [← same]
    exact vectors_keyed requests keyed vector (RoundRobin.mem_of_mem_dealt _ _ _ dealt)

end Searches

theorem reads_next {F : Type} [FloatText F] (text : Bytes) (command : Command F)
    (whole : command.isHeader = false) (first : ∃ tail, text = 42 :: tail)
    (reads : Reads parseCommandFast text command) :
    Reads next text (some (.command command whole)) := by
  have request : Reads readRequest (text ++ []) (.command command whole) := by
    refine reads.bind ?_
    rw [readArguments, dif_pos whole]
    exact reads_pure _
  rw [List.append_nil] at request
  obtain ⟨tail, rfl⟩ := first
  intro rest
  rw [List.cons_append, next, if_pos rfl, ← List.cons_append, request rest]
  rfl

inductive Exchange (F : Type) where
  | flush
  | load (batch : List (Str × List F))
  | search (k : Nat) (query : List F)

namespace Exchange

variable {F : Type} [FloatText F] (fixed : FixedText F)

def Fits : Exchange F → Prop
  | flush => True
  | load batch => ∀ entry ∈ batch, entry.1.bytes.length < 2 ^ 32 ∧ fixed.Fits entry.2
  | search k query => 0 < k ∧ 24 * (k + 1) < 2 ^ 63 ∧ fixed.Fits query

instance (exchange : Exchange F) : Decidable (exchange.Fits fixed) :=
  match exchange with
  | flush => inferInstanceAs (Decidable True)
  | load batch => inferInstanceAs (Decidable (∀ entry ∈ batch, _ ∧ fixed.Fits entry.2))
  | search _ query => inferInstanceAs (Decidable (_ ∧ _ ∧ fixed.Fits query))

def asked : Exchange F → List (Bytes × Request F)
  | flush => [(Client.flushCmd, .command .flushDb rfl)]
  | load batch => batch.map fun (key, vec) =>
      (Client.formatVaddCmd fixed key vec, .vAdd key (vec.map fixed.rounded))
  | search k query => [(Client.formatVsearchCmd fixed k query,
      .command (.vSearch k (query.map fixed.rounded)) rfl)]

def written (exchange : Exchange F) : Bytes := (exchange.asked fixed).flatMap Prod.fst

def answer [FloatArith F] : Exchange F → Cursor Byte (List (Str × F))
  | flush => do
    Client.readFlushed
    return []
  | load batch => do
    Client.readLoaded batch.length
    return []
  | search _ _ => Client.readVsearchResponse

theorem reads_asked (exchange : Exchange F) (fits : exchange.Fits fixed) (entry : Bytes × Request F)
    (member : entry ∈ exchange.asked fixed) :
    Reads next entry.1 (some entry.2) ∧ entry.2.Keyed := by
  cases exchange with
  | flush =>
    obtain rfl := List.mem_singleton.mp member
    exact ⟨reads_next _ _ rfl ⟨_, rfl⟩ Client.reads_flushCmd, trivial⟩
  | load batch =>
    obtain ⟨⟨key, vec⟩, inside, rfl⟩ := List.mem_map.mp member
    obtain ⟨short, floats⟩ := fits _ inside
    exact ⟨reads_next _ _ rfl ⟨_, rfl⟩ (Client.reads_formatVaddCmd fixed key vec short floats), short⟩
  | search k query =>
    obtain rfl := List.mem_singleton.mp member
    obtain ⟨_, small, floats⟩ := fits
    exact ⟨reads_next _ _ rfl ⟨_, rfl⟩
      (Client.reads_formatVsearchCmd fixed k query (by omega) floats), trivial⟩

def loading (batchSize : Nat) (vectors : List (Str × List F)) : List (Exchange F) :=
  (Client.loadBatches batchSize [] vectors).map .load

theorem asked_loading (batchSize : Nat) (vectors : List (Str × List F)) :
    ((loading batchSize vectors).flatMap (asked fixed)).map Prod.snd =
      vectors.map fun (key, vec) => .vAdd key (vec.map fixed.rounded) := by
  have batches (batches : List (List (Str × List F))) :
      ((batches.map Exchange.load).flatMap (asked fixed)).map Prod.snd =
        batches.flatten.map fun (key, vec) => .vAdd key (vec.map fixed.rounded) := by
    induction batches with
    | nil => rfl
    | cons batch batches ih =>
      rw [List.map_cons, List.flatMap_cons, List.map_append, ih, List.flatten_cons,
        List.map_append, asked, List.map_map]
      rfl
  rw [loading, batches]
  cases vectors with
  | nil => rfl
  | cons vector vectors =>
    rw [Client.loadBatches_flatten _ _ _ (List.cons_ne_nil _ _), List.nil_append]

end Exchange

/-- One exchange as the server meets it: in any number of reads, and before each of them the
requests of other connections. -/
structure Turn {F : Type} [FloatText F] (fixed : FixedText F) where
  exchange : Exchange F
  fits : exchange.Fits fixed
  reads : List (List (Request F) × Bytes)
  whole : (reads.map Prod.snd).flatten = exchange.written fixed
  parsed : ∀ read ∈ reads, AllParsed read.1

def Turn.requests {F : Type} [FloatText F] {fixed : FixedText F} (turn : Turn fixed) : Nat :=
  (turn.reads.flatMap Prod.fst).length + (turn.exchange.asked fixed).length

section Converse

variable {F : Type} [FloatText F] [FloatArith F]

def Connection.meanwhile (env : Env) (conn : Connection F) (others : List (Request F)) :
    Connection F :=
  { conn with server := conn.server.run env others }

def Turn.receive {fixed : FixedText F} (env : Env) (turn : Turn fixed)
    (progress : Incremental.Progress (Connection F) Byte) :
    Incremental.Progress (Connection F) Byte :=
  turn.reads.foldl
    (Incremental.receiveAmid next (Connection.step env) (Connection.meanwhile env)) progress

/-- The client goes on when it has read an answer and nothing is left of the replies. -/
def converse {fixed : FixedText F} (env : Env) :
    Incremental.Progress (Connection F) Byte → List (Turn fixed) → Option (List (List (Str × F)))
  | _, [] => some []
  | .ended _, _ :: _ => none
  | .waiting conn rest, turn :: turns =>
    match turn.receive env (.waiting conn rest) with
    | .ended _ => none
    | .waiting after rest => do
      -- A connection that waits has written the replies of its reads.
      let replies := after.appended.drop conn.appended.length
      let (answer, used) ← turn.exchange.answer replies
      if used = replies.length then (converse env (.waiting after rest) turns).map (answer :: ·)
      else none

abbrev Schedule (F : Type) := List (Request F ⊕ Request F)

def performed (schedule : Schedule F) : List (Request F) := schedule.map (Sum.elim id id)

-- What the own requests are answered with; none is a panic.
def ownReplies (env : Env) : Server F → Schedule F → List (Option Bytes)
  | _, [] => []
  | server, .inl request :: schedule => ownReplies env (server.handle env request).1 schedule
  | server, .inr request :: schedule =>
    (server.handle env request).2 :: ownReplies env (server.handle env request).1 schedule

def Exchange.Answered (fixed : FixedText F) (env : Env) (server : Server F) (schedule : Schedule F)
    (answer : List (Str × F)) : Exchange F → Prop
  | flush | load _ => answer = []
  | search k query => ∃ before later results,
      let floats := query.map fixed.rounded
      let vectorDb := (server.run env (performed before)).vectorDb
      schedule = before ++ .inr (.command (.vSearch k floats) rfl) :: later ∧
        vectorDb.searchReranked env.std (vectorDb.quantize floats) floats k = some results ∧
        Client.answerOf results = some answer

def Conversed {fixed : FixedText F} (env : Env) :
    Server F → List (Turn fixed) → List (List (Str × F)) → Prop
  | _, [], [] => True
  | server, turn :: turns, answer :: answers =>
    ∃ schedule : Schedule F,
      schedule.filterMap Sum.getLeft? = turn.reads.flatMap Prod.fst ∧
      schedule.filterMap Sum.getRight? = (turn.exchange.asked fixed).map Prod.snd ∧
      turn.exchange.Answered fixed env server schedule answer ∧
      Conversed env (server.run env (performed schedule)) turns answers
  | _, _, _ => False

omit [FloatText F] [FloatArith F] in
theorem performed_append (first second : Schedule F) :
    performed (first ++ second) = performed first ++ performed second :=
  List.map_append

omit [FloatText F] [FloatArith F] in
theorem performed_others (requests : List (Request F)) :
    performed (requests.map Sum.inl) = requests := by
  rw [performed, List.map_map]
  exact (List.map_congr_left fun _ _ => rfl).trans (List.map_id _)

omit [FloatText F] in
theorem run_performed (env : Env) (server : Server F) (first second : Schedule F) :
    server.run env (performed (first ++ second)) =
      (server.run env (performed first)).run env (performed second) := by
  rw [performed_append, Server.run, List.foldl_append]
  rfl

omit [FloatText F] in
theorem ownReplies_append (env : Env) (server : Server F) (first second : Schedule F) :
    ownReplies env server (first ++ second) =
      ownReplies env server first ++ ownReplies env (server.run env (performed first)) second := by
  induction first generalizing server with
  | nil => rfl
  | cons turn first ih =>
    cases turn with
    | inl request => exact ih _
    | inr request => exact congrArg _ (ih _)

omit [FloatText F] in
theorem ownReplies_others (env : Env) (server : Server F) (requests : List (Request F)) :
    ownReplies env server (requests.map Sum.inl) = [] := by
  induction requests generalizing server with
  | nil => rfl
  | cons request requests ih => exact ih _

omit [FloatText F] in
theorem ownReplies_ok (env : Env) (server : Server F) (schedule : Schedule F)
    (ok : ∀ request ∈ schedule.filterMap Sum.getRight?, ∀ server : Server F,
      (server.handle env request).2 = some respOk) :
    ownReplies env server schedule =
      List.replicate (schedule.filterMap Sum.getRight?).length (some respOk) := by
  induction schedule generalizing server with
  | nil => rfl
  | cons turn schedule ih =>
    cases turn with
    | inl request => exact ih _ ok
    | inr request =>
      have later := ih (server.handle env request).1 fun other member =>
        ok other (List.mem_cons_of_mem _ member)
      rw [ownReplies, ok request List.mem_cons_self, later]
      rfl

omit [FloatText F] [FloatArith F] in
theorem own_split (schedule : Schedule F) (request : Request F)
    (own : schedule.filterMap Sum.getRight? = [request]) :
    ∃ before later : List (Request F),
      schedule = before.map Sum.inl ++ .inr request :: later.map Sum.inl := by
  induction schedule with
  | nil => cases own
  | cons turn schedule ih =>
    cases turn with
    | inl other =>
      obtain ⟨before, later, rfl⟩ := ih own
      exact ⟨other :: before, later, rfl⟩
    | inr first =>
      obtain ⟨rfl, none⟩ := List.cons.inj own
      refine ⟨[], schedule.filterMap Sum.getLeft?, congrArg _ ?_⟩
      have left : ∀ schedule : Schedule F, schedule.filterMap Sum.getRight? = [] →
          schedule = (schedule.filterMap Sum.getLeft?).map Sum.inl := by
        intro schedule nothing
        induction schedule with
        | nil => rfl
        | cons turn schedule ih =>
          cases turn with
          | inl other => exact congrArg _ (ih nothing)
          | inr other => cases nothing
      exact left schedule none

structure Amid (env : Env) (first : Server F) (before : Bytes) (asked : List (Request F))
    (conn : Connection F) (others : List (List (Request F)))
    (items : List (Bytes × Option (Request F))) (schedule : Schedule F) (replies : List Bytes) :
    Prop where
  server : conn.server = first.run env (performed schedule)
  others : schedule.filterMap Sum.getLeft? = others.flatten
  own : (schedule.filterMap Sum.getRight?).map some ++ items.map Prod.snd = asked.map some
  appended : conn.appended = before ++ replies.flatten
  replies : ownReplies env first schedule = replies.map some

omit [FloatText F] in
theorem amid_meanwhile {env : Env} {first : Server F} {before : Bytes} {asked : List (Request F)}
    {conn : Connection F} {others : List (List (Request F))}
    {items : List (Bytes × Option (Request F))} {schedule : Schedule F} {replies : List Bytes}
    (amid : Amid env first before asked conn others items schedule replies)
    (requests : List (Request F)) :
    Amid env first before asked (conn.meanwhile env requests) (others ++ [requests]) items
      (schedule ++ requests.map Sum.inl) replies where
  server := by
    rw [run_performed, performed_others, ← amid.server]
    rfl
  others := by
    rw [List.filterMap_append, amid.others, List.flatten_append, List.flatten_singleton,
      List.filterMap_map]
    congr 1
    exact List.filterMap_some
  own := by
    have none : (requests.map Sum.inl : Schedule F).filterMap Sum.getRight? = [] := by
      rw [List.filterMap_map]
      exact List.filterMap_eq_nil_iff.mpr fun _ _ => rfl
    rw [List.filterMap_append, none, List.append_nil, amid.own]
  appended := amid.appended
  replies := by
    rw [ownReplies_append, ownReplies_others, List.append_nil, amid.replies]

omit [FloatText F] in
theorem amid_served {env : Env} {first : Server F} {before : Bytes} {asked : List (Request F)}
    {conn : Connection F} {others : List (List (Request F))} {text : Bytes} {request : Request F}
    {items : List (Bytes × Option (Request F))} {schedule : Schedule F} {replies : List Bytes}
    (amid : Amid env first before asked conn others ((text, some request) :: items) schedule replies)
    (reply : Bytes) (handled : (conn.server.handle env request).2 = some reply) :
    ∃ after, conn.step env (some request) text.length = .inl after ∧
      Amid env first before asked after others items (schedule ++ [.inr request])
        (replies ++ [reply]) := by
  have split : conn.server.handle env request = ((conn.server.handle env request).1, some reply) := by
    rw [← handled]
  refine ⟨{ server := (conn.server.handle env request).1, consumed := conn.consumed + text.length,
            dispatched := conn.dispatched ++ [(conn.consumed, request)],
            appended := conn.appended ++ reply }, ?_, ?_, ?_, ?_, ?_, ?_⟩
  · rw [Connection.step, split]
  · rw [run_performed, ← amid.server]
    rfl
  · rw [List.filterMap_append, amid.others]
    exact List.append_nil _
  · rw [← amid.own, List.filterMap_append]
    simp
  · simp [amid.appended]
  · rw [ownReplies_append, ← amid.server, amid.replies]
    simp [ownReplies, handled]

theorem handle_asked (env : Env) (numCpus : Nat) (requests : List (Request F))
    (keyed : ∀ request ∈ requests, request.Keyed) (fixed : FixedText F) (exchange : Exchange F)
    (few : requests.length < 2 ^ 64) (fits : exchange.Fits fixed) (entry : Bytes × Request F)
    (member : entry ∈ exchange.asked fixed) :
    ∃ reply, (((Server.new numCpus).run env requests).handle env entry.2).2 = some reply := by
  cases exchange with
  | flush =>
    obtain rfl := List.mem_singleton.mp member
    exact ⟨respOk, rfl⟩
  | load batch =>
    obtain ⟨⟨key, vec⟩, _, rfl⟩ := List.mem_map.mp member
    exact ⟨respOk, rfl⟩
  | search k query =>
    obtain rfl := List.mem_singleton.mp member
    obtain ⟨results, found, _⟩ :=
      search_named env numCpus requests keyed few k fits.1 (reserves_of_lt fits.2.1)
        (query.map fixed.rounded)
    exact ⟨Server.vsearchReply results, congrArg (Option.map Server.vsearchReply) found⟩

omit [FloatText F] [FloatArith F] in
theorem length_performed (schedule : Schedule F) : (performed schedule).length =
    (schedule.filterMap Sum.getLeft?).length + (schedule.filterMap Sum.getRight?).length := by
  rw [performed, List.length_map]
  induction schedule with
  | nil => rfl
  | cons turn schedule ih =>
    cases turn with
    | inl request =>
      rw [List.length_cons, ih]
      exact Nat.add_right_comm _ _ 1
    | inr request =>
      rw [List.length_cons, ih]
      rfl

def Expecting (env : Env) (first : Server F) (before : Bytes) (asked : List (Bytes × Request F))
    (all : List (List (Request F))) (conn : Connection F) (others : List (List (Request F)))
    (items : List (Bytes × Option (Request F))) : Prop :=
  (∀ item ∈ items, ∃ entry ∈ asked, item = (entry.1, some entry.2)) ∧ others <+: all ∧
    ∃ schedule replies, Amid env first before (asked.map Prod.snd) conn others items schedule replies ∧
      ∀ request ∈ performed schedule, request.Keyed

theorem receive_turn (env : Env) (numCpus : Nat) (earlier : List (Request F))
    (keyed : ∀ request ∈ earlier, request.Keyed) {fixed : FixedText F} (turn : Turn fixed)
    (few : earlier.length + turn.requests < 2 ^ 64) (conn : Connection F)
    (ran : conn.server = (Server.new numCpus).run env earlier) :
    ∃ after schedule replies, turn.receive env (.waiting conn []) = .waiting after [] ∧
      Amid env conn.server conn.appended ((turn.exchange.asked fixed).map Prod.snd) after
        (turn.reads.map Prod.fst) [] schedule replies ∧
      ∀ request ∈ performed schedule, request.Keyed := by
  let asked := turn.exchange.asked fixed
  let all := turn.reads.map Prod.fst
  have served (now : Connection F) (others : List (List (Request F))) (text : Bytes)
      (item : Option (Request F)) (items : List (Bytes × Option (Request F)))
      (expecting : Expecting env conn.server conn.appended asked all now others ((text, item) :: items)) :
      Reads next text item ∧ ∃ after, now.step env item text.length = .inl after ∧
        Expecting env conn.server conn.appended asked all after others items := by
    obtain ⟨texts, early, schedule, replies, amid, named⟩ := expecting
    obtain ⟨⟨_, request⟩, member, same⟩ := texts _ List.mem_cons_self
    obtain ⟨rfl, rfl⟩ := Prod.mk.inj same
    obtain ⟨reads, own⟩ := turn.exchange.reads_asked fixed turn.fits _ member
    have history : now.server = (Server.new numCpus).run env (earlier ++ performed schedule) := by
      rw [amid.server, ran, Server.run, Server.run, Server.run, List.foldl_append]
    have known : ∀ request ∈ earlier ++ performed schedule, request.Keyed := fun other inside =>
      (List.mem_append.mp inside).elim (keyed other) (named other)
    have count : (earlier ++ performed schedule).length < 2 ^ 64 := by
      have own := congrArg List.length amid.own
      have others : others.flatten.length ≤ (turn.reads.flatMap Prod.fst).length := by
        rw [List.flatMap_def]
        exact early.flatten.length_le
      have size := length_performed schedule
      rw [amid.others] at size
      rw [Turn.requests] at few
      simp only [List.length_append, List.length_map, List.length_cons] at own ⊢
      change _ = (turn.exchange.asked fixed).length at own
      omega
    obtain ⟨reply, handled⟩ :=
      handle_asked env numCpus _ known fixed turn.exchange count turn.fits _ member
    rw [← history] at handled
    obtain ⟨after, stepped, next⟩ := amid_served amid reply handled
    refine ⟨reads, after, stepped, fun item inside => texts item (List.mem_cons_of_mem _ inside),
      early, _, _, next, fun other inside => ?_⟩
    rw [performed_append] at inside
    obtain before | last := List.mem_append.mp inside
    · exact named other before
    · rw [List.mem_singleton.mp last]
      exact own
  have changed (now : Connection F) (others : List (List (Request F))) (requests : List (Request F))
      (items : List (Bytes × Option (Request F)))
      (expecting : Expecting env conn.server conn.appended asked all now others items)
      (early : others ++ [requests] <+: all) :
      Expecting env conn.server conn.appended asked all (now.meanwhile env requests)
        (others ++ [requests]) items := by
    obtain ⟨texts, _, schedule, replies, amid, known⟩ := expecting
    obtain ⟨read, member, same⟩ := List.mem_map.mp (early.subset (List.mem_append_right _
      List.mem_cons_self))
    refine ⟨texts, early, _, replies, amid_meanwhile amid requests, fun other inside => ?_⟩
    rw [performed_append, performed_others] at inside
    exact (List.mem_append.mp inside).elim (known other) fun foreign =>
      (turn.parsed read member other (same ▸ foreign)).keyed
  have start : Expecting env conn.server conn.appended asked all conn []
      (asked.map fun entry => (entry.1, some entry.2)) := by
    refine ⟨fun item inside => ?_, List.nil_prefix, [], [], ⟨rfl, rfl, ?_, (List.append_nil _).symm, rfl⟩,
      fun _ none => by cases none⟩
    · obtain ⟨entry, member, rfl⟩ := List.mem_map.mp inside
      exact ⟨entry, member, rfl⟩
    · simp [Function.comp_def]
  have whole : [] ++ (turn.reads.map Prod.snd).flatten =
      (asked.map fun entry => (entry.1, some entry.2)).flatMap Prod.fst := by
    rw [turn.whole, List.flatMap_map]
    rfl
  have partly : ∀ head ∈ (asked.map fun entry => (entry.1, some entry.2)).head?,
      ([] : Bytes).length < head.1.length := by
    intro head first
    obtain ⟨entry, member, rfl⟩ := List.mem_map.mp (List.mem_of_mem_head? first)
    exact Incremental.reads_nonempty advances_next _ _
      (turn.exchange.reads_asked fixed turn.fits entry member).1
  obtain ⟨after, received, _, _, schedule, replies, amid, known⟩ :=
    Incremental.receiveAmid_items selfDelimiting_next advances_next served changed turn.reads
      conn [] _ rfl start [] whole partly
  exact ⟨after, schedule, replies, received, amid, known⟩

omit [FloatText F] in
theorem replies_ok (env : Env) (first : Server F) (schedule : Schedule F) (asked : List (Request F))
    (own : schedule.filterMap Sum.getRight? = asked)
    (ok : ∀ request ∈ asked, ∀ server : Server F, (server.handle env request).2 = some respOk)
    (replies : List Bytes) (replied : ownReplies env first schedule = replies.map some) :
    replies = List.replicate asked.length respOk := by
  subst own
  rw [ownReplies_ok env first schedule ok] at replied
  have same : replies.map some =
      (List.replicate (schedule.filterMap Sum.getRight?).length respOk).map some := by
    rw [← replied, List.map_replicate]
  exact List.map_injective_iff.mpr (Option.some_injective _) same

theorem reads_replies (env : Env) (numCpus : Nat)
    (i32 : ∀ f : F, -2 ^ 31 ≤ FloatArith.toI32 f ∧ FloatArith.toI32 f < 2 ^ 31)
    (earlier : List (Request F)) (keyed : ∀ request ∈ earlier, request.Keyed)
    (fixed : FixedText F) (exchange : Exchange F) (fits : exchange.Fits fixed) (schedule : Schedule F)
    (known : ∀ request ∈ performed schedule, request.Keyed)
    (few : (earlier ++ performed schedule).length < 2 ^ 64)
    (own : schedule.filterMap Sum.getRight? = (exchange.asked fixed).map Prod.snd)
    (replies : List Bytes)
    (replied : ownReplies env ((Server.new numCpus).run env earlier) schedule = replies.map some) :
    ∃ answer, Reads exchange.answer replies.flatten answer ∧
      exchange.Answered fixed env ((Server.new numCpus).run env earlier) schedule answer := by
  cases exchange with
  | flush =>
    have all := replies_ok env _ schedule _ own
      (fun request member server => by rw [List.mem_singleton.mp member]; rfl) replies replied
    rw [all]
    refine ⟨[], ?_, rfl⟩
    have reads : Reads (Exchange.flush (F := F)).answer (respOk ++ []) [] :=
      Client.reads_flushed.bind (reads_pure _)
    exact reads
  | load batch =>
    have all := replies_ok env _ schedule _ own (fun request member server => by
      obtain ⟨_, inside, rfl⟩ := List.mem_map.mp member
      obtain ⟨_, _, rfl⟩ := List.mem_map.mp inside
      rfl) replies replied
    rw [all, List.length_map, Exchange.asked, List.length_map]
    refine ⟨[], ?_, rfl⟩
    have reads : Reads (Exchange.load batch).answer
        ((List.replicate batch.length respOk).flatten ++ []) [] :=
      (Client.reads_loaded batch.length).bind (reads_pure _)
    rwa [List.append_nil] at reads
  | search k query =>
    obtain ⟨before, later, rfl⟩ := own_split schedule _ own
    obtain ⟨results, found, size, named⟩ := search_named env numCpus (earlier ++ before)
      (fun request member => by
        obtain old | new := List.mem_append.mp member
        · exact keyed request old
        · refine known request ?_
          rw [performed_append, performed_others]
          exact List.mem_append_left _ new) (by
        rw [performed_append, performed_others, ← List.append_assoc, List.length_append] at few
        exact Nat.lt_of_le_of_lt (Nat.le_add_right _ _) few) k fits.1 (reserves_of_lt fits.2.1)
      (query.map fixed.rounded)
    have moment : ((Server.new numCpus).run env earlier).run env (performed (before.map Sum.inl)) =
        (Server.new numCpus).run env (earlier ++ before) := by
      rw [performed_others, Server.run, Server.run, Server.run, List.foldl_append]
    obtain ⟨answer, made, reads⟩ := Client.reads_answer i32 results
      (by have := fits.2.1; omega) fun result member => by
        obtain ⟨key, same, short⟩ := named result member
        exact ⟨key, same, by omega⟩
    rw [ownReplies_append, ownReplies_others, List.nil_append, ownReplies, ownReplies_others, moment]
      at replied
    have only : replies = [Server.vsearchReply results] := by
      have one : [some (Server.vsearchReply results)] = replies.map some :=
        (congrArg (fun reply => [Option.map Server.vsearchReply reply]) found.symm).trans replied
      exact List.map_injective_iff.mpr (Option.some_injective _) one.symm
    rw [only, List.flatten_singleton]
    refine ⟨answer, reads, before.map Sum.inl, later.map Sum.inl, results, rfl, ?_, made⟩
    rw [moment]
    exact found

theorem converse_answered (env : Env) (numCpus : Nat)
    (i32 : ∀ f : F, -2 ^ 31 ≤ FloatArith.toI32 f ∧ FloatArith.toI32 f < 2 ^ 31)
    {fixed : FixedText F} (earlier : List (Request F)) (parsed : AllParsed earlier)
    (turns : List (Turn fixed))
    (few : earlier.length + (turns.map Turn.requests).sum < 2 ^ 64) :
    let server := (Server.new numCpus).run env earlier
    ∃ answers, converse env (.waiting (.new server) []) turns = some answers ∧
      Conversed env server turns answers := by
  suffices from_any : ∀ (earlier : List (Request F)) (conn : Connection F),
      (∀ request ∈ earlier, request.Keyed) →
      earlier.length + (turns.map Turn.requests).sum < 2 ^ 64 →
      conn.server = (Server.new numCpus).run env earlier →
        ∃ answers, converse env (.waiting conn []) turns = some answers ∧
          Conversed env conn.server turns answers from
    from_any earlier _ (fun request member => (parsed request member).keyed) few rfl
  clear few
  induction turns with
  | nil => exact fun _ _ _ _ _ => ⟨[], rfl, trivial⟩
  | cons turn turns ih =>
    intro earlier conn keyed few ran
    rw [List.map_cons, List.sum_cons] at few
    obtain ⟨after, schedule, replies, received, amid, known⟩ :=
      receive_turn env numCpus earlier keyed turn (by omega) conn ran
    have own : schedule.filterMap Sum.getRight? = (turn.exchange.asked fixed).map Prod.snd := by
      have all := amid.own
      rw [List.map_nil, List.append_nil] at all
      exact List.map_injective_iff.mpr (Option.some_injective _) all
    have size : (performed schedule).length = turn.requests := by
      rw [length_performed, amid.others, own, List.length_map, Turn.requests, List.flatMap_def]
    have count : (earlier ++ performed schedule).length = earlier.length + turn.requests := by
      rw [List.length_append, size]
    have replied := amid.replies
    have reached := amid.server
    rw [ran] at replied
    obtain ⟨answer, reads, answered⟩ := reads_replies env numCpus i32 earlier keyed fixed
      turn.exchange turn.fits schedule known (by omega) own replies replied
    obtain ⟨answers, goes, rest⟩ := ih (earlier ++ performed schedule) after
      (fun request member => (List.mem_append.mp member).elim (keyed request) (known request))
      (by omega) (by
        rw [reached, ran, Server.run, Server.run, Server.run, List.foldl_append])
    refine ⟨answer :: answers, ?_, schedule, ?_, own, ?_, ?_⟩
    · have fresh : after.appended.drop conn.appended.length = replies.flatten := by
        rw [amid.appended, List.drop_left]
      have whole := reads []
      rw [List.append_nil] at whole
      rw [converse, received]
      simp only [fresh, whole, Option.bind_eq_bind, Option.bind_some,
        if_true, goes, Option.map_some]
    · rw [amid.others, List.flatMap_def]
    · rwa [ran]
    · rw [← reached]
      exact rest

omit [FloatText F] [FloatArith F] in
theorem performed_own (schedule : Schedule F) (none : schedule.filterMap Sum.getLeft? = []) :
    performed schedule = schedule.filterMap Sum.getRight? := by
  induction schedule with
  | nil => rfl
  | cons turn schedule ih =>
    cases turn with
    | inl request => cases none
    | inr request => exact congrArg (request :: ·) (ih none)

theorem conversed_alone {fixed : FixedText F} (env : Env) (last : Turn fixed)
    (turns : List (Turn fixed)) (alone : ∀ turn ∈ turns, turn.reads.flatMap Prod.fst = [])
    (server : Server F) (answers : List (List (Str × F)))
    (conversed : Conversed env server (turns ++ [last]) answers) :
    ∃ before answer, answers = before ++ [answer] ∧
      Conversed env (server.run env
        (((turns.map Turn.exchange).flatMap (Exchange.asked fixed)).map Prod.snd))
        [last] [answer] := by
  induction turns generalizing server answers with
  | nil =>
    cases answers with
    | nil => cases conversed
    | cons answer answers =>
      obtain ⟨schedule, others, own, answered, rest⟩ := conversed
      cases answers with
      | nil => exact ⟨[], answer, rfl, schedule, others, own, answered, trivial⟩
      | cons => cases rest
  | cons turn turns ih =>
    cases answers with
    | nil => cases conversed
    | cons first answers =>
      obtain ⟨schedule, others, own, _, rest⟩ := conversed
      have mine : performed schedule = (turn.exchange.asked fixed).map Prod.snd := by
        rw [performed_own schedule (others.trans (alone turn List.mem_cons_self)), own]
      obtain ⟨before, answer, rfl, conversed⟩ :=
        ih (fun other member => alone other (List.mem_cons_of_mem _ member)) _ _ rest
      refine ⟨first :: before, answer, rfl, ?_⟩
      rw [mine, Server.run, Server.run, ← List.foldl_append] at conversed
      rwa [List.map_cons, List.flatMap_cons, List.map_append]

theorem converse_loaded (env : Env) (numCpus : Nat)
    (i32 : ∀ f : F, -2 ^ 31 ≤ FloatArith.toI32 f ∧ FloatArith.toI32 f < 2 ^ 31)
    {fixed : FixedText F} (batchSize : Nat) (vectors : List (Str × List F))
    (loads : List (Turn fixed))
    (loaded : loads.map Turn.exchange = Exchange.loading batchSize vectors) (last : Turn fixed)
    (k : Nat) (query : List F) (search : last.exchange = .search k query)
    (alone : ∀ turn ∈ loads ++ [last], turn.reads.flatMap Prod.fst = [])
    (few : ((loads ++ [last]).map Turn.requests).sum < 2 ^ 64) :
    let server := (Server.new numCpus).run env
      (vectors.map fun (key, vec) => .vAdd key (vec.map fixed.rounded))
    let floats := query.map fixed.rounded
    ∃ before answer results,
      converse env (.waiting (.new (Server.new numCpus)) []) (loads ++ [last]) =
        some (before ++ [answer]) ∧
      server.vectorDb.searchReranked env.std (server.vectorDb.quantize floats) floats k =
        some results ∧
      Client.answerOf results = some answer := by
  obtain ⟨answers, goes, conversed⟩ := converse_answered env numCpus i32 [] (fun _ none => nomatch none)
    (loads ++ [last]) (by rwa [List.length_nil, Nat.zero_add])
  obtain ⟨before, answer, rfl, final⟩ := conversed_alone env last loads
    (fun turn member => alone turn (List.mem_append_left _ member)) _ answers conversed
  rw [loaded, Exchange.asked_loading] at final
  obtain ⟨schedule, others, own, answered, _⟩ := final
  have mine := performed_own schedule
    (others.trans (alone last (List.mem_append_right _ List.mem_cons_self)))
  rw [own, search] at mine
  rw [search] at answered
  obtain ⟨earlier, later, results, rfl, found, made⟩ := answered
  -- The search is the one request, so nothing comes before it.
  have size := congrArg List.length mine
  simp only [performed, List.length_map, List.length_append, List.length_cons, Exchange.asked,
    List.length_nil] at size
  obtain rfl : earlier = [] := List.eq_nil_of_length_eq_zero (by omega)
  exact ⟨before, answer, results, goes, found, made⟩

end Converse

-- Whole numbers, read with or without the six decimal places of the benchmark.
def Pointed : Type := Int

instance : FloatArith Pointed := inferInstanceAs (FloatArith Int)

instance : FloatText Pointed where
  toStr value := FloatText.toStr (F := Int) value
  parse text :=
    if (ascii ".000000").isSuffixOf text.bytes then
      (Str.fromUtf8 (text.bytes.take (text.bytes.length - 7))).bind (FloatText.parse (F := Int))
    else FloatText.parse (F := Int) text

def pointed : FixedText Pointed where
  format value := ⟨signedText value ++ ascii ".000000", validUtf8_ascii _ fun byte member => by
    obtain digits | zeros := List.mem_append.mp member
    · exact signedText_plain value byte digits
    · have plain : (ascii ".000000").all (· < 0x80) = true := by decide
      simpa using List.all_eq_true.mp plain byte zeros⟩
  rounded value := value
  parse_format value := by
    have point : (ascii ".000000").isSuffixOf (signedText value ++ ascii ".000000") = true :=
      List.isSuffixOf_iff_suffix.mpr (List.suffix_append _ _)
    have front : (signedText value ++ ascii ".000000").take
        ((signedText value ++ ascii ".000000").length - 7) = signedText value := by
      have size : (signedText value ++ ascii ".000000").length - 7 = (signedText value).length := by
        rw [List.length_append]
        rfl
      rw [size, List.take_left]
    have whole : Str.fromUtf8 (signedText value) = some (FloatText.toStr (F := Int) value) :=
      Str.fromUtf8_bytes (FloatText.toStr (F := Int) value)
    simp only [FloatText.parse, point, front, whole]
    exact roundTrip_int value

theorem i32_pointed (value : Pointed) :
    -2 ^ 31 ≤ FloatArith.toI32 value ∧ FloatArith.toI32 value < 2 ^ 31 := by
  have saturated (whole : Int) : -2 ^ 31 ≤ max (-2 ^ 31) (min whole (2 ^ 31 - 1)) ∧
      max (-2 ^ 31) (min whole (2 ^ 31 - 1)) < 2 ^ 31 := by
    omega
  exact saturated value

-- A vector in two reads and a search in one, before which another connection drops the vector.
def benchTurns : List (Turn pointed) :=
  let k : Str := ⟨ascii "k", validUtf8_k⟩
  [{ exchange := .load [(k, [(1 : Int)])]
     fits := by decide
     reads := [([], ascii "*3\r\n$4\r\nVADD\r\n$1\r\nk\r\n$8"), ([], ascii "\r\n1.000000\r\n")]
     whole := by decide
     parsed := by
       intro read member request asked
       simp only [List.mem_cons, List.not_mem_nil, or_false] at member
       obtain rfl | rfl := member <;> cases asked },
   { exchange := .search 1 [(1 : Int)]
     fits := by decide
     reads := [([.command .flushDb rfl],
       ascii "*3\r\n$7\r\nVSEARCH\r\n$1\r\n1\r\n$8\r\n1.000000\r\n")]
     whole := by decide
     parsed := by
       intro read member request asked
       obtain rfl := List.mem_singleton.mp member
       obtain rfl := List.mem_singleton.mp asked
       exact ⟨Client.flushCmd, 17, rfl⟩ }]

theorem converse_answered_bench : ∃ answers,
    converse (Server.constantEnv 0) (.waiting (.new (Server.new 4)) []) benchTurns = some answers ∧
      Conversed (Server.constantEnv 0) (Server.new 4) benchTurns answers :=
  converse_answered (Server.constantEnv 0) 4 i32_pointed [] (fun _ none => nomatch none) benchTurns
    (by decide)

end OmegaDrive
