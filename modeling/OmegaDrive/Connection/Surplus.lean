import OmegaDrive.Connection.Framing
import OmegaDrive.Connection.ReadBack

set_option autoImplicit false

namespace OmegaDrive

open Cursor Incremental

section Dispatches

variable {F : Type} [FloatText F]

def dispatches (pos : Nat) (buf : Bytes) : List (Nat × Request F) :=
  (trace next buf.length pos buf).filterMap fun (start, item) =>
    item.map fun request => (start, request)

theorem dispatches_none (pos : Nat) (buf : Bytes) (stuck : next (F := F) buf = none) :
    dispatches (F := F) pos buf = [] := by
  rw [dispatches, trace_none _ _ _ stuck]
  rfl

theorem dispatches_some (pos : Nat) (buf : Bytes) (item : Option (Request F)) (used : Nat)
    (run : next buf = some (item, used)) :
    dispatches pos buf =
      (item.map fun request => (pos, request)).toList ++
        dispatches (pos + used) (buf.drop used) := by
  rw [dispatches, trace_some selfDelimiting_next advances_next _ _ _ _ run]
  cases item <;> rfl

theorem dispatches_bound (pos : Nat) (buf : Bytes) :
    ∀ entry ∈ dispatches (F := F) pos buf, pos ≤ entry.1 := by
  intro entry member
  obtain ⟨⟨start, item⟩, inside, same⟩ := List.mem_filterMap.mp member
  obtain ⟨request, _, rfl⟩ := Option.map_eq_some_iff.mp same
  exact (trace_sorted advances_next _ _ _).1 _ inside

theorem dispatches_once (pos : Nat) (buf : Bytes) :
    ((dispatches (F := F) pos buf).map Prod.fst).Nodup := by
  have sorted := (trace_sorted (advances_next (F := F)) buf.length pos buf).2
  apply List.Pairwise.imp (R := fun first second : Nat => first < second) (fun less => by omega)
  rw [List.pairwise_map, dispatches, List.pairwise_filterMap]
  refine sorted.imp fun less first chosen second other => ?_
  obtain ⟨_, _, rfl⟩ := Option.map_eq_some_iff.mp chosen
  obtain ⟨_, _, rfl⟩ := Option.map_eq_some_iff.mp other
  exact less

/-- The rest of a text from its first line that begins with '*'. -/
def firstStar (lineStart : Bool) : Bytes → Option Bytes
  | [] => none
  | byte :: rest =>
    if lineStart && byte == 42 then some (byte :: rest) else firstStar (byte == 10) rest

def EndsLine (text : Bytes) : Prop := ∀ byte ∈ text.getLast?, byte = 10

theorem firstStar_line (lineStart : Bool) (line more : Bytes) (oneLine : 10 ∉ line)
    (plain : lineStart = true → (line ++ [10]).head? ≠ some 42) :
    firstStar lineStart (line ++ 10 :: more) = firstStar true more := by
  induction line generalizing lineStart with
  | nil => cases lineStart <;> simp [firstStar]
  | cons byte line ih =>
    have ordinary : byte ≠ 10 := fun feed => oneLine (feed ▸ List.mem_cons_self)
    have skipped : (lineStart && byte == 42) = false := by
      cases lineStart with
      | false => rfl
      | true => simpa using plain rfl
    rw [List.cons_append, firstStar, skipped, if_neg Bool.false_ne_true,
      beq_eq_false_iff_ne.mpr ordinary]
    exact ih _ (fun inside => oneLine (List.mem_cons_of_mem _ inside)) (by simp)

theorem endsLine_tail (line more : Bytes) (ends : EndsLine (line ++ 10 :: more)) :
    EndsLine more := by
  intro byte last
  apply ends
  cases more with
  | nil => cases last
  | cons other more => simpa using last

theorem EndsLine.mem_feed (byte : Byte) (text : Bytes) (ends : EndsLine (byte :: text)) :
    10 ∈ byte :: text := by
  have nonempty : byte :: text ≠ [] := List.cons_ne_nil byte text
  have last := ends _ (List.getLast?_eq_some_getLast nonempty)
  exact last ▸ List.getLast_mem nonempty

theorem next_line (line rest : Bytes) (oneLine : 10 ∉ line)
    (plain : (line ++ [10]).head? ≠ some 42) :
    next (F := F) (line ++ 10 :: rest) = some (none, line.length + 1) := by
  have skipped := skipLine_line line rest fun byte inside feed => oneLine (feed ▸ inside)
  cases line with
  | nil =>
    rw [List.nil_append] at skipped ⊢
    rw [next, if_neg (by decide), skipped]
    rfl
  | cons byte line =>
    have ordinary : byte ≠ 42 := by simpa using plain
    rw [List.cons_append] at skipped ⊢
    rw [next, if_neg ordinary, skipped]
    rfl

theorem dispatches_skip (text rest : Bytes) (ends : EndsLine text) (pos : Nat) :
    match firstStar true text with
    | none => dispatches (F := F) pos (text ++ rest) = dispatches (pos + text.length) rest
    | some line => ∃ skipped, text = skipped ++ line ∧ line.head? = some 42 ∧
        dispatches (F := F) pos (text ++ rest) =
          dispatches (pos + skipped.length) (line ++ rest) := by
  obtain ⟨count, bound⟩ : ∃ count, text.length ≤ count := ⟨_, Nat.le_refl _⟩
  induction count generalizing text pos with
  | zero =>
    obtain rfl := List.eq_nil_of_length_eq_zero (Nat.le_zero.mp bound)
    simp [firstStar]
  | succ count ih =>
    cases text with
    | nil => simp [firstStar]
    | cons byte text =>
      by_cases star : byte = 42
      · subst star
        exact ⟨[], rfl, rfl, rfl⟩
      obtain ⟨line, more, split, oneLine⟩ := List.eq_append_cons_of_mem ends.mem_feed
      have plain : (line ++ [10]).head? ≠ some 42 := by
        cases line with
        | nil => simp
        | cons other line =>
          have same := (List.cons.inj split).1
          simp [← same, star]
      rw [split] at ends bound ⊢
      rw [List.length_append, List.length_cons] at bound
      have step : dispatches (F := F) pos (line ++ 10 :: more ++ rest) =
          dispatches (pos + (line.length + 1)) (more ++ rest) := by
        rw [List.append_assoc, List.cons_append,
          dispatches_some _ _ _ _ (next_line line _ oneLine plain)]
        simp
      have later := ih more (endsLine_tail line more ends) (pos + (line.length + 1)) (by omega)
      rw [firstStar_line true line more oneLine fun _ => plain, step]
      cases found : firstStar true more with
      | none =>
        simp only [found] at later ⊢
        rw [later, List.length_append, List.length_cons]
        congr 1
        omega
      | some star =>
        simp only [found] at later ⊢
        obtain ⟨skipped, rfl, begins, same⟩ := later
        refine ⟨line ++ 10 :: skipped, by simp, begins, ?_⟩
        rw [same, List.length_append, List.length_cons]
        congr 1
        omega

end Dispatches

theorem endsLine_append (first second : Bytes) (one : EndsLine first) (other : EndsLine second) :
    EndsLine (first ++ second) := by
  intro byte last
  rw [List.getLast?_append] at last
  cases present : second.getLast? with
  | none => exact one byte (by simpa [present] using last)
  | some final =>
    rw [present] at last
    exact other byte (by simpa [present] using last)

theorem endsLine_drop (text : Bytes) (count : Nat) (ends : EndsLine text) :
    EndsLine (text.drop count) := by
  intro byte last
  rw [List.getLast?_drop] at last
  split at last
  · cases last
  · exact ends byte last

theorem endsLine_crlf (text : Bytes) : EndsLine (text ++ crlf) := by
  intro byte last
  simpa [crlf, eq_comm] using last

theorem BulkString.endsLine_text (bulk : BulkString) : EndsLine bulk.text := by
  rw [text, ← List.append_assoc]
  exact endsLine_crlf _

theorem RespArray.endsLine_text (array : RespArray) : EndsLine array.text := by
  rw [text, header, ← List.append_assoc]
  apply endsLine_append _ _ (endsLine_append _ _ (endsLine_crlf _) array.name.endsLine_text)
  induction array.args with
  | nil => simp [EndsLine]
  | cons arg args ih => exact endsLine_append _ _ arg.endsLine_text ih

section Framed

variable (F : Type) [FloatText F]

-- Where the loop is after the element at which it is, of a stream of which it has taken some bytes
-- already or none.
def takenOf (taken : Nat) (stream : Bytes) : Option Nat :=
  if taken = 0 then (readRequest (F := F) stream).map Prod.snd else some taken

-- After each request that the loop reads at an array's start, the first line that begins with '*'
-- is the start of an array again, or no complete request.
def Framed : Nat → List RespArray → Prop
  | _, [] => True
  | taken, array :: arrays =>
    match takenOf F taken (array.text ++ streamBytes arrays) with
    | none => True
    | some used =>
      if array.text.length ≤ used then Framed (used - array.text.length) arrays
      else
        match firstStar true (array.text.drop used) with
        | none => Framed 0 arrays
        | some line => readRequest (F := F) (line ++ streamBytes arrays) = none

-- No surplus argument of an array that is read has a line that begins a complete request.
def QuietSurplus : List RespArray → Prop
  | [] => True
  | array :: arrays =>
    (readRequest (F := F) array.text).isSome →
      match firstStar true array.surplus with
      | none => QuietSurplus arrays
      | some line => readRequest (F := F) (line ++ streamBytes arrays) = none

instance decidableQuietSurplus : (arrays : List RespArray) → Decidable (QuietSurplus F arrays)
  | [] => isTrue trivial
  | array :: arrays =>
    have := decidableQuietSurplus arrays
    match found : firstStar true array.surplus with
    | none =>
      decidable_of_iff ((readRequest (F := F) array.text).isSome → QuietSurplus F arrays)
        (by rw [QuietSurplus, found])
    | some line =>
      decidable_of_iff ((readRequest (F := F) array.text).isSome →
        readRequest (F := F) (line ++ streamBytes arrays) = none) (by rw [QuietSurplus, found])

theorem framed_iff_quietSurplus (arrays : List RespArray)
    (sized : ∀ array ∈ arrays, array.Sized) : Framed F 0 arrays ↔ QuietSurplus F arrays := by
  induction arrays with
  | nil => rfl
  | cons array arrays ih =>
    have rest := ih fun other member => sized other (List.mem_cons_of_mem _ member)
    obtain ⟨outcome, reads⟩ := array.readRequest_text (F := F) (sized array List.mem_cons_self)
    have alone := reads []
    rw [List.append_nil] at alone
    rw [Framed, QuietSurplus, takenOf, if_pos rfl, reads, alone]
    cases outcome with
    | none => simp
    | some request =>
      have length : array.text.length = array.readText.length + array.surplus.length := by
        rw [array.text_eq, List.length_append]
      have left : array.text.drop array.readText.length = array.surplus := by
        rw [array.text_eq, List.drop_left]
      simp only [Option.map_some, Option.isSome_some, true_implies, left]
      split
      next all =>
        have empty : array.surplus = [] := List.eq_nil_of_length_eq_zero (by omega)
        rw [empty, firstStar, Nat.sub_eq_zero_of_le (by omega)]
        exact rest
      next =>
        cases firstStar true array.surplus with
        | none => exact rest
        | some line => rfl

end Framed

section AtStarts

variable {F : Type} [FloatText F]

theorem next_array (array : RespArray) (rest : Bytes) :
    next (F := F) (array.text ++ rest) =
      (readRequest (array.text ++ rest)).map fun (request, used) => (some request, used) := by
  obtain ⟨tail, star⟩ := array.text_star
  rw [star, List.cons_append, next, if_pos rfl]

theorem mem_arrayStarts_later (pos start : Nat) (array : RespArray) (arrays : List RespArray)
    (later : pos < start) :
    start ∈ arrayStarts pos (array :: arrays) ↔
      start ∈ arrayStarts (pos + array.text.length) arrays := by
  rw [arrayStarts, List.mem_cons]
  exact or_iff_right (by omega)

-- Inside an array: the loop skips to the next one, or a line of this one begins a request.
theorem dispatches_inside (array : RespArray) (arrays : List RespArray) (pos used : Nat)
    (positive : 0 < used) (inside : used < array.text.length) :
    (∀ entry ∈ dispatches (F := F) (pos + used)
        ((array.text ++ streamBytes arrays).drop used),
        entry.1 ∈ arrayStarts pos (array :: arrays)) ↔
      match firstStar true (array.text.drop used) with
      | none => ∀ entry ∈ dispatches (F := F) (pos + array.text.length) (streamBytes arrays),
          entry.1 ∈ arrayStarts (pos + array.text.length) arrays
      | some line => readRequest (F := F) (line ++ streamBytes arrays) = none := by
  rw [List.drop_append_of_le_length (by omega)]
  have skip := dispatches_skip (F := F) (array.text.drop used) (streamBytes arrays)
    (endsLine_drop _ _ array.endsLine_text) (pos + used)
  cases found : firstStar true (array.text.drop used) with
  | none =>
    simp only [found, List.length_drop] at skip ⊢
    have end_ : pos + used + (array.text.length - used) = pos + array.text.length := by omega
    rw [skip, end_]
    refine forall₂_congr fun entry member => mem_arrayStarts_later _ _ _ _ ?_
    have := dispatches_bound _ _ entry member
    omega
  | some line =>
    simp only [found] at skip ⊢
    obtain ⟨skipped, split, star, skip⟩ := skip
    obtain ⟨tail, rfl⟩ : ∃ tail, line = 42 :: tail := by
      cases line with
      | nil => cases star
      | cons byte tail => exact ⟨tail, by rw [Option.some.inj star]⟩
    have size := congrArg List.length split
    rw [List.length_drop, List.length_append, List.length_cons] at size
    rw [skip]
    cases run : readRequest (F := F) (42 :: tail ++ streamBytes arrays) with
    | none =>
      have stuck : next (F := F) (42 :: tail ++ streamBytes arrays) = none := by
        rw [List.cons_append] at run ⊢
        rw [next, if_pos rfl, run]
        rfl
      rw [dispatches_none _ _ stuck]
      simp
    | some pair =>
      have taken : next (F := F) (42 :: tail ++ streamBytes arrays) =
          some (some pair.1, pair.2) := by
        rw [List.cons_append] at run ⊢
        rw [next, if_pos rfl, run]
        rfl
      rw [dispatches_some _ _ _ _ taken]
      simp only [reduceCtorEq, iff_false]
      intro starts
      have start := starts _ (List.mem_append_left _ List.mem_cons_self)
      rw [mem_arrayStarts_later _ _ _ _ (by simp only; omega)] at start
      have := arrayStarts_bound _ _ _ start
      simp only at this
      omega

theorem dispatches_framed (arrays : List RespArray) (pos taken : Nat)
    (inside : taken ≤ (streamBytes arrays).length) :
    (∀ entry ∈ dispatches (F := F) (pos + taken) ((streamBytes arrays).drop taken),
        entry.1 ∈ arrayStarts pos arrays) ↔ Framed F taken arrays := by
  induction arrays generalizing pos taken with
  | nil =>
    rw [streamBytes_nil, List.drop_nil, dispatches_none _ _ rfl]
    simp [Framed]
  | cons array arrays ih =>
    rw [streamBytes_cons, List.length_append] at inside
    have after (used : Nat) (positive : 0 < used)
        (bound : used ≤ array.text.length + (streamBytes arrays).length) :
        (∀ entry ∈ dispatches (F := F) (pos + used)
            ((array.text ++ streamBytes arrays).drop used),
            entry.1 ∈ arrayStarts pos (array :: arrays)) ↔
          if array.text.length ≤ used then Framed F (used - array.text.length) arrays
          else
            match firstStar true (array.text.drop used) with
            | none => Framed F 0 arrays
            | some line => readRequest (F := F) (line ++ streamBytes arrays) = none := by
      split
      next beyond =>
        have place : pos + used = pos + array.text.length + (used - array.text.length) := by
          omega
        rw [← ih (pos + array.text.length) _ (by omega), ← place, List.drop_append,
          List.drop_eq_nil_of_le beyond, List.nil_append]
        refine forall₂_congr fun entry member => mem_arrayStarts_later _ _ _ _ ?_
        have := dispatches_bound _ _ entry member
        omega
      next within =>
        rw [dispatches_inside array arrays pos used positive (by omega)]
        have rest := ih (pos + array.text.length) 0 (by omega)
        rw [Nat.add_zero, List.drop_zero] at rest
        cases firstStar true (array.text.drop used) with
        | none => exact rest
        | some line => rfl
    rw [Framed, takenOf, streamBytes_cons]
    by_cases start : taken = 0
    · subst start
      rw [if_pos rfl, Nat.add_zero, List.drop_zero]
      have read := next_array (F := F) array (streamBytes arrays)
      cases run : readRequest (F := F) (array.text ++ streamBytes arrays) with
      | none =>
        rw [run] at read
        simp [dispatches_none _ _ read]
      | some pair =>
        obtain ⟨request, used⟩ := pair
        rw [run] at read
        have bounds := next_bounds selfDelimiting_next advances_next _ _ _ read
        rw [List.length_append] at bounds
        have rest := after used bounds.1 bounds.2
        rw [dispatches_some _ _ _ _ read]
        simp only [Option.map_some, Option.toList_some, List.singleton_append, List.forall_mem_cons,
          arrayStarts, List.mem_cons_self, true_and] at rest ⊢
        exact rest
    · rw [if_neg start]
      exact after taken (by omega) inside

end AtStarts

/-- Commands are dispatched from array starts only, and at most one from each. -/
structure AtStarts {F : Type} (arrays : List RespArray) (dispatched : List (Nat × Request F)) :
    Prop where
  only : ∀ entry ∈ dispatched, entry.1 ∈ arrayStarts 0 arrays
  once : (dispatched.map Prod.fst).Nodup

namespace Connection

variable {F : Type} [FloatText F] [FloatArith F]

theorem consume_dispatched (env : Env) (fuel : Nat) (conn : Connection F) (buf : Bytes)
    (enough : buf.length ≤ fuel) :
    match consume next (step env) fuel conn buf with
    | .waiting final _ => final.dispatched = conn.dispatched ++ dispatches conn.consumed buf
    | .ended final => final.dispatched <+: conn.dispatched ++ dispatches conn.consumed buf := by
  induction fuel generalizing conn buf with
  | zero =>
    obtain rfl := List.eq_nil_of_length_eq_zero (Nat.le_zero.mp enough)
    simp [consume, dispatches_none _ _ (rfl : next (F := F) [] = none)]
  | succ fuel ih =>
    cases run : next (F := F) buf with
    | none => simp [consume, run, dispatches_none _ _ run]
    | some pair =>
      obtain ⟨item, used⟩ := pair
      have bounds := next_bounds selfDelimiting_next advances_next _ _ _ run
      have rest (conn : Connection F) := ih conn (buf.drop used)
        (by rw [List.length_drop]; omega)
      rw [dispatches_some _ _ _ _ run]
      simp only [consume, run]
      cases item with
      | none => exact rest { conn with consumed := conn.consumed + used }
      | some request =>
        simp only [step, Option.map_some, Option.toList_some, ← List.append_assoc]
        rcases conn.server.handle env request with ⟨server, reply⟩
        cases reply with
        | none => exact List.prefix_append _ _
        | some reply => exact rest _

theorem dispatched_at_starts (env : Env) (server : Server F) (arrays : List RespArray)
    (chunks : List Bytes) (received : chunks.flatten = streamBytes arrays) :
    let final := chunks.foldl (receive env) (.waiting (new server) [])
    (∀ conn rest, final = .waiting conn rest →
        (AtStarts arrays conn.dispatched ↔ Framed F 0 arrays)) ∧
      (∀ conn, final = .ended conn → Framed F 0 arrays → AtStarts arrays conn.dispatched) ∧
      ((∀ array ∈ arrays, array.Sized) → (Framed F 0 arrays ↔ QuietSurplus F arrays)) := by
  intro final
  have whole : final = consume next (step env) (streamBytes arrays).length (new server)
      (streamBytes arrays) := by
    have flat : final = receive env (.waiting (new server) []) chunks.flatten :=
      receive_flatten selfDelimiting_next advances_next (new server) chunks
    rw [received] at flat
    exact flat
  have all := consume_dispatched env (streamBytes arrays).length (new server)
    (streamBytes arrays) (Nat.le_refl _)
  rw [← whole] at all
  have framed := dispatches_framed (F := F) arrays 0 0 (Nat.zero_le _)
  have once := dispatches_once (F := F) 0 (streamBytes arrays)
  rw [Nat.add_zero, List.drop_zero] at framed
  refine ⟨?_, ?_, framed_iff_quietSurplus F arrays⟩
  · intro conn rest waiting
    rw [waiting] at all
    simp only [new, List.nil_append] at all
    rw [← framed, all]
    exact ⟨AtStarts.only, fun only => ⟨only, once⟩⟩
  · intro conn ended quiet
    rw [ended] at all
    simp only [new, List.nil_append] at all
    exact ⟨fun entry member => framed.mpr quiet entry (all.subset member),
      once.sublist (all.sublist.map Prod.fst)⟩

-- PING with an argument that is itself the text of a FLUSHDB.
def pingWithFlush : RespArray := .of (ascii "PING") [ascii "*1\r\n$7\r\nFLUSHDB\r\n"]

def setOfFlushArrays : List RespArray :=
  [.of (ascii "SET") [ascii "k", ascii "*1\r\n$7\r\nFLUSHDB\r\n"], .of (ascii "PING") []]

def received (arrays : List RespArray) : Progress (Connection Int) Byte :=
  receive (Server.constantEnv 0) (.waiting (new (Server.new 4)) []) (streamBytes arrays)

theorem dispatched_at_starts_set :
    AtStarts setOfFlushArrays (received setOfFlushArrays).state.dispatched := by
  have result := dispatched_at_starts (Server.constantEnv 0) (Server.new 4 : Server Int)
    setOfFlushArrays [streamBytes setOfFlushArrays] (by simp)
  have waiting : ∃ conn rest, received setOfFlushArrays = .waiting conn rest := ⟨_, _, rfl⟩
  obtain ⟨conn, rest, waiting⟩ := waiting
  rw [waiting]
  exact (result.1 conn rest waiting).mpr ((result.2.2 (by decide)).mpr (by decide))

theorem ping_executes_argument :
    (received [pingWithFlush]).state.dispatched =
        [(0, .command .ping rfl), (19, .command .flushDb rfl)] ∧
      ¬ AtStarts [pingWithFlush] (received [pingWithFlush]).state.dispatched := by
  have dispatched : (received [pingWithFlush]).state.dispatched =
        [(0, .command .ping rfl), (19, .command .flushDb rfl)] := rfl
  refine ⟨dispatched, fun starts => ?_⟩
  have start := starts.only (19, .command .flushDb rfl) (by rw [dispatched]; simp)
  revert start
  decide

end Connection

end OmegaDrive
