import OmegaDrive.Resp.Text
import OmegaDrive.Shared.Atomics
import OmegaDrive.Shared.Steps

set_option autoImplicit false

namespace OmegaDrive

namespace WsBench

open Atomics

structure Stats where
  connected : Nat
  failed : Nat
  messagesReceived : Nat
  bytesReceived : Nat
  totalLatencyUs : Nat
  latencyCount : Nat
  maxLatencyUs : Nat

def Stats.new : Stats := ⟨0, 0, 0, 0, 0, 0, 0⟩

/-- What `read.next().await` gives; `close` is also the end of the stream. -/
inductive Incoming where
  | binary (bytes : Bytes)
  | close
  | other
  | error

/-- Where the task of a connection is, between two of its accesses to the counters. -/
inductive Listener where
  -- until its subscription is acknowledged
  | connecting
  | reading
  | received (bytes : Bytes)
  | sized (bytes : Bytes)
  | summed (latency : Nat)
  | counted (latency : Nat)
  -- in the body of `while latency > current_max`
  | raising (latency currentMax : Nat) (below : currentMax < latency)
  | ended

inductive Access where
  | next (incoming : Incoming)
  | size
  | clock (nowUs : Nat)
  | count
  | load (seen : Nat)
  -- what a failed exchange has seen
  | exchange (seen : Option Nat)

-- `u64::from_be_bytes` of the first eight bytes.
def sentUs (bytes : Bytes) : Nat := (bytes.take 8).foldl (fun sent byte => sent * 256 + byte.toNat) 0

def raise (latency currentMax : Nat) : Listener :=
  if below : currentMax < latency then .raising latency currentMax below else .reading

section Tester

variable {ι : Type} (subscribed : Bytes → Bool)

/-- One access of `connect_and_listen`, or of the loop in `main` that calls it again. A load sees
any of the values that the maximum has held, however long ago, and so does an exchange that fails.
-/
def turn (maxima : List Nat) (stats : Stats) : Listener → Access → Stats × Listener
  | .connecting, .next (.binary bytes) =>
    if subscribed bytes then
      ({ stats with connected := fetchAdd 64 stats.connected 1 }, .reading)
    else ({ stats with failed := fetchAdd 64 stats.failed 1 }, .connecting)
  | .connecting, .next _ => ({ stats with failed := fetchAdd 64 stats.failed 1 }, .connecting)
  | .reading, .next (.binary bytes) =>
    ({ stats with messagesReceived := fetchAdd 64 stats.messagesReceived 1 }, .received bytes)
  | .reading, .next .close =>
    ({ stats with connected := fetchSub 64 stats.connected 1 }, .ended)
  -- `msg?` leaves the function before it counts the connection out
  | .reading, .next .error => ({ stats with failed := fetchAdd 64 stats.failed 1 }, .connecting)
  | .received bytes, .size =>
    ({ stats with bytesReceived := fetchAdd 64 stats.bytesReceived bytes.length },
      if 8 ≤ bytes.length then .sized bytes else .reading)
  | .sized bytes, .clock nowUs =>
    if sentUs bytes ≤ nowUs then
      let latency := nowUs - sentUs bytes
      ({ stats with totalLatencyUs := fetchAdd 64 stats.totalLatencyUs latency }, .summed latency)
    else (stats, .reading)
  | .summed latency, .count =>
    ({ stats with latencyCount := fetchAdd 64 stats.latencyCount 1 }, .counted latency)
  | .counted latency, .load seen =>
    (stats, if seen ∈ maxima then raise latency seen else .counted latency)
  | .raising latency currentMax below, .exchange none =>
    if stats.maxLatencyUs = currentMax then
      ({ stats with maxLatencyUs := latency }, .reading)
    else (stats, .raising latency currentMax below)
  | .raising latency currentMax below, .exchange (some seen) =>
    (stats, if seen ∈ maxima then raise latency seen else .raising latency currentMax below)
  | listener, _ => (stats, listener)

structure Report where
  latSum : Nat
  latCnt : Nat
  latMax : Nat

/-- Where the reporter is between its three swaps, with what it has taken. -/
inductive Reporter where
  | sleeping
  | summed (latSum : Nat)
  | counted (latSum latCnt : Nat)

def Reporter.latSum : Reporter → Nat
  | .sleeping => 0
  | .summed latSum | .counted latSum _ => latSum

def Reporter.latCnt : Reporter → Nat
  | .counted _ latCnt => latCnt
  | _ => 0

structure Tester (ι : Type) where
  stats : Stats
  listeners : ι → Listener
  reporter : Reporter
  reports : List Report
  -- every value that `max_latency_us` has held
  maxima : List Nat

inductive TesterEvent (ι : Type) where
  | turn (i : ι) (access : Access)
  | report

namespace Tester

def start : Tester ι := ⟨.new, fun _ => .connecting, .sleeping, [], [0]⟩

def report (tester : Tester ι) : Tester ι :=
  match tester.reporter with
  | .sleeping =>
    { tester with
      stats := { tester.stats with totalLatencyUs := 0 }
      reporter := .summed tester.stats.totalLatencyUs }
  | .summed latSum =>
    { tester with
      stats := { tester.stats with latencyCount := 0 }
      reporter := .counted latSum tester.stats.latencyCount }
  | .counted latSum latCnt =>
    { tester with
      stats := { tester.stats with maxLatencyUs := 0 }
      reporter := .sleeping
      reports := tester.reports ++ [⟨latSum, latCnt, tester.stats.maxLatencyUs⟩]
      maxima := tester.maxima ++ [0] }

variable [DecidableEq ι]

def step (tester : Tester ι) : TesterEvent ι → Tester ι
  | .turn i access =>
    let (stats, listener) := turn subscribed tester.maxima tester.stats (tester.listeners i) access
    { tester with
      stats
      listeners := Function.update tester.listeners i listener
      maxima := tester.maxima ++ [stats.maxLatencyUs] }
  | .report => tester.report

end Tester

end Tester

inductive Trace where
  | arrived (bytes : Bytes)
  | measured (latency : Nat)
  | broken

namespace Listener

def trace : Listener → Listener → List Trace
  | .reading, .received bytes => [.arrived bytes]
  | .sized _, .summed latency => [.measured latency]
  | .reading, .connecting => [.broken]
  | _, _ => []

def inside : Listener → Nat
  | .connecting | .ended => 0
  | _ => 1

def unsized : Listener → Nat
  | .received bytes => bytes.length
  | _ => 0

def uncounted : Listener → Nat
  | .summed _ => 1
  | _ => 0

def offering : Listener → Option Nat
  | .summed latency | .counted latency | .raising latency _ _ => some latency
  | _ => none

end Listener

def arrived (history : List Trace) : List Bytes :=
  history.filterMap fun | .arrived bytes => some bytes | _ => none

def measured (history : List Trace) : List Nat :=
  history.filterMap fun | .measured latency => some latency | _ => none

def broken (history : List Trace) : Nat := history.countP (· matches .broken)

theorem arrived_append (first second : List Trace) :
    arrived (first ++ second) = arrived first ++ arrived second :=
  List.filterMap_append

theorem measured_append (first second : List Trace) :
    measured (first ++ second) = measured first ++ measured second :=
  List.filterMap_append

theorem broken_append (first second : List Trace) :
    broken (first ++ second) = broken first + broken second :=
  List.countP_append

theorem trace_self (listener : Listener) : listener.trace listener = [] := by
  cases listener <;> rfl

/-- What the counters gain by a move of a listener is what the move has seen, up to what the
listener has still to count. -/
structure Accounts (stats after : Stats) (listener moved : Listener) : Prop where
  messages : after.messagesReceived ≡
    stats.messagesReceived + (arrived (listener.trace moved)).length [MOD 2 ^ 64]
  bytes : after.bytesReceived + moved.unsized ≡ stats.bytesReceived + listener.unsized +
    ((arrived (listener.trace moved)).map List.length).sum [MOD 2 ^ 64]
  connected : after.connected + listener.inside ≡
    stats.connected + moved.inside + broken (listener.trace moved) [MOD 2 ^ 64]
  latencySum : after.totalLatencyUs ≡
    stats.totalLatencyUs + (measured (listener.trace moved)).sum [MOD 2 ^ 64]
  latencyCount : after.latencyCount + moved.uncounted ≡ stats.latencyCount + listener.uncounted +
    (measured (listener.trace moved)).length [MOD 2 ^ 64]

theorem accounts_self (stats : Stats) (listener : Listener) :
    Accounts stats stats listener listener := by
  constructor <;> rw [trace_self] <;> exact .rfl

theorem accounts_turn (subscribed : Bytes → Bool) (maxima : List Nat) (stats : Stats)
    (listener : Listener) (access : Access) :
    Accounts stats (turn subscribed maxima stats listener access).1 listener
      (turn subscribed maxima stats listener access).2 := by
  unfold turn
  split
  next =>
    split
    next => exact ⟨.rfl, .rfl, fetchAdd_modEq 64 _ 1, .rfl, .rfl⟩
    next => exact ⟨.rfl, .rfl, .rfl, .rfl, .rfl⟩
  next => exact ⟨.rfl, .rfl, .rfl, .rfl, .rfl⟩
  next => exact ⟨fetchAdd_modEq 64 _ 1, .rfl, .rfl, .rfl, .rfl⟩
  next => exact ⟨.rfl, .rfl, fetchSub_modEq 64 _ 1, .rfl, .rfl⟩
  next => exact ⟨.rfl, .rfl, .rfl, .rfl, .rfl⟩
  next bytes =>
    split
    next => exact ⟨.rfl, fetchAdd_modEq 64 _ bytes.length, .rfl, .rfl, .rfl⟩
    next => exact ⟨.rfl, fetchAdd_modEq 64 _ bytes.length, .rfl, .rfl, .rfl⟩
  next bytes nowUs =>
    split
    next => exact ⟨.rfl, .rfl, .rfl, fetchAdd_modEq 64 _ (nowUs - sentUs bytes), .rfl⟩
    next => exact ⟨.rfl, .rfl, .rfl, .rfl, .rfl⟩
  next => exact ⟨.rfl, .rfl, .rfl, .rfl, fetchAdd_modEq 64 _ 1⟩
  next latency seen =>
    split
    next =>
      unfold raise
      split <;> exact ⟨.rfl, .rfl, .rfl, .rfl, .rfl⟩
    next => exact accounts_self _ _
  next =>
    split
    next => exact ⟨.rfl, .rfl, .rfl, .rfl, .rfl⟩
    next => exact accounts_self _ _
  next latency _ _ seen =>
    split
    next =>
      unfold raise
      split <;> exact ⟨.rfl, .rfl, .rfl, .rfl, .rfl⟩
    next => exact accounts_self _ _
  next => exact accounts_self _ _

/-- A move leaves the maximum as it is or raises it to the latency the listener had on offer, which
stays on offer until the maximum has held one as high. -/
structure Offers (maxima : List Nat) (stats after : Stats) (listener moved : Listener) : Prop where
  raised : after.maxLatencyUs = stats.maxLatencyUs ∨
    stats.maxLatencyUs < after.maxLatencyUs ∧ listener.offering = some after.maxLatencyUs
  settled : ∀ latency, listener.offering = some latency → moved.offering = some latency ∨
    latency = after.maxLatencyUs ∨ ∃ seen ∈ maxima, latency ≤ seen
  old : ∀ latency, moved.offering = some latency → listener.offering = some latency ∨
    latency ∈ measured (listener.trace moved)
  new : ∀ latency ∈ measured (listener.trace moved), moved.offering = some latency

theorem offers_same (maxima : List Nat) (stats after : Stats) (listener moved : Listener)
    (maximum : after.maxLatencyUs = stats.maxLatencyUs)
    (offering : moved.offering = listener.offering)
    (silent : measured (listener.trace moved) = []) : Offers maxima stats after listener moved := by
  refine ⟨.inl maximum, fun latency offered => .inl ?_, fun latency offered => .inl ?_, ?_⟩
  · rw [offering, offered]
  · rw [← offering, offered]
  · rw [silent]
    exact fun latency member => by cases member

theorem offers_raise (maxima : List Nat) (stats : Stats) (listener : Listener) (latency seen : Nat)
    (offered : listener.offering = some latency) (held : seen ∈ maxima)
    (silent : ∀ moved, listener.trace moved = []) :
    Offers maxima stats stats listener (raise latency seen) := by
  unfold raise
  split
  next => exact offers_same _ _ _ _ _ rfl offered.symm (by rw [silent]; rfl)
  next enough =>
    refine ⟨.inl rfl, fun other same => .inr (.inr ⟨seen, held, ?_⟩), fun _ none => ?_, ?_⟩
    · obtain rfl := Option.some.inj (offered.symm.trans same)
      exact Nat.le_of_not_lt enough
    · cases none
    · rw [silent]
      exact fun _ member => by cases member

theorem offers_turn (subscribed : Bytes → Bool) (maxima : List Nat) (stats : Stats)
    (listener : Listener) (access : Access) :
    Offers maxima stats (turn subscribed maxima stats listener access).1 listener
      (turn subscribed maxima stats listener access).2 := by
  unfold turn
  split
  next =>
    split
    next => exact offers_same _ _ _ _ _ rfl rfl rfl
    next => exact offers_same _ _ _ _ _ rfl rfl rfl
  next => exact offers_same _ _ _ _ _ rfl rfl rfl
  next => exact offers_same _ _ _ _ _ rfl rfl rfl
  next => exact offers_same _ _ _ _ _ rfl rfl rfl
  next => exact offers_same _ _ _ _ _ rfl rfl rfl
  next bytes =>
    split
    next => exact offers_same _ _ _ _ _ rfl rfl rfl
    next => exact offers_same _ _ _ _ _ rfl rfl rfl
  next bytes nowUs =>
    split
    next =>
      refine ⟨.inl rfl, fun _ none => (by cases none), fun latency offered => .inr ?_,
        fun latency member => ?_⟩
      · rw [← Option.some.inj offered]
        exact List.mem_cons_self
      · rw [List.mem_singleton.mp member]
        rfl
    next => exact offers_same _ _ _ _ _ rfl rfl rfl
  next => exact offers_same _ _ _ _ _ rfl rfl rfl
  next latency seen =>
    split
    next held => exact offers_raise _ _ _ _ _ rfl held fun moved => by cases moved <;> rfl
    next => exact offers_same _ _ _ _ _ rfl rfl rfl
  next latency currentMax below =>
    split
    next same =>
      -- the exchange succeeds: nothing has come between
      refine ⟨.inr ⟨?_, rfl⟩, fun other offered => .inr (.inl ?_), fun _ none => (by cases none),
        fun _ member => by cases member⟩
      · rw [same]
        exact below
      · exact (Option.some.inj offered).symm
    next => exact offers_same _ _ _ _ _ rfl rfl rfl
  next latency currentMax below seen =>
    split
    next held => exact offers_raise _ _ _ _ _ rfl held fun moved => by cases moved <;> rfl
    next => exact offers_same _ _ _ _ _ rfl rfl rfl
  next => exact offers_same _ _ _ _ _ rfl rfl (by rw [trace_self]; rfl)

namespace Tester

variable {ι : Type} [Fintype ι] [DecidableEq ι] (subscribed : Bytes → Bool)

def trace (tester : Tester ι) (event : TesterEvent ι) : List Trace :=
  match event with
  | .turn i _ => (tester.listeners i).trace ((tester.step subscribed event).listeners i)
  | .report => []

/-- What the counters hold and what the reporter has taken is what has been seen, up to what the
listeners have still to count; but a connection that broke off stays counted as connected. -/
structure Accounted (tester : Tester ι) (history : List Trace) : Prop where
  messages : tester.stats.messagesReceived ≡ (arrived history).length [MOD 2 ^ 64]
  bytes : tester.stats.bytesReceived + ∑ i, (tester.listeners i).unsized ≡
    ((arrived history).map List.length).sum [MOD 2 ^ 64]
  connected : tester.stats.connected ≡
    ∑ i, (tester.listeners i).inside + broken history [MOD 2 ^ 64]
  latencySum : (tester.reports.map Report.latSum).sum + tester.reporter.latSum +
    tester.stats.totalLatencyUs ≡ (measured history).sum [MOD 2 ^ 64]
  latencyCount : (tester.reports.map Report.latCnt).sum + tester.reporter.latCnt +
    tester.stats.latencyCount + ∑ i, (tester.listeners i).uncounted ≡
      (measured history).length [MOD 2 ^ 64]

omit [DecidableEq ι] in
theorem accounted_start : Accounted (start : Tester ι) [] := by
  have none (weight : Listener → Nat) (zero : weight .connecting = 0) :
      ∑ i, weight ((start : Tester ι).listeners i) = 0 :=
    Finset.sum_eq_zero fun _ _ => zero
  constructor
  · exact .rfl
  · rw [none Listener.unsized rfl]
    exact .rfl
  · rw [none Listener.inside rfl]
    exact .rfl
  · exact .rfl
  · rw [none Listener.uncounted rfl]
    exact .rfl

theorem accounted_turn (tester : Tester ι) (history : List Trace)
    (accounted : Accounted tester history) (i : ι) (access : Access) :
    Accounted (tester.step subscribed (.turn i access))
      (history ++ tester.trace subscribed (.turn i access)) := by
  cases moved : turn subscribed tester.maxima tester.stats (tester.listeners i) access with
  | mk stats listener =>
    have accounts := accounts_turn subscribed tester.maxima tester.stats (tester.listeners i) access
    simp only [moved] at accounts
    have sums (weight : Listener → Nat) :=
      sum_update weight tester.listeners i listener
    obtain ⟨messages, bytes, connected, latencySum, latencyCount⟩ := accounts
    simp only [Nat.ModEq] at messages bytes connected latencySum latencyCount
    constructor <;>
      simp only [step, trace, moved, Function.update_self, arrived_append, measured_append,
        broken_append, List.length_append, List.map_append, List.sum_append, Nat.ModEq]
    · have before := accounted.messages
      rw [Nat.ModEq] at before
      omega
    · have before := accounted.bytes
      have all := sums Listener.unsized
      rw [Nat.ModEq] at before
      omega
    · have before := accounted.connected
      have all := sums Listener.inside
      rw [Nat.ModEq] at before
      omega
    · have before := accounted.latencySum
      rw [Nat.ModEq] at before
      omega
    · have before := accounted.latencyCount
      have all := sums Listener.uncounted
      rw [Nat.ModEq] at before
      omega

omit [DecidableEq ι] in
theorem accounted_report (tester : Tester ι) (history : List Trace)
    (accounted : Accounted tester history) : Accounted tester.report history := by
  obtain ⟨messages, bytes, connected, latencySum, latencyCount⟩ := accounted
  cases taken : tester.reporter with
  | sleeping =>
    simp only [taken, Reporter.latSum, Reporter.latCnt] at latencySum latencyCount
    rw [report, taken]
    exact ⟨messages, bytes, connected, latencySum, latencyCount⟩
  | summed latSum =>
    simp only [taken, Reporter.latSum, Reporter.latCnt] at latencySum latencyCount
    rw [report, taken]
    exact ⟨messages, bytes, connected, latencySum, latencyCount⟩
  | counted latSum latCnt =>
    simp only [taken, Reporter.latSum, Reporter.latCnt] at latencySum latencyCount
    rw [report, taken]
    refine ⟨messages, bytes, connected, ?_, ?_⟩
    · simpa [Reporter.latSum] using latencySum
    · simpa [Reporter.latCnt] using latencyCount

def reportedMaxima (tester : Tester ι) : List Nat := tester.reports.map Report.latMax

structure Maximal (tester : Tester ι) (history : List Trace) : Prop where
  held : ∀ value ∈ tester.maxima,
    Covers tester.stats.maxLatencyUs tester.reportedMaxima value
  offered : ∀ latency ∈ measured history, (∃ i, (tester.listeners i).offering = some latency) ∨
    Covers tester.stats.maxLatencyUs tester.reportedMaxima latency
  real : ∀ i latency, (tester.listeners i).offering = some latency → latency ∈ measured history
  known : ∀ value ∈ tester.stats.maxLatencyUs :: tester.reportedMaxima,
    value = 0 ∨ value ∈ measured history

omit [Fintype ι] [DecidableEq ι] in
theorem maximal_start : Maximal (start : Tester ι) [] := by
  refine ⟨fun value held => .inl ?_, fun _ member => ?_, fun _ _ offering => ?_, fun value known => ?_⟩
  · exact (List.mem_singleton.mp held).le
  · cases member
  · cases offering
  · exact .inl (List.mem_singleton.mp known)

omit [Fintype ι] in
theorem maximal_turn (tester : Tester ι) (history : List Trace) (maximal : Maximal tester history)
    (i : ι) (access : Access) :
    Maximal (tester.step subscribed (.turn i access))
      (history ++ tester.trace subscribed (.turn i access)) := by
  have offers := offers_turn subscribed tester.maxima tester.stats (tester.listeners i) access
  cases moved : turn subscribed tester.maxima tester.stats (tester.listeners i) access with
  | mk stats listener =>
    rw [moved] at offers
    have higher : tester.stats.maxLatencyUs ≤ stats.maxLatencyUs := by
      obtain same | ⟨above, _⟩ := offers.raised
      · exact same.ge
      · exact above.le
    have here : Function.update tester.listeners i listener i = listener := Function.update_self ..
    have there (j : ι) (other : j ≠ i) :
        Function.update tester.listeners i listener j = tester.listeners j :=
      Function.update_of_ne other ..
    have earlier (value : Nat) (known : value = 0 ∨ value ∈ measured history) :
        value = 0 ∨ value ∈ measured (history ++ (tester.listeners i).trace listener) := by
      rw [measured_append]
      exact known.imp_right (List.mem_append_left _)
    constructor <;> simp only [step, trace, moved, here, reportedMaxima]
    · intro value member
      obtain old | new := List.mem_append.mp member
      · exact (maximal.held value old).raise higher
      · exact .inl (List.mem_singleton.mp new).le
    · intro latency member
      rw [measured_append] at member
      obtain old | new := List.mem_append.mp member
      · obtain ⟨j, offering⟩ | covers := maximal.offered latency old
        · by_cases same : j = i
          · subst same
            obtain still | rfl | ⟨seen, held, below⟩ := offers.settled latency offering
            · exact .inl ⟨j, by rw [here, still]⟩
            · exact .inr (.inl (Nat.le_refl _))
            · exact .inr (((maximal.held seen held).raise higher).trans below)
          · exact .inl ⟨j, by rw [there j same, offering]⟩
        · exact .inr (covers.raise higher)
      · exact .inl ⟨i, by rw [here, offers.new latency new]⟩
    · intro j latency offering
      rw [measured_append]
      by_cases same : j = i
      · subst same
        rw [here] at offering
        exact List.mem_append.mpr
          ((offers.old latency offering).imp_left (maximal.real j latency))
      · rw [there j same] at offering
        exact List.mem_append_left _ (maximal.real j latency offering)
    · intro value member
      obtain rfl | old := List.mem_cons.mp member
      · obtain same | ⟨_, offering⟩ := offers.raised
        · rw [same]
          exact earlier _ (maximal.known _ List.mem_cons_self)
        · exact earlier _ (.inr (maximal.real i _ offering))
      · exact earlier value (maximal.known value (List.mem_cons_of_mem _ old))

omit [Fintype ι] [DecidableEq ι] in
theorem maximal_report (tester : Tester ι) (history : List Trace)
    (maximal : Maximal tester history) : Maximal tester.report history := by
  obtain ⟨held, offered, real, known⟩ := maximal
  cases taken : tester.reporter with
  | sleeping =>
    rw [report, taken]
    exact ⟨held, offered, real, known⟩
  | summed latSum =>
    rw [report, taken]
    exact ⟨held, offered, real, known⟩
  | counted latSum latCnt =>
    rw [report, taken]
    have reported (last : Report) : (tester.reports ++ [last]).map Report.latMax =
        tester.reportedMaxima ++ [last.latMax] :=
      List.map_append
    constructor <;> simp only [reportedMaxima, reported]
    · intro value member
      obtain old | new := List.mem_append.mp member
      · exact (held value old).take 0
      · exact .inl (List.mem_singleton.mp new).le
    · exact fun latency member => (offered latency member).imp_right fun covers => covers.take 0
    · exact real
    · intro value member
      obtain rfl | old := List.mem_cons.mp member
      · exact .inl rfl
      · obtain before | last := List.mem_append.mp old
        · exact known value (List.mem_cons_of_mem _ before)
        · rw [List.mem_singleton.mp last]
          exact known _ List.mem_cons_self

theorem stats_account (events : List (TesterEvent ι)) :
    let tester := Steps.run (step subscribed) start events
    let history := Steps.outputs (step subscribed) (trace subscribed) start events
    Accounted tester history ∧
      (∀ latency ∈ measured history, (∃ i, (tester.listeners i).offering = some latency) ∨
        Covers tester.stats.maxLatencyUs tester.reportedMaxima latency) ∧
      ∀ value ∈ tester.reportedMaxima, value = 0 ∨ value ∈ measured history := by
  intro tester history
  have kept (tester : Tester ι) (history : List Trace) (event : TesterEvent ι)
      (sound : Accounted tester history ∧ Maximal tester history) :
      Accounted (tester.step subscribed event) (history ++ tester.trace subscribed event) ∧
        Maximal (tester.step subscribed event) (history ++ tester.trace subscribed event) := by
    cases event with
    | turn i access =>
      exact ⟨accounted_turn subscribed tester history sound.1 i access,
        maximal_turn subscribed tester history sound.2 i access⟩
    | report =>
      rw [trace, List.append_nil]
      exact ⟨accounted_report tester history sound.1, maximal_report tester history sound.2⟩
  have whole := Steps.outputs_invariant kept start [] events
    ⟨accounted_start, maximal_start⟩
  rw [List.nil_append] at whole
  exact ⟨whole.1, whole.2.offered, fun value member =>
    whole.2.known value (List.mem_cons_of_mem _ member)⟩

end Tester

end WsBench

end OmegaDrive
