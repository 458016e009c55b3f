import OmegaDrive.Shared.Cursor

set_option autoImplicit false

/-! A loop that takes items off the front of a buffer while more is appended to its end. -/

namespace Incremental

open Cursor

variable {σ α S : Type}

inductive Progress (S σ : Type) where
  | waiting (state : S) (rest : List σ)
  | ended (state : S)

def Progress.state : Progress S σ → S
  | .waiting state _ => state
  | .ended state => state

def Progress.map {T : Type} (view : T → S) : Progress T σ → Progress S σ
  | .waiting state rest => .waiting (view state) rest
  | .ended state => .ended (view state)

section Loop

variable (next : Cursor σ α) (step : S → α → Nat → S ⊕ S)

/-- A step may end the loop; an item that is not complete makes it wait. -/
def consume : Nat → S → List σ → Progress S σ
  | 0, state, buf => .waiting state buf
  | fuel + 1, state, buf =>
    match next buf with
    | none => .waiting state buf
    | some (item, used) =>
      match step state item used with
      | .inl state => consume fuel state (buf.drop used)
      | .inr state => .ended state

def receive : Progress S σ → List σ → Progress S σ
  | .waiting state rest, chunk => consume next step (rest ++ chunk).length state (rest ++ chunk)
  | .ended state, _ => .ended state

def trace : Nat → Nat → List σ → List (Nat × α)
  | 0, _, _ => []
  | fuel + 1, pos, buf =>
    match next buf with
    | none => []
    | some (item, used) => (pos, item) :: trace fuel (pos + used) (buf.drop used)

end Loop

def Advances (next : Cursor σ α) : Prop :=
  ∀ buf item used, next buf = some (item, used) → 0 < used

section Laws

variable {next : Cursor σ α} {step : S → α → Nat → S ⊕ S}

theorem consume_none (fuel : Nat) (state : S) (buf : List σ) (stuck : next buf = none) :
    consume next step fuel state buf = .waiting state buf := by
  cases fuel with
  | zero => rfl
  | succ fuel => rw [consume, stuck]

-- What every step keeps holds of a loop that waits; a step that ends it leaves `final`.
def Progress.Holds (inv final : S → Prop) : Progress S σ → Prop
  | .waiting state _ => inv state
  | .ended state => final state

theorem Progress.Holds.state {inv final : S → Prop} {progress : Progress S σ}
    (holds : progress.Holds inv final) : inv progress.state ∨ final progress.state := by
  cases progress with
  | waiting state rest => exact .inl holds
  | ended state => exact .inr holds

theorem consume_invariant {inv final : S → Prop} {property : α → Prop}
    (yields : Yields next property)
    (kept : ∀ state item used, inv state → property item →
      (∀ after, step state item used = .inl after → inv after) ∧
        ∀ after, step state item used = .inr after → final after)
    (fuel : Nat) (state : S) (buf : List σ) (start : inv state) :
    (consume next step fuel state buf).Holds inv final := by
  induction fuel generalizing state buf with
  | zero => exact start
  | succ fuel ih =>
    rw [consume]
    split
    next => exact start
    next item used run =>
      obtain ⟨goes, ends⟩ := kept state item used start (yields buf item used run)
      split
      next after stepped => exact ih after _ (goes after stepped)
      next after stepped => exact ends after stepped

theorem receive_invariant {inv final : S → Prop} {property : α → Prop}
    (yields : Yields next property)
    (kept : ∀ state item used, inv state → property item →
      (∀ after, step state item used = .inl after → inv after) ∧
        ∀ after, step state item used = .inr after → final after)
    (progress : Progress S σ) (chunks : List (List σ)) (start : progress.Holds inv final) :
    (chunks.foldl (receive next step) progress).Holds inv final := by
  induction chunks generalizing progress with
  | nil => exact start
  | cons chunk chunks ih =>
    apply ih _
    cases progress with
    | waiting state rest => exact consume_invariant yields kept _ state _ start
    | ended state => exact start

theorem next_bounds (stable : SelfDelimiting next) (advances : Advances next) (buf : List σ)
    (item : α) (used : Nat) (run : next buf = some (item, used)) :
    0 < used ∧ used ≤ buf.length :=
  ⟨advances buf item used run, stable.bound buf item used run⟩

theorem consume_fuel (stable : SelfDelimiting next) (advances : Advances next) (fuel : Nat)
    (state : S) (buf : List σ) (enough : buf.length ≤ fuel) :
    consume next step fuel state buf = consume next step buf.length state buf := by
  suffices both : ∀ other, buf.length ≤ other →
      consume next step fuel state buf = consume next step other state buf from
    both _ (Nat.le_refl _)
  induction fuel generalizing state buf with
  | zero =>
    intro other _
    obtain rfl : buf = [] := List.eq_nil_of_length_eq_zero (by omega)
    cases run : next [] with
    | none => rw [consume_none _ _ _ run, consume_none _ _ _ run]
    | some pair =>
      have := next_bounds stable advances [] pair.1 pair.2 run
      simp only [List.length_nil] at this
      omega
  | succ fuel ih =>
    intro other bound
    cases run : next buf with
    | none => rw [consume_none _ _ _ run, consume_none _ _ _ run]
    | some pair =>
      obtain ⟨item, used⟩ := pair
      obtain ⟨positive, inside⟩ := next_bounds stable advances buf item used run
      obtain ⟨other, rfl⟩ : ∃ n, other = n + 1 := ⟨other - 1, by omega⟩
      simp only [consume, run]
      cases step state item used with
      | inl state => exact ih _ _ (by rw [List.length_drop]; omega) _ (by rw [List.length_drop]; omega)
      | inr state => rfl

theorem consume_append (stable : SelfDelimiting next) (advances : Advances next) (fuel : Nat)
    (state : S) (buf more : List σ) (enough : buf.length ≤ fuel) :
    consume next step (buf ++ more).length state (buf ++ more) =
      receive next step (consume next step fuel state buf) more := by
  induction fuel generalizing state buf with
  | zero => rfl
  | succ fuel ih =>
    cases run : next buf with
    | none => rw [consume_none _ _ _ run, receive]
    | some pair =>
      obtain ⟨item, used⟩ := pair
      obtain ⟨positive, inside⟩ := next_bounds stable advances buf item used run
      have longer := stable.extend buf more item used run
      have size : (buf ++ more).length = (buf ++ more).length - 1 + 1 := by
        rw [List.length_append]
        omega
      rw [size]
      simp only [consume, run, longer]
      cases step state item used with
      | inr state => rfl
      | inl state =>
        have rest := ih state (buf.drop used) (by rw [List.length_drop]; omega)
        rw [← List.drop_append_of_le_length inside] at rest
        have bound : ((buf ++ more).drop used).length ≤ (buf ++ more).length - 1 := by
          rw [List.length_drop]
          omega
        dsimp only
        rw [consume_fuel stable advances _ _ _ bound]
        exact rest

theorem receive_append (stable : SelfDelimiting next) (advances : Advances next)
    (progress : Progress S σ) (first second : List σ) :
    receive next step (receive next step progress first) second =
      receive next step progress (first ++ second) := by
  cases progress with
  | ended state => rfl
  | waiting state rest =>
    rw [receive, receive, ← List.append_assoc]
    exact (consume_append stable advances _ state (rest ++ first) second (Nat.le_refl _)).symm

theorem receive_flatten (stable : SelfDelimiting next) (advances : Advances next) (state : S)
    (chunks : List (List σ)) :
    chunks.foldl (receive next step) (.waiting state []) =
      receive next step (.waiting state []) chunks.flatten := by
  suffices later : ∀ progress : Progress S σ, receive next step progress [] = progress →
      chunks.foldl (receive next step) progress =
        receive next step progress chunks.flatten from later _ rfl
  induction chunks with
  | nil => exact fun progress drained => drained.symm
  | cons chunk chunks ih =>
    intro progress _
    have drained : receive next step (receive next step progress chunk) [] =
        receive next step progress chunk := by
      rw [receive_append stable advances, List.append_nil]
    rw [List.foldl_cons, ih _ drained, receive_append stable advances, List.flatten_cons]

theorem reads_nonempty (advances : Advances next) (text : List σ) (item : α)
    (reads : Reads next text item) : 0 < text.length := by
  have run := reads []
  rw [List.append_nil] at run
  exact advances _ _ _ run

theorem consume_items {inv : S → List (List σ × α) → Prop} (stable : SelfDelimiting next)
    (advances : Advances next)
    (served : ∀ state text item items, inv state ((text, item) :: items) → Reads next text item ∧
      ∃ after, step state item text.length = .inl after ∧ inv after items)
    (fuel : Nat) (state : S) (buf more : List σ) (items : List (List σ × α))
    (start : inv state items) (whole : buf ++ more = items.flatMap Prod.fst)
    (enough : buf.length ≤ fuel) :
    ∃ after rest left, consume next step fuel state buf = .waiting after rest ∧ inv after left ∧
      rest ++ more = left.flatMap Prod.fst ∧
      ∀ head ∈ left.head?, rest.length < head.1.length := by
  induction items generalizing fuel state buf with
  | nil =>
    obtain ⟨rfl, rfl⟩ := List.append_eq_nil_iff.mp whole
    refine ⟨state, [], [], ?_, start, rfl, fun _ none => nomatch none⟩
    refine consume_none _ _ _ (Option.eq_none_iff_forall_ne_some.mpr fun pair run => ?_)
    have := next_bounds stable advances [] pair.1 pair.2 run
    simp only [List.length_nil] at this
    omega
  | cons head items ih =>
    obtain ⟨text, item⟩ := head
    obtain ⟨reads, after, stepped, kept⟩ := served state text item items start
    have positive := reads_nonempty advances text item reads
    rw [List.flatMap_cons] at whole
    by_cases inside : text.length ≤ buf.length
    · -- The next item has arrived.
      have split : buf = text ++ buf.drop text.length := by
        have front := congrArg (List.take text.length) whole
        rw [List.take_append_of_le_length inside, List.take_left] at front
        rw [← front, List.length_take, Nat.min_eq_left inside, List.take_append_drop]
      have rest : buf.drop text.length ++ more = items.flatMap Prod.fst := by
        rw [split, List.append_assoc] at whole
        exact List.append_cancel_left whole
      obtain ⟨fuel, rfl⟩ : ∃ n, fuel = n + 1 := ⟨fuel - 1, by omega⟩
      obtain ⟨last, waiting, left, consumed, holds⟩ := ih fuel after (buf.drop text.length) kept rest
        (by rw [List.length_drop]; omega)
      refine ⟨last, waiting, left, ?_, holds⟩
      have run := reads (buf.drop text.length)
      rw [← split] at run
      rw [consume, run]
      dsimp only
      rw [stepped]
      exact consumed
    · refine ⟨state, buf, (text, item) :: items, ?_, start, by rw [whole, List.flatMap_cons], ?_⟩
      · refine consume_none _ _ _ ?_
        have run := reads []
        rw [List.append_nil] at run
        have part : text.take buf.length = buf := by
          have front := congrArg (List.take buf.length) whole
          rw [List.take_left, List.take_append_of_le_length (Nat.le_of_not_le inside)] at front
          exact front.symm
        rw [← part]
        exact stable.truncated text item text.length _ run (Nat.lt_of_not_le inside)
      · rintro other ⟨⟩
        exact Nat.lt_of_not_le inside

end Laws

section Shared

variable {E : Type} (next : Cursor σ α) (step : S → α → Nat → S ⊕ S) (change : S → E → S)

def Progress.meanwhile : Progress S σ → E → Progress S σ
  | .waiting state rest, event => .waiting (change state event) rest
  | .ended state, event => .ended (change state event)

-- Before each read something else may have changed the state.
def receiveAmid (progress : Progress S σ) (event : E × List σ) : Progress S σ :=
  receive next step (progress.meanwhile change event.1) event.2

variable {next step change}

theorem receiveAmid_items {inv : S → List E → List (List σ × α) → Prop} {all : List E}
    (stable : SelfDelimiting next) (advances : Advances next)
    (served : ∀ state events text item items, inv state events ((text, item) :: items) →
      Reads next text item ∧
        ∃ after, step state item text.length = .inl after ∧ inv after events items)
    (changed : ∀ state events event items, inv state events items → events ++ [event] <+: all →
      inv (change state event) (events ++ [event]) items)
    (reads : List (E × List σ)) (state : S) (events : List E) (items : List (List σ × α))
    (every : events ++ reads.map Prod.fst = all) (start : inv state events items) (rest : List σ)
    (whole : rest ++ (reads.map Prod.snd).flatten = items.flatMap Prod.fst)
    (partly : ∀ head ∈ items.head?, rest.length < head.1.length) :
    ∃ after, reads.foldl (receiveAmid next step change) (.waiting state rest) = .waiting after [] ∧
      inv after (events ++ reads.map Prod.fst) [] := by
  induction reads generalizing state events items rest with
  | nil =>
    rw [List.map_nil, List.flatten_nil, List.append_nil] at whole
    cases items with
    | nil =>
      obtain rfl : rest = [] := whole
      exact ⟨state, rfl, by rwa [List.map_nil, List.append_nil]⟩
    | cons head items =>
      have short := partly head rfl
      have long := congrArg List.length whole
      rw [List.flatMap_cons, List.length_append] at long
      omega
  | cons read reads ih =>
    obtain ⟨event, chunk⟩ := read
    rw [List.map_cons, List.flatten_cons, ← List.append_assoc] at whole
    obtain ⟨after, waiting, left, consumed, kept, remaining, short⟩ :=
      consume_items stable advances (fun state => served state (events ++ [event])) _ _ _ _ _
        (changed state events event items start ⟨reads.map Prod.fst, by simpa using every⟩) whole
        (Nat.le_refl _)
    obtain ⟨last, received, holds⟩ := ih after (events ++ [event]) left (by simpa using every) kept
      waiting remaining short
    refine ⟨last, ?_, ?_⟩
    · rw [List.foldl_cons, receiveAmid, Progress.meanwhile, receive, consumed]
      exact received
    · rwa [List.append_assoc] at holds

end Shared

section Laws

variable {next : Cursor σ α} {step : S → α → Nat → S ⊕ S}

theorem trace_fuel (stable : SelfDelimiting next) (advances : Advances next) (fuel pos : Nat)
    (buf : List σ) (enough : buf.length ≤ fuel) :
    trace next fuel pos buf = trace next buf.length pos buf := by
  suffices both : ∀ other, buf.length ≤ other →
      trace next fuel pos buf = trace next other pos buf from both _ (Nat.le_refl _)
  induction fuel generalizing pos buf with
  | zero =>
    intro other _
    obtain rfl : buf = [] := List.eq_nil_of_length_eq_zero (by omega)
    cases other with
    | zero => rfl
    | succ other =>
      cases run : next [] with
      | none => simp [trace, run]
      | some pair =>
        have := next_bounds stable advances [] pair.1 pair.2 run
        simp only [List.length_nil] at this
        omega
  | succ fuel ih =>
    intro other bound
    cases run : next buf with
    | none => cases other <;> simp [trace, run]
    | some pair =>
      obtain ⟨item, used⟩ := pair
      obtain ⟨positive, inside⟩ := next_bounds stable advances buf item used run
      obtain ⟨other, rfl⟩ : ∃ n, other = n + 1 := ⟨other - 1, by omega⟩
      simp only [trace, run]
      rw [ih _ _ (by rw [List.length_drop]; omega) other (by rw [List.length_drop]; omega)]

theorem trace_none (fuel pos : Nat) (buf : List σ) (stuck : next buf = none) :
    trace next fuel pos buf = [] := by
  cases fuel with
  | zero => rfl
  | succ fuel => rw [trace, stuck]

theorem trace_some (stable : SelfDelimiting next) (advances : Advances next) (pos : Nat)
    (buf : List σ) (item : α) (used : Nat) (run : next buf = some (item, used)) :
    trace next buf.length pos buf =
      (pos, item) :: trace next (buf.drop used).length (pos + used) (buf.drop used) := by
  obtain ⟨positive, inside⟩ := next_bounds stable advances buf item used run
  obtain ⟨fuel, size⟩ : ∃ n, buf.length = n + 1 := ⟨buf.length - 1, by omega⟩
  rw [size, trace, run]
  dsimp only
  rw [trace_fuel stable advances fuel _ _ (by rw [List.length_drop]; omega)]

theorem trace_sorted (advances : Advances next) (fuel pos : Nat) (buf : List σ) :
    (∀ entry ∈ trace next fuel pos buf, pos ≤ entry.1) ∧
      (trace next fuel pos buf).Pairwise fun first second => first.1 < second.1 := by
  induction fuel generalizing pos buf with
  | zero => simp [trace]
  | succ fuel ih =>
    cases run : next buf with
    | none => simp [trace, run]
    | some pair =>
      obtain ⟨item, used⟩ := pair
      have positive := advances buf item used run
      obtain ⟨bound, sorted⟩ := ih (pos + used) (buf.drop used)
      simp only [trace, run]
      refine ⟨?_, List.pairwise_cons.mpr ⟨?_, sorted⟩⟩
      · intro entry member
        rcases List.mem_cons.mp member with rfl | later
        · exact Nat.le_refl _
        · have := bound entry later
          omega
      · intro entry later
        have := bound entry later
        simp only
        omega

end Laws

end Incremental
