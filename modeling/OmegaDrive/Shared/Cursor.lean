import Mathlib.Algebra.Ring.Nat
import Mathlib.Data.List.Basic

set_option autoImplicit false

/-- A reader over a buffer fails, or returns a value and the number of items it consumed. -/
def Cursor (σ α : Type) : Type := List σ → Option (α × Nat)

namespace Cursor

variable {σ α β : Type}

instance : Monad (Cursor σ) where
  pure value := fun _ => some (value, 0)
  bind reader next := fun items =>
    match reader items with
    | none => none
    | some (value, used) =>
      match next value (items.drop used) with
      | none => none
      | some (result, more) => some (result, used + more)

def fail : Cursor σ α := fun _ => none

-- The `?` operator on an optional value: nothing is consumed.
def lift (value : Option α) : Cursor σ α := fun _ => value.map fun v => (v, 0)

def require (condition : Bool) : Cursor σ Unit := fun _ => if condition then some ((), 0) else none

def literal [BEq σ] (text : List σ) : Cursor σ Unit := fun items =>
  if items.take text.length == text then some ((), text.length) else none

def times (reader : Cursor σ α) : Nat → Cursor σ (List α)
  | 0 => pure []
  | count + 1 => do
    let head ← reader
    let tail ← times reader count
    return head :: tail

@[simp] theorem pure_apply (value : α) (items : List σ) :
    (pure value : Cursor σ α) items = some (value, 0) := rfl

@[simp] theorem fail_apply (items : List σ) : (fail : Cursor σ α) items = none := rfl

@[simp] theorem lift_apply (value : Option α) (items : List σ) :
    lift value items = value.map fun v => (v, 0) := rfl

@[simp] theorem require_apply (condition : Bool) (items : List σ) :
    require condition items = if condition then some ((), 0) else none := rfl

theorem bind_apply (reader : Cursor σ α) (next : α → Cursor σ β) (items : List σ) :
    (reader >>= next) items =
      match reader items with
      | none => none
      | some (value, used) =>
        match next value (items.drop used) with
        | none => none
        | some (result, more) => some (result, used + more) := rfl

theorem bind_eq_some (reader : Cursor σ α) (next : α → Cursor σ β) (items : List σ)
    (result : β) (total : Nat) (run : (reader >>= next) items = some (result, total)) :
    ∃ value used more, reader items = some (value, used) ∧
      next value (items.drop used) = some (result, more) ∧ total = used + more := by
  rw [bind_apply] at run
  cases first : reader items with
  | none => simp [first] at run
  | some pair =>
    obtain ⟨value, used⟩ := pair
    simp only [first] at run
    cases second : next value (items.drop used) with
    | none => simp [second] at run
    | some pair =>
      obtain ⟨final, more⟩ := pair
      simp only [second, Option.some.injEq, Prod.mk.injEq] at run
      exact ⟨value, used, more, rfl, run.1 ▸ second, run.2.symm⟩

theorem bind_none (reader : Cursor σ α) (next : α → Cursor σ β) (items : List σ)
    (stuck : reader items = none) : (reader >>= next) items = none := by
  rw [bind_apply, stuck]

theorem bind_some (reader : Cursor σ α) (next : α → Cursor σ β) (items : List σ)
    (value : α) (used : Nat) (first : reader items = some (value, used)) :
    (reader >>= next) items =
      (next value (items.drop used)).map fun pair => (pair.1, used + pair.2) := by
  rw [bind_apply, first]
  dsimp only
  cases next value (items.drop used) <;> rfl

theorem pure_bind (value : α) (next : α → Cursor σ β) : (pure value >>= next) = next value := by
  funext items
  rw [bind_some _ _ _ _ _ (pure_apply value items), List.drop_zero]
  cases next value items <;> simp

theorem bind_pure (reader : Cursor σ α) : (reader >>= pure) = reader := by
  funext items
  cases first : reader items with
  | none => rw [bind_none _ _ _ first]
  | some pair => rw [bind_some _ _ _ _ _ first]; rfl

theorem assoc {γ : Type} (reader : Cursor σ α) (next : α → Cursor σ β) (last : β → Cursor σ γ) :
    (reader >>= next) >>= last = reader >>= fun value => next value >>= last := by
  funext items
  cases first : reader items with
  | none => rw [bind_none _ _ _ (bind_none _ _ _ first), bind_none _ _ _ first]
  | some pair =>
    obtain ⟨value, used⟩ := pair
    rw [bind_some _ _ _ _ _ first]
    cases second : next value (items.drop used) with
    | none =>
      rw [bind_none, bind_none _ _ _ second, Option.map_none]
      rw [bind_some _ _ _ _ _ first, second, Option.map_none]
    | some pair =>
      obtain ⟨middle, more⟩ := pair
      rw [bind_some _ _ _ _ _ second, bind_some (reader >>= next) last items middle (used + more)]
      · rw [List.drop_drop, Option.map_map]
        congr 1
        funext ⟨result, final⟩
        simp [Nat.add_assoc]
      · rw [bind_some _ _ _ _ _ first, second, Option.map_some]

def SelfDelimiting (reader : Cursor σ α) : Prop :=
  ∀ items value used, reader items = some (value, used) →
    used ≤ items.length ∧ ∀ rest, reader (items.take used ++ rest) = some (value, used)

theorem selfDelimiting_pure (value : α) : SelfDelimiting (pure value : Cursor σ α) := by
  intro items result used run
  obtain ⟨rfl, rfl⟩ : value = result ∧ 0 = used := by simpa using run
  simp

theorem selfDelimiting_fail : SelfDelimiting (fail : Cursor σ α) := by
  intro items result used run
  simp at run

theorem selfDelimiting_lift (value : Option α) : SelfDelimiting (lift value : Cursor σ α) := by
  intro items result used run
  cases value with
  | none => simp at run
  | some v =>
    obtain ⟨rfl, rfl⟩ : v = result ∧ 0 = used := by simpa using run
    simp

theorem selfDelimiting_require (condition : Bool) :
    SelfDelimiting (require condition : Cursor σ Unit) := by
  intro items result used run
  cases condition with
  | false => simp at run
  | true =>
    obtain rfl : 0 = used := by simpa using run
    simp

theorem literal_eq_some [BEq σ] [LawfulBEq σ] (text items : List σ) (u : Unit) (used : Nat)
    (run : literal text items = some (u, used)) :
    used = text.length ∧ ∃ rest, items = text ++ rest := by
  simp only [literal] at run
  split at run
  next same =>
    obtain rfl : text.length = used := by simpa using run
    have taken : items.take text.length = text := by simpa using same
    refine ⟨rfl, items.drop text.length, ?_⟩
    conv_lhs => rw [← List.take_append_drop text.length items, taken]
  next => simp at run

theorem selfDelimiting_literal [BEq σ] [LawfulBEq σ] (text : List σ) :
    SelfDelimiting (literal text) := by
  intro items result used run
  obtain ⟨rfl, rest, rfl⟩ := literal_eq_some _ _ _ _ run
  simp [literal]

theorem SelfDelimiting.bind {reader : Cursor σ α} {next : α → Cursor σ β}
    (first : SelfDelimiting reader) (second : ∀ value, SelfDelimiting (next value)) :
    SelfDelimiting (reader >>= next) := by
  intro items result total run
  obtain ⟨value, used, more, head, tail, rfl⟩ := bind_eq_some _ _ _ _ _ run
  obtain ⟨usedBound, headStable⟩ := first _ _ _ head
  obtain ⟨moreBound, tailStable⟩ := second value _ _ _ tail
  have available : more ≤ items.length - used := by simpa using moreBound
  refine ⟨by omega, fun rest => ?_⟩
  have split : items.take (used + more) ++ rest =
      items.take used ++ ((items.drop used).take more ++ rest) := by
    rw [List.take_add, List.append_assoc]
  rw [split, bind_some _ _ _ _ _ (headStable _)]
  have skipped : (items.take used ++ ((items.drop used).take more ++ rest)).drop used =
      (items.drop used).take more ++ rest := by
    apply List.drop_left'
    simp [usedBound]
  rw [skipped, tailStable]
  rfl

theorem SelfDelimiting.times {reader : Cursor σ α} (each : SelfDelimiting reader) (count : Nat) :
    SelfDelimiting (times reader count) := by
  induction count with
  | zero => exact selfDelimiting_pure _
  | succ count ih =>
    exact each.bind fun _ => ih.bind fun _ => selfDelimiting_pure _

theorem SelfDelimiting.extend {reader : Cursor σ α} (stable : SelfDelimiting reader)
    (items rest : List σ) (value : α) (used : Nat) (run : reader items = some (value, used)) :
    reader (items ++ rest) = some (value, used) := by
  have h := (stable _ _ _ run).2 (items.drop used ++ rest)
  rwa [← List.append_assoc, List.take_append_drop] at h

theorem SelfDelimiting.bound {reader : Cursor σ α} (stable : SelfDelimiting reader)
    (items : List σ) (value : α) (used : Nat) (run : reader items = some (value, used)) :
    used ≤ items.length :=
  (stable _ _ _ run).1

theorem SelfDelimiting.truncated {reader : Cursor σ α} (stable : SelfDelimiting reader)
    (items : List σ) (value : α) (used cut : Nat) (run : reader items = some (value, used))
    (short : cut < used) : reader (items.take cut) = none := by
  cases outcome : reader (items.take cut) with
  | none => rfl
  | some pair =>
    obtain ⟨other, fewer⟩ := pair
    have bound := stable.bound _ _ _ outcome
    have longer := stable.extend _ (items.drop cut) _ _ outcome
    rw [List.take_append_drop, run] at longer
    have same : used = fewer := congrArg Prod.snd (Option.some.inj longer)
    rw [List.length_take] at bound
    omega

def Yields (reader : Cursor σ α) (property : α → Prop) : Prop :=
  ∀ items value used, reader items = some (value, used) → property value

theorem yields_trivial (reader : Cursor σ α) : Yields reader fun _ => True :=
  fun _ _ _ _ => trivial

theorem yields_pure (value : α) (property : α → Prop) (holds : property value) :
    Yields (pure value : Cursor σ α) property := by
  intro items result used run
  obtain ⟨rfl, _⟩ : value = result ∧ _ := by simpa using run
  exact holds

theorem yields_fail (property : α → Prop) : Yields (fail : Cursor σ α) property := by
  intro items result used run
  simp at run

theorem Yields.bind {reader : Cursor σ α} {next : α → Cursor σ β} {property : α → Prop}
    {result : β → Prop} (first : Yields reader property)
    (second : ∀ value, property value → Yields (next value) result) :
    Yields (reader >>= next) result := by
  intro items value used run
  obtain ⟨middle, _, _, head, tail, _⟩ := bind_eq_some _ _ _ _ _ run
  exact second middle (first _ _ _ head) _ _ _ tail

theorem Yields.times {reader : Cursor σ α} {property : α → Prop} (each : Yields reader property)
    (count : Nat) :
    Yields (times reader count) fun values =>
      values.length = count ∧ ∀ value ∈ values, property value := by
  induction count with
  | zero => exact yields_pure _ _ ⟨rfl, by simp⟩
  | succ count ih =>
    refine each.bind fun head holds => ih.bind fun tail ⟨size, all⟩ => yields_pure _ _ ⟨?_, ?_⟩
    · rw [List.length_cons, size]
    · intro value member
      rcases List.mem_cons.mp member with rfl | later
      · exact holds
      · exact all value later

def Spells (reader : Cursor σ α) (text : α → List σ) : Prop :=
  ∀ items value used, reader items = some (value, used) → items = text value ++ items.drop used

theorem spells_pure (value : α) (text : α → List σ) (silent : text value = []) :
    Spells (pure value : Cursor σ α) text := by
  intro items result used run
  obtain ⟨rfl, rfl⟩ : value = result ∧ 0 = used := by simpa using run
  rw [silent, List.nil_append, List.drop_zero]

theorem Spells.bind {reader : Cursor σ α} {next : α → Cursor σ β} {text : α → List σ}
    {more : β → List σ} (first : Spells reader text)
    (second : ∀ value, ∃ rest : β → List σ, Spells (next value) rest ∧
      Yields (next value) fun result => more result = text value ++ rest result) :
    Spells (reader >>= next) more := by
  intro items result total run
  obtain ⟨value, used, added, head, tail, rfl⟩ := bind_eq_some _ _ _ _ _ run
  obtain ⟨rest, spelled, same⟩ := second value
  have front := first _ _ _ head
  have back := spelled _ _ _ tail
  rw [same _ _ _ tail, List.append_assoc, ← List.drop_drop, ← back]
  exact front

theorem Spells.times {reader : Cursor σ α} {text : α → List σ} (each : Spells reader text)
    (count : Nat) : Spells (times reader count) fun values => values.flatMap text := by
  induction count with
  | zero => exact spells_pure [] _ rfl
  | succ count ih =>
    refine each.bind fun head => ⟨fun values => values.tail.flatMap text, ?_, ?_⟩
    · refine ih.bind fun tail => ⟨fun _ => [], spells_pure _ _ rfl, yields_pure _ _ ?_⟩
      rw [List.tail_cons, List.append_nil]
    · exact (yields_trivial _).bind fun tail _ => yields_pure _ _ rfl

theorem times_isSome_succ (reader : Cursor σ α) (count : Nat) (items : List σ) (value : α)
    (used : Nat) (head : reader items = some (value, used)) :
    (times reader (count + 1) items).isSome = (times reader count (items.drop used)).isSome := by
  rw [times, bind_some _ _ _ _ _ head, Option.isSome_map]
  cases rest : times reader count (items.drop used) with
  | none => rw [bind_none _ _ _ rest]
  | some pair =>
    rw [bind_some _ _ _ _ _ rest]
    rfl

theorem times_isSome_of_le (reader : Cursor σ α) {few many : Nat} (le : few ≤ many)
    (items : List σ) (whole : (times reader many items).isSome) :
    (times reader few items).isSome := by
  induction few generalizing many items with
  | zero => rfl
  | succ few ih =>
    obtain ⟨more, rfl⟩ : ∃ more, many = more + 1 := ⟨many - 1, by omega⟩
    cases head : reader items with
    | none =>
      rw [times, bind_none _ _ _ head] at whole
      cases whole
    | some pair =>
      rw [times_isSome_succ _ _ _ _ _ head] at whole ⊢
      exact ih (Nat.le_of_succ_le_succ le) _ whole

def Reads (reader : Cursor σ α) (text : List σ) (value : α) : Prop :=
  ∀ rest, reader (text ++ rest) = some (value, text.length)

theorem reads_pure (value : α) : Reads (pure value : Cursor σ α) [] value :=
  fun _ => rfl

theorem reads_lift (value : α) : Reads (lift (some value) : Cursor σ α) [] value :=
  fun _ => rfl

theorem reads_require (condition : Bool) (holds : condition = true) :
    Reads (require condition : Cursor σ Unit) [] () := by
  intro rest
  simp [holds]

theorem reads_literal [BEq σ] [LawfulBEq σ] (text : List σ) : Reads (literal text) text () := by
  intro rest
  simp [literal]

theorem Reads.bind {reader : Cursor σ α} {next : α → Cursor σ β} {text more : List σ}
    {value : α} {result : β} (first : Reads reader text value)
    (second : Reads (next value) more result) : Reads (reader >>= next) (text ++ more) result := by
  intro rest
  rw [List.append_assoc, bind_some _ _ _ _ _ (first _), List.drop_left, second rest]
  simp

theorem Reads.before {reader : Cursor σ α} {text : List σ} {value : α}
    (first : Reads reader text value) (next : α → Cursor σ β) (rest : List σ) :
    (reader >>= next) (text ++ rest) =
      (next value rest).map fun pair => (pair.1, text.length + pair.2) := by
  rw [bind_some _ _ _ _ _ (first rest), List.drop_left]

theorem selfDelimiting_of_reads {reader : Cursor σ α}
    (exact : ∀ items value used, reader items = some (value, used) →
      ∃ text rest, items = text ++ rest ∧ used = text.length ∧ Reads reader text value) :
    SelfDelimiting reader := by
  intro items value used run
  obtain ⟨text, rest, rfl, rfl, reads⟩ := exact items value used run
  refine ⟨by simp, fun other => ?_⟩
  rw [List.take_left' rfl]
  exact reads other

theorem Reads.times {reader : Cursor σ α} (texts : List (List σ)) (values : List α)
    (each : List.Forall₂ (Reads reader) texts values) :
    Reads (times reader values.length) texts.flatten values := by
  induction each with
  | nil => exact reads_pure _
  | @cons text value texts values head tail ih =>
    have step : Reads (Cursor.times reader (values.length + 1))
        (text ++ (texts.flatten ++ [])) (value :: values) :=
      head.bind (ih.bind (reads_pure _))
    simpa using step

def Takes (piece : List σ → Prop) (reader : Cursor σ α) (count : Nat) : Prop :=
  ∀ pieces : List (List σ), pieces.length = count → (∀ text ∈ pieces, piece text) →
    ∃ outcome : Option α, ∀ rest,
      reader (pieces.flatten ++ rest) = outcome.map fun value => (value, pieces.flatten.length)

section Takes

variable {piece : List σ → Prop}

theorem takes_pure (value : α) : Takes piece (pure value) 0 := by
  intro pieces size _
  obtain rfl := List.eq_nil_of_length_eq_zero size
  exact ⟨some value, fun _ => rfl⟩

theorem Takes.bind_yields {reader : Cursor σ α} {next : α → Cursor σ β} {count more : Nat}
    {property : α → Prop} (first : Takes piece reader count) (yields : Yields reader property)
    (second : ∀ value, property value → Takes piece (next value) more) :
    Takes piece (reader >>= next) (count + more) := by
  intro pieces size each
  have front := first (pieces.take count) (by rw [List.length_take]; omega)
    fun text member => each text (List.mem_of_mem_take member)
  obtain ⟨outcome, front⟩ := front
  have split : pieces.flatten = (pieces.take count).flatten ++ (pieces.drop count).flatten := by
    rw [← List.flatten_append, List.take_append_drop]
  cases outcome with
  | none =>
    refine ⟨none, fun rest => ?_⟩
    rw [split, List.append_assoc]
    exact bind_none _ _ _ (front _)
  | some value =>
    obtain ⟨outcome, back⟩ := second value (yields _ _ _ (front [])) (pieces.drop count)
      (by rw [List.length_drop]; omega) fun text member => each text (List.mem_of_mem_drop member)
    refine ⟨outcome, fun rest => ?_⟩
    rw [split, List.append_assoc, bind_some _ _ _ _ _ (front _), List.drop_left, back,
      List.length_append]
    cases outcome <;> rfl

theorem Takes.bind {reader : Cursor σ α} {next : α → Cursor σ β} {count more : Nat}
    (first : Takes piece reader count) (second : ∀ value, Takes piece (next value) more) :
    Takes piece (reader >>= next) (count + more) :=
  first.bind_yields (yields_trivial reader) fun value _ => second value

theorem Takes.times {reader : Cursor σ α} {each : Nat} (one : Takes piece reader each)
    (count : Nat) : Takes piece (times reader count) (count * each) := by
  induction count with
  | zero =>
    rw [Nat.zero_mul]
    exact takes_pure _
  | succ count ih =>
    have total : (count + 1) * each = each + (count * each + 0) := by
      rw [Nat.succ_mul, Nat.add_zero, Nat.add_comm]
    rw [total]
    exact one.bind fun _ => ih.bind fun _ => takes_pure _

end Takes

end Cursor
