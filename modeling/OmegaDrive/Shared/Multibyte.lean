import Mathlib.Data.List.Forall2

set_option autoImplicit false

namespace Multibyte

variable {σ : Type}

/-- How many units pass their checks before one fails or is missing. -/
def matched : List (σ → Bool) → List σ → Nat
  | check :: checks, unit :: units => if check unit then matched checks units + 1 else 0
  | _, _ => 0

@[simp] theorem matched_nil (units : List σ) : matched [] units = 0 := by
  cases units <;> rfl

@[simp] theorem matched_missing (check : σ → Bool) (checks : List (σ → Bool)) :
    matched (check :: checks) [] = 0 := rfl

theorem matched_cons (check : σ → Bool) (checks : List (σ → Bool)) (unit : σ) (units : List σ) :
    matched (check :: checks) (unit :: units) = (check :: checks).length ↔
      check unit = true ∧ matched checks units = checks.length := by
  rw [matched, List.length_cons]
  split
  next holds => simp [holds]
  next fails => simp [fails]

def Passes (checks : List (σ → Bool)) (units : List σ) : Prop :=
  List.Forall₂ (fun check unit => check unit = true) checks units

theorem Passes.matched {checks : List (σ → Bool)} {units : List σ} (passes : Passes checks units)
    (rest : List σ) : Multibyte.matched checks (units ++ rest) = checks.length := by
  induction passes with
  | nil => cases rest <;> rfl
  | cons head tail ih =>
    rw [List.cons_append, Multibyte.matched, if_pos head, ih, List.length_cons]

theorem Passes.matched_take {checks : List (σ → Bool)} {units : List σ}
    (passes : Passes checks units) (n : Nat) (inside : n ≤ units.length) :
    Multibyte.matched checks (units.take n) = n := by
  induction passes generalizing n with
  | nil =>
    obtain rfl : n = 0 := Nat.le_zero.mp inside
    rfl
  | cons head tail ih =>
    cases n with
    | zero => rfl
    | succ n =>
      rw [List.take_succ_cons, Multibyte.matched, if_pos head,
        ih n (Nat.le_of_succ_le_succ inside)]

theorem passes_of_matched (checks : List (σ → Bool)) (units : List σ)
    (all : matched checks units = checks.length) : Passes checks (units.take checks.length) := by
  induction checks generalizing units with
  | nil => exact .nil
  | cons check checks ih =>
    cases units with
    | nil => cases all
    | cons unit units =>
      obtain ⟨holds, later⟩ := (matched_cons _ _ _ _).mp all
      exact .cons holds (ih units later)

variable (following : σ → Option (List (σ → Bool)))

inductive Character : List σ → Prop where
  | mk {lead : σ} {checks : List (σ → Bool)} {units : List σ} (expected : following lead = some checks)
      (passes : Passes checks units) : Character (lead :: units)

inductive Text : List σ → Prop where
  | nil : Text []
  | cons {char rest : List σ} (character : Character following char) (later : Text rest) :
      Text (char ++ rest)

variable {following}

theorem Text.append {first second : List σ} (text : Text following first)
    (more : Text following second) : Text following (first ++ second) := by
  induction text with
  | nil => exact more
  | cons character _ ih =>
    rw [List.append_assoc]
    exact .cons character ih

theorem Character.text {char : List σ} (character : Character following char) :
    Text following char := by
  have single := Text.cons character .nil
  rwa [List.append_nil] at single

theorem Text.cut {units : List σ} (text : Text following units) (n : Nat) :
    Text following (units.take n) ∨
      ∃ whole char rest m, Text following whole ∧ Character following char ∧
        units = whole ++ (char ++ rest) ∧ 0 < m ∧ m < char.length ∧ n = whole.length + m := by
  induction text generalizing n with
  | nil =>
    rw [List.take_nil]
    exact .inl .nil
  | @cons char rest character later ih =>
    by_cases inside : n < char.length
    · cases n with
      | zero => exact .inl .nil
      | succ n =>
        exact .inr ⟨[], char, rest, n + 1, .nil, character, rfl, Nat.succ_pos n, inside,
          (Nat.zero_add _).symm⟩
    · have beyond : n = char.length + (n - char.length) := by omega
      rcases ih (n - char.length) with whole | ⟨whole, other, more, m, text, isChar, rfl, some, few, cut⟩
      · left
        rw [beyond, List.take_length_add_append]
        exact .cons character whole
      · refine .inr ⟨char ++ whole, other, more, m, .cons character text, isChar, ?_, some, few, ?_⟩
        · rw [List.append_assoc]
        · rw [List.length_append]
          omega

section Lossy

variable (following) (replacement : List σ)

-- Characters are kept. What begins one and breaks off is replaced as a whole, and so is a unit
-- that begins none.
def lossy : List σ → List σ
  | [] => []
  | lead :: rest =>
    match following lead with
    | none => replacement ++ lossy rest
    | some checks =>
      (if matched checks rest = checks.length then lead :: rest.take checks.length
        else replacement) ++ lossy (rest.drop (matched checks rest))
  termination_by units => units.length

variable {following}

theorem lossy_character {char : List σ} (character : Character following char) (rest : List σ) :
    lossy following replacement (char ++ rest) = char ++ lossy following replacement rest := by
  obtain ⟨expected, passes⟩ := character
  have whole := passes.matched rest
  have size := passes.length_eq
  rw [List.cons_append, lossy, expected]
  dsimp only
  rw [if_pos whole, whole, size, List.take_left, List.drop_left]

theorem lossy_text {units : List σ} (text : Text following units) (rest : List σ) :
    lossy following replacement (units ++ rest) = units ++ lossy following replacement rest := by
  induction text with
  | nil => rfl
  | cons character _ ih =>
    rw [List.append_assoc, lossy_character replacement character, ih, List.append_assoc]

theorem lossy_self {units : List σ} (text : Text following units) :
    lossy following replacement units = units := by
  have all := lossy_text replacement text []
  rwa [List.append_nil, lossy, List.append_nil] at all

theorem lossy_part {char : List σ} (character : Character following char) (m : Nat)
    (some : 0 < m) (few : m < char.length) :
    lossy following replacement (char.take m) = replacement := by
  obtain ⟨expected, passes⟩ := character
  obtain ⟨n, rfl⟩ : ∃ n, m = n + 1 := ⟨m - 1, by omega⟩
  have size := passes.length_eq
  rw [List.length_cons] at few
  have part := passes.matched_take n (by omega)
  rw [List.take_succ_cons, lossy, expected]
  dsimp only
  rw [part, if_neg (by omega), List.drop_eq_nil_of_le (List.length_take_le _ _), lossy,
    List.append_nil]

theorem lossy_cut {whole char : List σ} (text : Text following whole)
    (character : Character following char) (rest : List σ) (m : Nat) (some : 0 < m)
    (few : m < char.length) :
    lossy following replacement ((whole ++ (char ++ rest)).take (whole.length + m)) =
      whole ++ replacement := by
  rw [List.take_length_add_append, List.take_append_of_le_length (Nat.le_of_lt few),
    lossy_text replacement text, lossy_part replacement character m some few]

theorem text_lossy (replaced : Text following replacement) (units : List σ) :
    Text following (lossy following replacement units) := by
  induction units using lossy.induct following with
  | case1 =>
    rw [lossy]
    exact .nil
  | case2 lead rest unexpected ih =>
    rw [lossy, unexpected]
    exact replaced.append ih
  | case3 lead rest checks expected ih =>
    rw [lossy, expected]
    apply Text.append _ ih
    split
    next whole => exact Character.text (.mk expected (passes_of_matched checks rest whole))
    next => exact replaced

end Lossy

end Multibyte
