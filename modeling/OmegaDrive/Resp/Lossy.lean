import OmegaDrive.Resp.Text
import OmegaDrive.Shared.Multibyte

set_option autoImplicit false

namespace OmegaDrive

open Multibyte

/-- What each first byte asks of the bytes behind it. -/
def following (lead : Byte) : Option (List (Byte → Bool)) :=
  if lead < 0x80 then some []
  else if 0xC2 ≤ lead && lead ≤ 0xDF then some [isContinuation]
  else if 0xE0 ≤ lead && lead ≤ 0xEF then some [secondOfThree lead, isContinuation]
  else if 0xF0 ≤ lead && lead ≤ 0xF4 then
    some [secondOfFour lead, isContinuation, isContinuation]
  else none

theorem validUtf8_cons (lead : Byte) (rest : Bytes) :
    validUtf8 (lead :: rest) = true ↔ ∃ checks, following lead = some checks ∧
      matched checks rest = checks.length ∧ validUtf8 (rest.drop checks.length) = true := by
  rw [validUtf8.eq_def, following]
  dsimp only
  by_cases one : lead < 0x80
  · simp [one]
  rw [if_neg one, if_neg one]
  by_cases two : (0xC2 ≤ lead && lead ≤ 0xDF) = true
  · rcases rest with _ | ⟨second, rest⟩
    · simp [two]
    · simp only [two, if_true, Option.some.injEq, exists_eq_left', matched_cons]
      simp
  rw [if_neg two]
  by_cases three : (0xE0 ≤ lead && lead ≤ 0xEF) = true
  · rcases rest with _ | ⟨second, _ | ⟨third, rest⟩⟩
    · simp [three]
    · simp only [two, three, if_true, Option.some.injEq, exists_eq_left', matched_cons]
      simp
    · simp only [two, three, if_true, Option.some.injEq, exists_eq_left', matched_cons]
      simp [and_assoc]
  rw [if_neg three]
  by_cases four : (0xF0 ≤ lead && lead ≤ 0xF4) = true
  · rcases rest with _ | ⟨second, _ | ⟨third, _ | ⟨fourth, rest⟩⟩⟩
    · simp [four]
    · simp only [two, four, if_true, Option.some.injEq, exists_eq_left', matched_cons]
      simp
    · simp only [two, three, four, if_true, Option.some.injEq, exists_eq_left', matched_cons]
      simp
    · simp only [two, three, four, if_true, Option.some.injEq, exists_eq_left', matched_cons]
      simp [and_assoc]
  rw [if_neg four]
  rcases rest with _ | ⟨second, _ | ⟨third, _ | ⟨fourth, rest⟩⟩⟩
  · simp
  · simp [two]
  · simp [two, three]
  · simp [two, three, four]

theorem validUtf8_of_text {bytes : Bytes} (text : Text following bytes) :
    validUtf8 bytes = true := by
  induction text with
  | nil => rfl
  | @cons char rest character later ih =>
    obtain ⟨expected, passes⟩ := character
    rw [List.cons_append]
    refine (validUtf8_cons _ _).mpr ⟨_, expected, passes.matched rest, ?_⟩
    rw [passes.length_eq, List.drop_left]
    exact ih

theorem text_of_validUtf8 (bytes : Bytes) (valid : validUtf8 bytes = true) :
    Text following bytes := by
  induction size : bytes.length using Nat.strong_induction_on generalizing bytes with
  | h size ih =>
    cases bytes with
    | nil => exact .nil
    | cons lead rest =>
      obtain ⟨checks, expected, all, later⟩ := (validUtf8_cons lead rest).mp valid
      have tail := ih _ (by simp at size ⊢; omega) _ later rfl
      have whole := Text.cons (.mk expected (passes_of_matched checks rest all)) tail
      rwa [List.cons_append, List.take_append_drop] at whole

theorem validUtf8_iff (bytes : Bytes) : validUtf8 bytes = true ↔ Text following bytes :=
  ⟨text_of_validUtf8 bytes, validUtf8_of_text⟩

-- U+FFFD
def replacement : Bytes := [0xEF, 0xBF, 0xBD]

theorem character_replacement : Character following replacement := by
  have expected : following 0xEF = some [secondOfThree 0xEF, isContinuation] := rfl
  exact .mk expected (.cons rfl (.cons rfl .nil))

theorem text_str (s : Str) : Text following s.bytes := text_of_validUtf8 s.bytes s.valid

theorem length_of_replacement {char rest : Bytes} (character : Character following char)
    (starts : replacement <+: char ++ rest) : char.length = 3 := by
  obtain ⟨expected, passes⟩ := character
  obtain ⟨more, same⟩ := starts
  rw [replacement, List.cons_append, List.cons_append] at same
  obtain ⟨rfl, _⟩ := List.cons.inj same
  obtain rfl := Option.some.inj expected
  rw [List.length_cons, ← passes.length_eq]
  rfl

namespace Str

def fromUtf8Lossy (bytes : Bytes) : Str :=
  ⟨lossy following replacement bytes,
    validUtf8_of_text (text_lossy replacement character_replacement.text bytes)⟩

@[simp] theorem bytes_fromUtf8Lossy (bytes : Bytes) :
    (fromUtf8Lossy bytes).bytes = lossy following replacement bytes := rfl

theorem fromUtf8Lossy_self (s : Str) : fromUtf8Lossy s.bytes = s := by
  obtain ⟨bytes, valid⟩ := s
  simp only [fromUtf8Lossy, lossy_self replacement (text_of_validUtf8 bytes valid)]

-- A cut after `n` bytes falls between two characters, or into a U+FFFD.
def CutsCleanly (s : Str) (n : Nat) : Prop :=
  validUtf8 (s.bytes.take n) = true ∨
    ∃ start < n, n < start + 3 ∧ validUtf8 (s.bytes.take start) = true ∧
      (s.bytes.drop start).take 3 = replacement

theorem fromUtf8Lossy_take_prefix (s : Str) (n : Nat) :
    (fromUtf8Lossy (s.bytes.take n)).bytes <+: s.bytes ↔ s.CutsCleanly n := by
  constructor
  · intro kept
    rcases (text_str s).cut n with
      whole | ⟨whole, char, rest, m, text, character, split, some, few, rfl⟩
    · exact .inl (validUtf8_of_text whole)
    · rw [bytes_fromUtf8Lossy, split, lossy_cut replacement text character rest m some few,
        List.prefix_append_right_inj] at kept
      have three := length_of_replacement character kept
      refine .inr ⟨whole.length, by omega, by omega, ?_, ?_⟩
      · rw [split, List.take_left]
        exact validUtf8_of_text text
      · rw [split, List.drop_left]
        exact (List.prefix_iff_eq_take.mp kept).symm
  · rintro (whole | ⟨start, after, before, whole, replaced⟩)
    · rw [bytes_fromUtf8Lossy, lossy_self replacement (text_of_validUtf8 _ whole)]
      exact List.take_prefix n s.bytes
    · obtain ⟨rest, behind⟩ : replacement <+: s.bytes.drop start :=
        replaced ▸ List.take_prefix 3 (s.bytes.drop start)
      have inside : start ≤ s.bytes.length := by
        have length := congrArg List.length behind
        rw [List.length_append, List.length_drop] at length
        simp only [replacement, List.length_cons] at length
        omega
      have split : s.bytes = s.bytes.take start ++ (replacement ++ rest) := by
        rw [behind, List.take_append_drop]
      have cut : n = (s.bytes.take start).length + (n - start) := by
        rw [List.length_take]
        omega
      have decoded := lossy_cut replacement (text_of_validUtf8 _ whole) character_replacement rest
        (n - start) (by omega) (by simp only [replacement, List.length_cons, List.length_nil]; omega)
      rw [← split, ← cut] at decoded
      rw [bytes_fromUtf8Lossy, decoded]
      exact ⟨rest, by rw [List.append_assoc, ← split]⟩

end Str

end OmegaDrive
