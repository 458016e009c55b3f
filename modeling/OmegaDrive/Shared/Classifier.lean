import Mathlib.Algebra.Order.BigOperators.Ring.Finset
import Mathlib.Algebra.Order.Group.MinMax
import Mathlib.Data.List.FinRange
import Mathlib.Tactic.Linarith

set_option autoImplicit false

namespace Classifier

variable {R : Type} [LinearOrder R]

section Scan

variable {α : Type} (score : α → R)

def step (best : α × R) (i : α) : α × R := if best.2 < score i then (i, score i) else best

def scan (start : α) (floor : R) (candidates : List α) : α × R :=
  candidates.foldl (step score) (start, floor)

theorem scan_cases (start : α) (floor : R) (candidates : List α) :
    (scan score start floor candidates = (start, floor) ∧ ∀ i ∈ candidates, score i ≤ floor) ∨
      ∃ before leader after, candidates = before ++ leader :: after ∧
        scan score start floor candidates = (leader, score leader) ∧ floor < score leader ∧
        (∀ i ∈ before, score i < score leader) ∧ ∀ i ∈ after, score i ≤ score leader := by
  induction candidates using List.reverseRecOn with
  | nil => exact .inl ⟨rfl, fun _ member => nomatch member⟩
  | append_singleton candidates last ih =>
    have turn : scan score start floor (candidates ++ [last]) =
        step score (scan score start floor candidates) last := by
      rw [scan, List.foldl_append]
      rfl
    rw [turn]
    rcases ih with ⟨same, low⟩ | ⟨before, leader, after, rfl, same, above, earlier, later⟩
    · rw [same, step]
      split
      next higher =>
        refine .inr ⟨candidates, last, [], rfl, rfl, higher, fun i member => ?_,
          fun _ member => nomatch member⟩
        exact lt_of_le_of_lt (low i member) higher
      next lower =>
        refine .inl ⟨rfl, fun i member => ?_⟩
        rcases List.mem_append.mp member with old | new
        · exact low i old
        · rw [List.mem_singleton.mp new]
          exact not_lt.mp lower
    · rw [same, step]
      split
      next higher =>
        refine .inr ⟨before ++ leader :: after, last, [], rfl, rfl, above.trans higher,
          fun i member => ?_, fun _ member => nomatch member⟩
        rcases List.mem_append.mp member with old | new
        · exact (earlier i old).trans higher
        · rcases List.mem_cons.mp new with rfl | behind
          · exact higher
          · exact lt_of_le_of_lt (later i behind) higher
      next lower =>
        refine .inr ⟨before, leader, after ++ [last], by simp, rfl, above, earlier,
          fun i member => ?_⟩
        rcases List.mem_append.mp member with old | new
        · exact later i old
        · rw [List.mem_singleton.mp new]
          exact not_lt.mp lower

end Scan

section Elects

variable {n : Nat} [NeZero n]

/-- The first class with the highest score, if that is above the floor, and class 0 if not. -/
def Elects (floor : R) (score : Fin n → R) (e : Fin n) : Prop :=
  (e = 0 ∧ ∀ i, score i ≤ floor) ∨
    (floor < score e ∧ (∀ i < e, score i < score e) ∧ ∀ i, score i ≤ score e)

theorem elects_scan (floor : R) (score : Fin n → R) :
    Elects floor score (scan score 0 floor (List.finRange n)).1 := by
  rcases scan_cases score 0 floor (List.finRange n) with
    ⟨same, low⟩ | ⟨before, leader, after, split, same, above, earlier, later⟩
  · exact .inl ⟨by rw [same], fun i => low i (List.mem_finRange i)⟩
  · have sorted : (before ++ leader :: after).Pairwise (· < ·) := by
      rw [← split]
      exact List.pairwise_lt_finRange n
    have place (i : Fin n) : i ∈ before ∨ i = leader ∨ i ∈ after := by
      have member := List.mem_finRange i
      rw [split] at member
      simpa using member
    rw [same]
    refine .inr ⟨above, fun i less => ?_, fun i => ?_⟩
    · rcases place i with first | rfl | behind
      · exact earlier i first
      · exact absurd less (lt_irrefl i)
      · have greater := List.rel_of_pairwise_cons (List.pairwise_append.mp sorted).2.1 behind
        exact absurd less (lt_asymm greater)
    · rcases place i with first | rfl | behind
      · exact (earlier i first).le
      · exact le_rfl
      · exact later i behind

theorem Elects.unique {floor : R} {score : Fin n → R} {e f : Fin n} (one : Elects floor score e)
    (other : Elects floor score f) : e = f := by
  rcases one with ⟨rfl, low⟩ | ⟨above, first, highest⟩
  · rcases other with ⟨rfl, _⟩ | ⟨above, _⟩
    · rfl
    · exact absurd (low f) (not_le.mpr above)
  · rcases other with ⟨_, low⟩ | ⟨_, first', highest'⟩
    · exact absurd (low e) (not_le.mpr above)
    · rcases lt_trichotomy e f with less | same | greater
      · exact absurd (first' e less) (not_lt.mpr (highest f))
      · exact same
      · exact absurd (first f greater) (not_lt.mpr (highest' e))

end Elects

section Layers

variable [CommRing R] [IsStrictOrderedRing R]

variable {ι κ : Type} [Fintype κ]

def dense (weight : ι → κ → R) (bias : ι → R) (x : κ → R) (i : ι) : R :=
  bias i + ∑ j, weight i j * x j

def relu (z : R) : R := max z 0

-- How far a unit can move when its inputs move by `d`.
def reach (weight : ι → κ → R) (d : κ → R) (i : ι) : R := ∑ j, |weight i j| * d j

end Layers

end Classifier
