import Mathlib.Algebra.BigOperators.Ring.Finset
import Mathlib.Algebra.Order.BigOperators.Ring.Finset
import Mathlib.Algebra.Order.Ring.Basic
import Mathlib.Tactic.Ring
import Mathlib.Tactic.Linarith

set_option autoImplicit false

/-! One finite step on a weighted sum of activations: the weights move along the activations, and
each activation's input moves along its new weight. -/

namespace Ascent

variable {R ι : Type} [CommRing R] [Fintype ι] (activation : R → R)

def output (bias : R) (weight input : ι → R) : R :=
  bias + ∑ i, activation (input i) * weight i

def newWeight (g : R) (weight input : ι → R) (i : ι) : R := weight i + g * activation (input i)

def newInput (g : R) (weight input slope : ι → R) (i : ι) : R :=
  input i + g * newWeight activation g weight input i * slope i

variable {activation} (g bias : R) (weight input slope : ι → R)

theorem output_step :
    output activation (bias + g) (newWeight activation g weight input)
        (newInput activation g weight input slope) - output activation bias weight input =
      g * (1 + ∑ i, activation (input i) * activation (input i)) +
        ∑ i, (activation (newInput activation g weight input slope i) - activation (input i)) *
          newWeight activation g weight input i := by
  have each (i : ι) : activation (newInput activation g weight input slope i) *
      newWeight activation g weight input i - activation (input i) * weight i =
        g * (activation (input i) * activation (input i)) +
          (activation (newInput activation g weight input slope i) - activation (input i)) *
            newWeight activation g weight input i := by
    rw [newWeight]
    ring
  calc output activation (bias + g) (newWeight activation g weight input)
        (newInput activation g weight input slope) - output activation bias weight input
      = g + ∑ i, (activation (newInput activation g weight input slope i) *
          newWeight activation g weight input i - activation (input i) * weight i) := by
        rw [output, output, Finset.sum_sub_distrib]
        ring
    _ = _ := by
        simp only [each, Finset.sum_add_distrib, ← Finset.mul_sum]
        ring

variable [LinearOrder R] [IsStrictOrderedRing R]

theorem contribution_ascends (mono : Monotone activation) (z v c : R) (steep : 0 ≤ c) :
    0 ≤ (activation (z + v * c) - activation z) * v := by
  rcases le_total 0 v with up | down
  · have further : z ≤ z + v * c := le_add_of_nonneg_right (mul_nonneg up steep)
    exact mul_nonneg (sub_nonneg.mpr (mono further)) up
  · have back : z + v * c ≤ z :=
      add_le_of_nonpos_right (mul_nonpos_of_nonpos_of_nonneg down steep)
    exact mul_nonneg_of_nonpos_of_nonpos (sub_nonpos.mpr (mono back)) down

theorem output_ascends (mono : Monotone activation) (steep : ∀ i, 0 ≤ slope i) :
    g * g ≤ g * (output activation (bias + g) (newWeight activation g weight input)
      (newInput activation g weight input slope) - output activation bias weight input) := by
  have squares : 0 ≤ ∑ i, activation (input i) * activation (input i) :=
    Finset.sum_nonneg fun i _ => mul_self_nonneg _
  have moved : 0 ≤ ∑ i, (activation (newInput activation g weight input slope i) -
      activation (input i)) * (g * newWeight activation g weight input i) :=
    Finset.sum_nonneg fun i _ => contribution_ascends mono _ _ _ (steep i)
  have gathered : g * ∑ i, (activation (newInput activation g weight input slope i) -
      activation (input i)) * newWeight activation g weight input i =
        ∑ i, (activation (newInput activation g weight input slope i) - activation (input i)) *
          (g * newWeight activation g weight input i) := by
    rw [Finset.mul_sum]
    exact Finset.sum_congr rfl fun i _ => mul_left_comm _ _ _
  rw [output_step, mul_add, gathered]
  linarith [mul_nonneg (mul_self_nonneg g) squares]

theorem output_direction (mono : Monotone activation) (steep : ∀ i, 0 ≤ slope i) :
    (0 < g → output activation bias weight input < output activation (bias + g)
      (newWeight activation g weight input) (newInput activation g weight input slope)) ∧
    (g < 0 → output activation (bias + g) (newWeight activation g weight input)
      (newInput activation g weight input slope) < output activation bias weight input) ∧
    (g = 0 → output activation (bias + g) (newWeight activation g weight input)
      (newInput activation g weight input slope) = output activation bias weight input) := by
  have step := output_ascends g bias weight input slope mono steep
  refine ⟨fun up => ?_, fun down => ?_, fun still => ?_⟩
  · apply sub_pos.mp
    exact pos_of_mul_pos_right (lt_of_lt_of_le (mul_pos up up) step) up.le
  · apply sub_neg.mp
    exact neg_of_mul_pos_right (lt_of_lt_of_le (mul_pos_of_neg_of_neg down down) step) down.le
  · subst still
    have same : newInput activation 0 weight input slope = input := by
      funext i
      simp [newInput]
    have kept : newWeight activation 0 weight input = weight := by
      funext i
      simp [newWeight]
    rw [same, kept, add_zero]

end Ascent
