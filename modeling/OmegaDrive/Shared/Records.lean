import Mathlib.Algebra.Ring.Nat
import Mathlib.Data.List.Basic

set_option autoImplicit false

namespace Records

variable {α β : Type} (size : Nat)

def recordAt (buffer : List β) (i : Nat) : List β := (buffer.drop (i * size)).take size

/-- Whole records only: what is left over at the end is not looked at. -/
def cut (buffer : List β) : List (List β) :=
  (List.range (buffer.length / size)).map (recordAt size buffer)

variable {size} (record : α → List β) (each : ∀ item, (record item).length = size)

include each

theorem length_flatMap (items : List α) : (items.flatMap record).length = items.length * size := by
  have sizes : items.map (fun item => (record item).length) = List.replicate items.length size :=
    (List.map_congr_left fun item _ => each item).trans (List.map_const' ..)
  rw [List.length_flatMap, sizes, List.sum_replicate_nat]

theorem recordAt_flatMap (items : List α) (i : Nat) (item : α) (found : items[i]? = some item) :
    recordAt size (items.flatMap record) i = record item := by
  unfold recordAt
  induction items generalizing i with
  | nil => cases found
  | cons first items ih =>
    rw [List.flatMap_cons]
    cases i with
    | zero =>
      obtain rfl : first = item := by simpa using found
      rw [Nat.zero_mul, List.drop_zero, List.take_left' (each first)]
    | succ i =>
      rw [Nat.succ_mul, Nat.add_comm, ← List.drop_drop, List.drop_left' (each first)]
      exact ih i (by simpa using found)

theorem cut_flatMap (positive : 0 < size) (items : List α) :
    cut size (items.flatMap record) = items.map record := by
  rw [cut, length_flatMap record each, Nat.mul_div_cancel _ positive]
  apply List.ext_getElem
  · simp
  · intro i inside _
    rw [List.length_map, List.length_range] at inside
    rw [List.getElem_map, List.getElem_map, List.getElem_range]
    exact recordAt_flatMap record each items i _ (List.getElem?_eq_getElem inside)

end Records
