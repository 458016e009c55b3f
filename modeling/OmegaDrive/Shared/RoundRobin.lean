import Mathlib.Algebra.Ring.Nat
import Mathlib.Data.List.Induction
import Mathlib.Data.List.Perm.Basic

set_option autoImplicit false

/-! Items dealt to hands in turn, by a counter that may wrap around. -/

namespace RoundRobin

variable {α : Type} (hands : Nat) (counter : Nat → Nat)

def dealt (hand : Nat) (items : List α) : List α :=
  (items.zipIdx.filter fun entry => decide (counter entry.2 % hands = hand)).map Prod.fst

@[simp] theorem dealt_nil (hand : Nat) : dealt hands counter hand ([] : List α) = [] := rfl

theorem dealt_append (hand : Nat) (items : List α) (item : α) :
    dealt hands counter hand (items ++ [item]) =
      dealt hands counter hand items ++
        if counter items.length % hands = hand then [item] else [] := by
  rw [dealt, List.zipIdx_append, List.filter_append, List.map_append, dealt, Nat.zero_add,
    List.zipIdx_singleton]
  split
  next mine => rw [List.filter_cons_of_pos (by simpa using mine)]; rfl
  next other => rw [List.filter_cons_of_neg (by simpa using other)]; rfl

variable {hands counter}

theorem mem_dealt_iff (hand : Nat) (items : List α) (item : α) :
    item ∈ dealt hands counter hand items ↔
      ∃ i, items[i]? = some item ∧ counter i % hands = hand := by
  simp only [dealt, List.mem_map, List.mem_filter, decide_eq_true_eq, Prod.exists,
    exists_and_right, exists_eq_right, List.mk_mem_zipIdx_iff_getElem?]

theorem exists_hand (positive : 0 < hands) (items : List α) (item : α) (member : item ∈ items) :
    ∃ hand < hands, item ∈ dealt hands counter hand items := by
  obtain ⟨i, found⟩ := List.mem_iff_getElem?.mp member
  exact ⟨_, Nat.mod_lt _ positive, (mem_dealt_iff _ _ _).mpr ⟨i, found, rfl⟩⟩

theorem flatMap_turn (item : α) (turn count : Nat) :
    ((List.range count).flatMap fun hand => if turn = hand then [item] else []) =
      if turn < count then [item] else [] := by
  induction count with
  | zero => rfl
  | succ count ih =>
    rw [List.range_succ, List.flatMap_append, ih, List.flatMap_singleton]
    by_cases before : turn < count
    · rw [if_pos before, if_neg (Nat.ne_of_lt before), if_pos (Nat.lt_succ_of_lt before)]
      rfl
    · rw [if_neg before, List.nil_append]
      exact if_congr (by omega) rfl rfl

theorem dealt_perm (positive : 0 < hands) (items : List α) :
    ((List.range hands).flatMap fun hand => dealt hands counter hand items).Perm items := by
  induction items using List.reverseRecOn with
  | nil => simp
  | append_singleton items item ih =>
    simp only [dealt_append]
    refine (List.flatMap_append_perm _ _ _).symm.trans ?_
    rw [flatMap_turn, if_pos (Nat.mod_lt _ positive)]
    exact ih.append_right [item]

theorem mem_of_mem_dealt (hand : Nat) (items : List α) (item : α)
    (member : item ∈ dealt hands counter hand items) : item ∈ items := by
  obtain ⟨i, found, _⟩ := (mem_dealt_iff _ _ _).mp member
  exact List.mem_of_getElem? found

theorem length_dealt (hand : Nat) (inside : hand < hands) (items : List α)
    (exact : ∀ i < items.length, counter i = i) :
    (dealt hands counter hand items).length = (items.length + hands - 1 - hand) / hands := by
  induction items using List.reverseRecOn with
  | nil =>
    have few : ([] : List α).length + hands - 1 - hand < hands := by
      rw [List.length_nil]
      omega
    exact (Nat.div_eq_of_lt few).symm
  | append_singleton items item ih =>
    have before := ih fun i small => exact i (by rw [List.length_append]; omega)
    have here := exact items.length (by simp)
    have step : (items.length + 1 + hands - 1 - hand) / hands =
        (items.length + hands - 1 - hand) / hands +
          if items.length % hands = hand then 1 else 0 := by
      have next : items.length + 1 + hands - 1 - hand = items.length + hands - 1 - hand + 1 := by
        omega
      have divides : hands ∣ items.length + hands - 1 - hand + 1 ↔ items.length % hands = hand := by
        have shifted : items.length + hands - 1 - hand + 1 = items.length + (hands - hand) := by
          omega
        have small := Nat.mod_lt items.length (Nat.lt_of_le_of_lt (Nat.zero_le hand) inside)
        rw [shifted, Nat.dvd_iff_mod_eq_zero, Nat.add_mod]
        by_cases first : hand = 0
        · subst first
          simp
        · rw [Nat.mod_eq_of_lt (show hands - hand < hands by omega)]
          by_cases below : items.length % hands + (hands - hand) < hands
          · rw [Nat.mod_eq_of_lt below]
            omega
          · rw [Nat.mod_eq_sub_mod (by omega), Nat.mod_eq_of_lt (by omega)]
            omega
      rw [next, Nat.succ_div]
      simp only [divides]
    rw [dealt_append, List.length_append, before, here, List.length_append, List.length_singleton,
      step]
    split <;> rfl

theorem getElem?_dealt (positive : 0 < hands) (bound : Nat)
    (exact : ∀ i < bound, counter i = i) (items : List α) (i : Nat) (small : i < bound)
    (item : α) (found : items[i]? = some item) :
    (dealt hands counter (i % hands) items)[i / hands]? = some item := by
  induction items using List.reverseRecOn with
  | nil => cases found
  | append_singleton items last ih =>
    rw [dealt_append]
    by_cases before : i < items.length
    · rw [List.getElem?_append_left before] at found
      have early := ih found
      rwa [List.getElem?_append_left (List.getElem?_eq_some_iff.mp early).1]
    · have inside := (List.getElem?_eq_some_iff.mp found).1
      rw [List.length_append, List.length_singleton] at inside
      obtain rfl : i = items.length := by omega
      obtain rfl : last = item := by simpa using found
      have count := length_dealt (items.length % hands) (Nat.mod_lt _ positive) items
        fun j less => exact j (by omega)
      have place : (items.length + hands - 1 - items.length % hands) / hands =
          items.length / hands := by
        have split := Nat.div_add_mod items.length hands
        have less := Nat.mod_lt items.length positive
        have same : items.length + hands - 1 - items.length % hands =
            hands - 1 + hands * (items.length / hands) := by omega
        rw [same, Nat.add_mul_div_left _ _ positive, Nat.div_eq_of_lt (by omega), Nat.zero_add]
      rw [if_pos (by rw [exact _ small]), ← place, ← count, List.getElem?_concat_length]

end RoundRobin
