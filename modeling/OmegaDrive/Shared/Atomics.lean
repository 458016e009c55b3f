import Mathlib.Algebra.BigOperators.Group.Finset.Basic
import Mathlib.Data.Nat.ModEq

set_option autoImplicit false

/-! Counters of `w` bits that wrap, running maxima that are taken back, and sums over tasks. -/

namespace Atomics

def fetchAdd (w value amount : Nat) : Nat := (value + amount) % 2 ^ w

def fetchSub (w value amount : Nat) : Nat := (2 ^ w - amount % 2 ^ w + value) % 2 ^ w

theorem fetchAdd_modEq (w value amount : Nat) :
    fetchAdd w value amount ≡ value + amount [MOD 2 ^ w] :=
  Nat.mod_modEq _ _

theorem fetchSub_modEq (w value amount : Nat) :
    fetchSub w value amount + amount ≡ value [MOD 2 ^ w] := by
  have below : amount % 2 ^ w ≤ 2 ^ w := (Nat.mod_lt _ (Nat.two_pow_pos w)).le
  have whole : 2 ^ w - amount % 2 ^ w + value + amount % 2 ^ w = value + 2 ^ w := by omega
  calc fetchSub w value amount + amount
      ≡ 2 ^ w - amount % 2 ^ w + value + amount % 2 ^ w [MOD 2 ^ w] :=
        (Nat.mod_modEq _ _).add (Nat.mod_modEq _ _).symm
    _ = value + 2 ^ w := whole
    _ ≡ value [MOD 2 ^ w] := Nat.add_modEq_right

section Maximum

variable {α : Type} [LinearOrder α]

-- `amount` is not above what a cell holds or was found to hold before.
def Covers (value : α) (taken : List α) (amount : α) : Prop :=
  amount ≤ value ∨ ∃ found ∈ taken, amount ≤ found

theorem Covers.raise {value higher : α} {taken : List α} {amount : α}
    (covers : Covers value taken amount) (raised : value ≤ higher) :
    Covers higher taken amount :=
  covers.imp_left fun below => below.trans raised

theorem Covers.take {value : α} {taken : List α} {amount : α} (covers : Covers value taken amount)
    (left : α) : Covers left (taken ++ [value]) amount := by
  right
  obtain below | ⟨found, member, below⟩ := covers
  · exact ⟨value, List.mem_append_right _ List.mem_cons_self, below⟩
  · exact ⟨found, List.mem_append_left _ member, below⟩

theorem Covers.trans {value : α} {taken : List α} {low high : α} (below : low ≤ high)
    (covers : Covers value taken high) : Covers value taken low :=
  covers.imp below.trans fun ⟨found, member, above⟩ => ⟨found, member, below.trans above⟩

end Maximum

section Tasks

variable {ι T M : Type} [Fintype ι] [DecidableEq ι] [AddCommMonoid M]

theorem sum_update (weight : T → M) (tasks : ι → T) (i : ι) (task : T) :
    ∑ j, weight (Function.update tasks i task j) + weight (tasks i) =
      ∑ j, weight (tasks j) + weight task := by
  have rest : ∑ j ∈ Finset.univ.erase i, weight (Function.update tasks i task j) =
      ∑ j ∈ Finset.univ.erase i, weight (tasks j) :=
    Finset.sum_congr rfl fun j other => by
      rw [Function.update_of_ne (Finset.ne_of_mem_erase other)]
  rw [← Finset.sum_erase_add _ _ (Finset.mem_univ i), rest, Function.update_self,
    ← Finset.sum_erase_add _ (fun j => weight (tasks j)) (Finset.mem_univ i)]
  exact add_right_comm _ _ _

end Tasks

end Atomics
