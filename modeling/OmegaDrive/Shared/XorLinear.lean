import Mathlib.Data.List.Iterate
import Mathlib.Data.Nat.Prime.Basic
import Mathlib.Dynamics.PeriodicPts.Defs

set_option autoImplicit false

namespace XorLinear

structure Keeps (width : Nat) (f : Nat → Nat) : Prop where
  xor : ∀ x y, f (x ^^^ y) = f x ^^^ f y
  inside : ∀ x < 2 ^ width, f x < 2 ^ width

def columns (width : Nat) (f : Nat → Nat) : List Nat := (List.range width).map fun i => f (2 ^ i)

/-- The exclusive or of the columns at the set bits of a word. -/
def combine : List Nat → Nat → Nat
  | [], _ => 0
  | column :: columns, word => (word % 2 * column) ^^^ combine columns (word / 2)

-- The words after `count` steps, by the squares of the columns.
def power : Nat → List Nat → Nat → List Nat → List Nat
  | 0, _, _, words => words
  | bits + 1, columns, count, words =>
    power bits (columns.map (combine columns)) (count / 2)
      (if count % 2 = 1 then words.map (combine columns) else words)

variable {width : Nat} {f g : Nat → Nat}

theorem map_zero (xor : ∀ x y, f (x ^^^ y) = f x ^^^ f y) : f 0 = 0 := by
  have twice := xor 0 0
  rwa [Nat.xor_self, Nat.xor_self] at twice

theorem iterate_zero (keeps : Keeps width f) (n : Nat) : f^[n] 0 = 0 :=
  Function.iterate_fixed (map_zero keeps.xor) n

theorem keeps_id : Keeps width id := ⟨fun _ _ => rfl, fun _ small => small⟩

theorem Keeps.comp (outer : Keeps width g) (inner : Keeps width f) : Keeps width (g ∘ f) where
  xor x y := by rw [Function.comp_apply, inner.xor, outer.xor]; rfl
  inside x small := outer.inside _ (inner.inside x small)

theorem Keeps.iterate (keeps : Keeps width f) (n : Nat) : Keeps width f^[n] := by
  induction n with
  | zero => exact keeps_id
  | succ n ih => exact ih.comp keeps

theorem Keeps.mixed (keeps : Keeps width f) : Keeps width fun x => x ^^^ f x where
  xor x y := by
    rw [keeps.xor]
    ac_rfl
  inside x small := Nat.xor_lt_two_pow small (keeps.inside x small)

theorem keeps_shiftLeft (width n : Nat) : Keeps width fun x => x <<< n % 2 ^ width where
  xor _ _ := by rw [Nat.shiftLeft_xor_distrib, Nat.xor_mod_two_pow]
  inside x _ := Nat.mod_lt _ (Nat.two_pow_pos width)

theorem keeps_shiftRight (width n : Nat) : Keeps width fun x => x >>> n where
  xor _ _ := Nat.shiftRight_xor_distrib
  inside x small := Nat.lt_of_le_of_lt (Nat.shiftRight_le x n) small

theorem columns_succ (width : Nat) (f : Nat → Nat) :
    columns (width + 1) f = f 1 :: columns width fun x => f (2 * x) := by
  rw [columns, List.range_succ_eq_map, List.map_cons, List.map_map, columns]
  congr 1
  apply List.map_congr_left
  intro i _
  rw [Function.comp_apply, Nat.succ_eq_add_one, Nat.pow_succ']

theorem split_low (x : Nat) : (x % 2) ^^^ (2 * (x / 2)) = x := by
  apply Nat.eq_of_testBit_eq
  intro i
  cases i with
  | zero => simp [Nat.testBit_zero]
  | succ i => simp [Nat.testBit_add_one, Nat.xor_div_two]

theorem double_xor (x y : Nat) : 2 * (x ^^^ y) = (2 * x) ^^^ (2 * y) := by
  have shifted := Nat.shiftLeft_xor_distrib (i := 1) (a := x) (b := y)
  simpa only [Nat.shiftLeft_eq, Nat.pow_one, Nat.mul_comm _ 2] using shifted

theorem combine_columns (xor : ∀ x y, f (x ^^^ y) = f x ^^^ f y) (x : Nat) (small : x < 2 ^ width) :
    combine (columns width f) x = f x := by
  induction width generalizing f x with
  | zero =>
    obtain rfl : x = 0 := by simpa using small
    exact (map_zero xor).symm
  | succ width ih =>
    have half : x / 2 < 2 ^ width := by
      rw [Nat.pow_succ] at small
      omega
    have doubled : ∀ x y, f (2 * (x ^^^ y)) = f (2 * x) ^^^ f (2 * y) := by
      intro x y
      rw [double_xor, xor]
    rw [columns_succ, combine, ih doubled _ half]
    conv_rhs => rw [← split_low x, xor]
    congr 1
    obtain even | odd := Nat.mod_two_eq_zero_or_one x
    · rw [even, Nat.zero_mul, map_zero xor]
    · rw [odd, Nat.one_mul]

theorem map_combine (keeps : Keeps width f) (words : List Nat)
    (small : ∀ word ∈ words, word < 2 ^ width) :
    words.map (combine (columns width f)) = words.map f :=
  List.map_congr_left fun word member => combine_columns keeps.xor word (small word member)

theorem columns_small (keeps : Keeps width f) : ∀ column ∈ columns width f, column < 2 ^ width := by
  intro column member
  obtain ⟨i, inside, rfl⟩ := List.mem_map.mp member
  exact keeps.inside _ (Nat.pow_lt_pow_right (by decide) (List.mem_range.mp inside))

theorem columns_square (keeps : Keeps width f) :
    (columns width f).map (combine (columns width f)) = columns width (f ∘ f) := by
  rw [map_combine keeps _ (columns_small keeps), columns, List.map_map]
  rfl

theorem power_eq (keeps : Keeps width f) (bits count : Nat) (words : List Nat)
    (few : count < 2 ^ bits) (small : ∀ word ∈ words, word < 2 ^ width) :
    power bits (columns width f) count words = words.map f^[count] := by
  induction bits generalizing f count words with
  | zero =>
    obtain rfl : count = 0 := by simpa using few
    exact (List.map_id words).symm
  | succ bits ih =>
    have half : count / 2 < 2 ^ bits := by
      rw [Nat.pow_succ] at few
      omega
    have squared : (f ∘ f)^[count / 2] = f^[2 * (count / 2)] := by
      rw [Function.iterate_mul]
      rfl
    rw [power, columns_square keeps, map_combine keeps words small]
    split
    next odd =>
      have moved : ∀ word ∈ words.map f, word < 2 ^ width := by
        intro word member
        obtain ⟨before, there, rfl⟩ := List.mem_map.mp member
        exact keeps.inside _ (small before there)
      rw [ih (keeps.comp keeps) _ _ half moved, squared, List.map_map, ← Function.iterate_succ]
      congr 2
      omega
    next even =>
      rw [ih (keeps.comp keeps) _ _ half small, squared]
      congr 2
      omega

def units (width : Nat) : List Nat := columns width id

theorem power_units (keeps : Keeps width f) (bits count : Nat) (few : count < 2 ^ bits) :
    power bits (columns width f) count (units width) = columns width f^[count] := by
  rw [units, power_eq keeps bits count _ few (columns_small keeps_id), columns, List.map_map]
  rfl

theorem eq_of_columns (left : Keeps width f) (right : Keeps width g)
    (same : columns width f = columns width g) (x : Nat) (small : x < 2 ^ width) : f x = g x := by
  rw [← combine_columns left.xor x small, same, combine_columns right.xor x small]

theorem iterate_id (keeps : Keeps width f) (bits count : Nat) (few : count < 2 ^ bits)
    (same : power bits (columns width f) count (units width) = units width) (x : Nat)
    (small : x < 2 ^ width) : f^[count] x = x := by
  rw [power_units keeps bits count few] at same
  exact eq_of_columns (keeps.iterate count) keeps_id same x small

theorem iterate_xor (keeps : Keeps width f) (bits count other : Nat) (few : count < 2 ^ bits)
    (fewer : other < 2 ^ bits)
    (same : power bits (columns width f) count (units width) =
      List.zipWith (· ^^^ ·) (units width) (power bits (columns width f) other (units width)))
    (x : Nat) (small : x < 2 ^ width) : f^[count] x = x ^^^ f^[other] x := by
  rw [power_units keeps bits count few, power_units keeps bits other fewer, units, columns, columns,
    columns, List.zipWith_map, List.zipWith_self] at same
  exact eq_of_columns (keeps.iterate count) (keeps.iterate other).mixed same x small

theorem minimalPeriod_eq {α : Type} {next : α → α} {x : α} {n : Nat}
    (returns : Function.IsPeriodicPt next n x)
    (never : ∀ p, p.Prime → p ∣ n → ¬ Function.IsPeriodicPt next (n / p) x) :
    Function.minimalPeriod next x = n := by
  obtain ⟨rest, split⟩ := returns.minimalPeriod_dvd
  by_contra other
  have more : rest ≠ 1 := by
    rintro rfl
    exact other (by rw [Nat.mul_one] at split; exact split.symm)
  obtain ⟨less, factor⟩ := Nat.minFac_dvd rest
  apply never rest.minFac (Nat.minFac_prime more) ⟨Function.minimalPeriod next x * less, by
    rw [split, Nat.mul_left_comm, ← factor]⟩
  have quotient : n / rest.minFac = Function.minimalPeriod next x * less := by
    apply Nat.div_eq_of_eq_mul_right (Nat.minFac_pos rest)
    rw [Nat.mul_left_comm, ← factor, split]
  rw [quotient]
  exact (Function.isPeriodicPt_minimalPeriod next x).mul_const less

theorem iterate_ne_zero (keeps : Keeps width f) {n : Nat} (positive : 0 < n)
    (returns : ∀ x < 2 ^ width, f^[n] x = x) (x : Nat) (small : x < 2 ^ width) (nonzero : x ≠ 0)
    (i : Nat) : f^[i] x ≠ 0 := by
  intro vanishes
  have cycles : f^[n * i] x = x := Function.IsPeriodicPt.mul_const (returns x small) i
  have room : n * i = (n * i - i) + i := by
    have := Nat.le_mul_of_pos_left i positive
    omega
  rw [room, Function.iterate_add_apply, vanishes, iterate_zero keeps] at cycles
  exact nonzero cycles.symm

-- Where two iterates differ by the identity, the first of them moves every word but zero.
theorem moves (keeps : Keeps width f) {n count other : Nat} (positive : 0 < n)
    (returns : ∀ x < 2 ^ width, f^[n] x = x)
    (differ : ∀ x < 2 ^ width, f^[count] x = x ^^^ f^[other] x) (x : Nat) (small : x < 2 ^ width)
    (nonzero : x ≠ 0) : f^[count] x ≠ x := by
  intro fixed
  apply iterate_ne_zero keeps positive returns x small nonzero other
  have both := differ x small
  rw [fixed] at both
  rw [← Nat.zero_xor (f^[other] x), ← Nat.xor_self x, Nat.xor_assoc, ← both, Nat.xor_self]

theorem orbit_perm (keeps : Keeps width f) (x : Nat) (small : x < 2 ^ width) (nonzero : x ≠ 0)
    (returns : ∀ x < 2 ^ width, f^[2 ^ width - 1] x = x)
    (period : Function.minimalPeriod f x = 2 ^ width - 1) :
    (List.iterate f x (2 ^ width - 1)).Perm (List.range' 1 (2 ^ width - 1)) := by
  have positive : 0 < 2 ^ width - 1 := by omega
  have distinct : (List.iterate f x (2 ^ width - 1)).Nodup := by
    rw [← List.range_map_iterate]
    apply List.Nodup.map_on _ List.nodup_range
    intro i first j second same
    rw [List.mem_range, ← period] at first second
    exact Function.iterate_injOn_Iio_minimalPeriod first second same
  have within : List.iterate f x (2 ^ width - 1) ⊆ List.range' 1 (2 ^ width - 1) := by
    intro word member
    obtain ⟨i, _, rfl⟩ := List.mem_iterate.mp member
    have bound := (keeps.iterate i).inside x small
    have live := iterate_ne_zero keeps positive returns x small nonzero i
    rw [List.mem_range'_1]
    omega
  apply (distinct.subperm within).perm_of_length_le
  rw [List.length_iterate, List.length_range']

end XorLinear
