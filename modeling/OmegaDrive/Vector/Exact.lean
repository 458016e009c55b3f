import Mathlib.Algebra.BigOperators.Intervals
import Mathlib.Data.Rat.Floor
import Mathlib.Tactic.Linarith
import OmegaDrive.Vector.Rerank

set_option autoImplicit false

namespace OmegaDrive

open Finset

/-! The float operations in exact arithmetic, with the conversion to `i32` as the code has it. -/

-- `as i32` drops the fraction, toward zero.
def truncate (q : ℚ) : ℤ := q.num.tdiv q.den

def saturate (n : ℤ) : ℤ := max (-2 ^ 31) (min n (2 ^ 31 - 1))

instance : FloatArith ℚ where
  zero := 0
  isNonneg q := decide (0 ≤ q)
  add := (· + ·)
  mul := (· * ·)
  div := (· / ·)
  ofInt n := n
  toI32 q := saturate (truncate q)

theorem truncate_of_nonneg (q : ℚ) (nonneg : 0 ≤ q) : truncate q = ⌊q⌋ := by
  rw [truncate, Rat.floor_def']
  exact Int.tdiv_eq_ediv_of_nonneg (Rat.num_nonneg.mpr nonneg)

theorem truncate_neg (q : ℚ) : truncate (-q) = -truncate q := by
  rw [truncate, truncate, Rat.neg_num, Rat.neg_den, Int.neg_tdiv]

theorem truncate_near (q : ℚ) : q - 1 < truncate q ∧ (truncate q : ℚ) < q + 1 := by
  rcases le_total 0 q with nonneg | nonpos
  · rw [truncate_of_nonneg q nonneg]
    exact ⟨Int.sub_one_lt_floor q, lt_of_le_of_lt (Int.floor_le q) (lt_add_one q)⟩
  · have above := Int.floor_le (-q)
    have below := Int.sub_one_lt_floor (-q)
    have same := truncate_neg (-q)
    rw [neg_neg, truncate_of_nonneg (-q) (by linarith)] at same
    rw [same]
    push_cast
    constructor <;> linarith

theorem truncate_lt (n : ℤ) (positive : 0 < n) (q : ℚ) : truncate q < n ↔ q < n := by
  by_cases nonneg : 0 ≤ q
  · rw [truncate_of_nonneg q nonneg, Int.floor_lt]
  · have one : (1 : ℚ) ≤ n := by exact_mod_cast positive
    have small : (truncate q : ℚ) < n := by linarith [(truncate_near q).2]
    exact iff_of_true (by exact_mod_cast small) (by linarith)

theorem lt_truncate (n : ℤ) (positive : 0 < n) (q : ℚ) : -n < truncate q ↔ -n < q := by
  have mirrored := truncate_lt n positive (-q)
  rw [truncate_neg] at mirrored
  constructor
  · intro above
    linarith [mirrored.mp (by omega)]
  · intro above
    linarith [mirrored.mpr (by linarith)]

theorem foldl_sum (n : Nat) (term : Nat → ℚ) :
    (List.range n).foldl (fun sum i => sum + term i) 0 = ∑ i ∈ range n, term i := by
  induction n with
  | zero => rfl
  | succ n ih =>
    rw [List.range_succ, List.foldl_append, List.foldl_cons, List.foldl_nil, ih, sum_range_succ]

-- Eight interleaved sums are the sum over the whole chunks.
theorem sum_chunks (n : Nat) (term : Nat → ℚ) :
    ∑ j ∈ range 8, ∑ i ∈ range n, term (i * 8 + j) = ∑ c ∈ range (n * 8), term c := by
  induction n with
  | zero => simp
  | succ n ih =>
    rw [Nat.succ_mul, sum_range_add, ← ih, ← sum_add_distrib]
    exact sum_congr rfl fun j _ => sum_range_succ _ n

namespace SharedVectorStore

theorem toFixed_eq (score : ℚ) : toFixed score = saturate (truncate (score * 10000000)) := by
  have factor : (FloatArith.ofInt 10000000 : ℚ) = 10000000 := by
    change ((10000000 : ℤ) : ℚ) = 10000000
    norm_num
  rw [toFixed, factor]
  rfl

theorem toFixed_lt_iff (low high : ℚ) (gap : low + 2 / 10000000 ≤ high) :
    toFixed low < toFixed high ↔ low * 10000000 < 2147483647 ∧ -2147483648 < high * 10000000 := by
  have apart : truncate (low * 10000000) < truncate (high * 10000000) := by
    have below := (truncate_near (low * 10000000)).2
    have above := (truncate_near (high * 10000000)).1
    have cast : (truncate (low * 10000000) : ℚ) < truncate (high * 10000000) := by linarith
    exact_mod_cast cast
  have top := truncate_lt 2147483647 (by norm_num) (low * 10000000)
  have bottom := lt_truncate 2147483648 (by norm_num) (high * 10000000)
  push_cast at top bottom
  rw [← top, ← bottom, toFixed_eq, toFixed_eq]
  unfold saturate
  omega

theorem toFixed_lowest (score : ℚ) : -2147483648 < toFixed score ↔ -2147483648 < score * 10000000 := by
  have bottom := lt_truncate 2147483648 (by norm_num) (score * 10000000)
  push_cast at bottom
  rw [← bottom, toFixed_eq]
  unfold saturate
  omega

theorem toFixed_highest (score : ℚ) :
    toFixed score < 2147483647 ↔ score * 10000000 < 2147483647 := by
  have top := truncate_lt 2147483647 (by norm_num) (score * 10000000)
  push_cast at top
  rw [← top, toFixed_eq]
  unfold saturate
  omega

theorem toFixed_range (score : ℚ) : -2147483648 ≤ toFixed score ∧ toFixed score ≤ 2147483647 := by
  rw [toFixed_eq]
  unfold saturate
  omega

theorem toFixed_ofFixed (n : ℤ) (least : -2147483648 ≤ n) (greatest : n ≤ 2147483647) :
    toFixed (ofFixed n : ℚ) = n := by
  have back : (ofFixed n : ℚ) * 10000000 = n := by
    change (n : ℚ) / ((10000000 : ℤ) : ℚ) * 10000000 = n
    norm_num
  rw [toFixed_eq, back, truncate, Rat.num_intCast, Rat.den_intCast, Nat.cast_one, Int.tdiv_one]
  unfold saturate
  omega

def product (query row : List ℚ) (c : Nat) : ℚ := query.getD c 0 * row.getD c 0

theorem dotProduct_eq (query row : List ℚ) :
    dotProduct query row =
      ∑ c ∈ range (min (query.length / 8) (row.length / 8) * 8), product query row c := by
  have partialSum (j : Nat) : (List.range (min (query.length / 8) (row.length / 8))).foldl
      (fun sum chunk => FloatArith.add sum
        (FloatArith.mul (query.getD (chunk * 8 + j) FloatArith.zero)
          (row.getD (chunk * 8 + j) FloatArith.zero))) FloatArith.zero =
      ∑ i ∈ range (min (query.length / 8) (row.length / 8)), product query row (i * 8 + j) :=
    foldl_sum _ fun chunk => product query row (chunk * 8 + j)
  simp only [dotProduct, partialSum]
  rw [← sum_chunks, List.foldl_map]
  exact foldl_sum 8 _

theorem dotProduct_full_iff (query row : List ℚ) (whole : 8 ∣ row.length) :
    dotProduct query row = ∑ c ∈ range (min query.length row.length), product query row c ↔
      ∑ c ∈ Ico (query.length / 8 * 8) (min query.length row.length), product query row c = 0 := by
  have used : min (query.length / 8) (row.length / 8) * 8 =
      min (query.length / 8 * 8) (min query.length row.length) := by omega
  rw [dotProduct_eq, used]
  by_cases short : query.length / 8 * 8 ≤ min query.length row.length
  · rw [Nat.min_eq_left short, ← sum_range_add_sum_Ico _ short, left_eq_add]
  · have nothing : Ico (query.length / 8 * 8) (min query.length row.length) = ∅ :=
      Ico_eq_empty_of_le (Nat.le_of_not_le short)
    rw [Nat.min_eq_right (Nat.le_of_not_le short), nothing, sum_empty]
    simp

theorem length_sliceAt {α : Type} (data : List α) (start len : Nat) (part : List α)
    (sliced : sliceAt data start len = some part) : part.length = len := by
  unfold sliceAt at sliced
  split at sliced
  next enough =>
    obtain rfl := Option.some.inj sliced
    rw [List.length_take, List.length_drop]
    omega
  next => cases sliced

theorem score_full_iff (numShards dim : Nat) (aligned : dim % 64 = 0) (ops : List (StoreOp ℚ))
    (query : List ℚ) :
    let store := (empty numShards dim).run ops
    ∀ shard ∈ store.shards, ∀ i < shard.keys.length, ∃ candidate,
      sliceAt shard.floatData (i * store.dim) store.dim = some candidate ∧
        (dotProduct query candidate =
            ∑ c ∈ range (min query.length dim), product query candidate c ↔
          ∑ c ∈ Ico (query.length / 8 * 8) (min query.length dim),
            product query candidate c = 0) := by
  intro store shard member i inside
  have laid := (wellFormed_runEmpty numShards dim aligned ops).shards shard member
  have placed := placed_run (F := ℚ) numShards dim ops
  have sliced := sliceAt_floatRow laid i inside
  have length : (floatRow store.dim shard i).length = dim :=
    (length_sliceAt _ _ _ _ sliced).trans placed.dim_eq
  have whole : 8 ∣ (floatRow store.dim shard i).length := by omega
  have full := dotProduct_full_iff query (floatRow store.dim shard i) whole
  rw [length] at full
  exact ⟨_, sliced, full⟩

def oneVector : SharedVectorStore ℚ :=
  (empty 4 64).run [.add (AirKey.fromBytes (ascii "k")) [1] [1]]

theorem oneVector_first : ∃ shard ∈ oneVector.shards, 0 < shard.keys.length ∧
    floatRow 64 shard 0 = padFloats 64 [1] := by
  have placed := placed_run (F := ℚ) 4 64 [.add (AirKey.fromBytes (ascii "k")) [1] [1]]
  obtain ⟨shard, present, key, _, floats⟩ :=
    placed.vector (by decide) 0 (by decide) ⟨AirKey.fromBytes (ascii "k"), [1], [1]⟩ rfl
  exact ⟨shard, List.mem_of_getElem? present, (List.getElem?_eq_some_iff.mp key).1, floats⟩

theorem score_full_iff_whole : ∃ shard ∈ oneVector.shards, ∃ candidate,
    sliceAt shard.floatData (0 * 64) 64 = some candidate ∧
      dotProduct (List.replicate 8 1) candidate =
        ∑ c ∈ range 8, product (List.replicate 8 1) candidate c := by
  obtain ⟨shard, member, inside, _⟩ := oneVector_first
  obtain ⟨candidate, sliced, full⟩ := score_full_iff 4 64 rfl
    [.add (AirKey.fromBytes (ascii "k")) [1] [1]] (List.replicate 8 1) shard member 0 inside
  exact ⟨shard, member, candidate, sliced, full.mpr rfl⟩

-- The query [1] has no whole chunk: the score of the vector [1] is 0 and not 1.
theorem score_short_query : ¬∀ (numShards dim : Nat) (ops : List (StoreOp ℚ)) (query : List ℚ),
    dim % 64 = 0 → ∀ shard ∈ ((empty numShards dim).run ops).shards, ∀ i < shard.keys.length,
      ∀ candidate, sliceAt shard.floatData (i * dim) dim = some candidate →
        dotProduct query candidate =
          ∑ c ∈ range (min query.length dim), product query candidate c := by
  intro full
  obtain ⟨shard, member, inside, floats⟩ := oneVector_first
  have laid := (wellFormed_runEmpty 4 64 rfl _).shards shard member
  have sliced := sliceAt_floatRow laid 0 inside
  rw [dim_run] at sliced
  have score := full 4 64 _ [1] rfl shard member 0 inside (floatRow 64 shard 0) sliced
  have padded : floatRow 64 shard 0 = 1 :: List.replicate 63 0 := floats
  have nothing : dotProduct [1] (floatRow 64 shard 0) = 0 := by
    rw [dotProduct_eq]
    rfl
  have one : min [(1 : ℚ)].length 64 = 1 := rfl
  rw [nothing, padded, one, sum_range_one] at score
  simp [product] at score

end SharedVectorStore

end OmegaDrive
