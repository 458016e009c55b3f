import Mathlib.Algebra.Order.Field.Rat
import Mathlib.Tactic.Linarith
import Mathlib.Tactic.FieldSimp
import Mathlib.Tactic.NormNum
import OmegaDrive.Shared.Steps

set_option autoImplicit false

namespace OmegaDrive

/-! The token bucket of the lite tier, in exact arithmetic. Times count from the connection's
opening, in seconds. -/

structure TokenBucket where
  tokens : ℚ
  lastRefill : ℚ

namespace TokenBucket

def start : TokenBucket := { tokens := 2000, lastRefill := 0 }

def refilled (bucket : TokenBucket) (elapsed : ℚ) : ℚ := min (bucket.tokens + elapsed * 200000) 2000

def take (bucket : TokenBucket) (now : ℚ) : TokenBucket × ℚ :=
  let elapsed := now - bucket.lastRefill
  let tokens := bucket.refilled elapsed
  if tokens < 1 then ({ tokens := 0, lastRefill := now }, (1 - tokens) / 200000)
  else ({ tokens := tokens - 1, lastRefill := now }, 0)

-- A charge takes one token, and a sleep pays for what is missing of it.
theorem take_pays (bucket : TokenBucket) (now : ℚ) :
    ∃ after slept, bucket.take now = (after, slept) ∧ after.lastRefill = now ∧
      0 ≤ slept ∧ 0 ≤ after.tokens ∧
      after.tokens + 1 = bucket.refilled (now - bucket.lastRefill) + 200000 * slept := by
  rw [take]
  split
  next few =>
    refine ⟨_, _, rfl, rfl, ?_, le_refl _, ?_⟩
    · exact div_nonneg (by linarith) (by norm_num)
    · rw [mul_div_cancel₀ _ (by norm_num)]
      linarith
  next enough =>
    refine ⟨_, _, rfl, rfl, le_refl _, ?_, ?_⟩
    · exact sub_nonneg.mpr (not_lt.mp enough)
    · rw [mul_zero, add_zero, sub_add_cancel]

end TokenBucket

/-- A connection's charges, one for each command that is parsed (so once more at each read for an
MSET or MGET whose arguments are not complete): when each of them was let through, and what the
program does not record, the tokens credited for time that a sleep had already charged. -/
structure Throttle where
  bucket : TokenBucket
  clock : ℚ
  passes : List ℚ
  reused : ℚ

namespace Throttle

def start : Throttle := { bucket := .start, clock := 0, passes := [], reused := 0 }

/-- What the refill adds because it also counts the time from the last refill to the end of the
sleep. -/
def reuse (throttle : Throttle) (gap : ℚ) : ℚ :=
  throttle.bucket.refilled (throttle.clock + gap - throttle.bucket.lastRefill) -
    throttle.bucket.refilled gap

def step (throttle : Throttle) (gap : ℚ) : Throttle :=
  let now := throttle.clock + gap
  let (bucket, slept) := throttle.bucket.take now
  { bucket
    clock := now + slept
    passes := throttle.passes ++ [now + slept]
    reused := throttle.reused + throttle.reuse gap }

def passedBy (time : ℚ) (throttle : Throttle) : Nat :=
  throttle.passes.countP fun pass => decide (pass ≤ time)

/-- The tokens left and the charges let through are paid by the first 2000 tokens, the time, and
what was credited twice. -/
structure Paid (throttle : Throttle) : Prop where
  opened : 0 ≤ throttle.clock
  refill : throttle.bucket.lastRefill ≤ throttle.clock
  tokens : 0 ≤ throttle.bucket.tokens
  paid : throttle.passes.length + throttle.bucket.tokens ≤
    2000 + 200000 * throttle.clock + throttle.reused
  passed : ∀ pass ∈ throttle.passes, pass ≤ throttle.clock
  bound : ∀ time, 0 ≤ time → passedBy time throttle ≤ 2000 + 200000 * time + throttle.reused

theorem reuse_nonneg (throttle : Throttle) (gap : ℚ)
    (refill : throttle.bucket.lastRefill ≤ throttle.clock) : 0 ≤ throttle.reuse gap := by
  rw [reuse, sub_nonneg]
  exact min_le_min_right _ (by linarith)

theorem paid_start : Paid start := by
  refine ⟨le_refl _, le_refl _, by norm_num [start, TokenBucket.start],
    by norm_num [start, TokenBucket.start], by simp [start], fun time later => ?_⟩
  simp only [passedBy, start, List.countP_nil]
  push_cast
  linarith

theorem paid_step (throttle : Throttle) (gap : ℚ) (paid : Paid throttle) (forward : 0 ≤ gap) :
    Paid (throttle.step gap) := by
  obtain ⟨opened, refill, tokens, paid, passed, bound⟩ := paid
  obtain ⟨after, slept, taken, refilledAt, waits, left, cost⟩ :=
    throttle.bucket.take_pays (throttle.clock + gap)
  have stepped : throttle.step gap =
      { bucket := after
        clock := throttle.clock + gap + slept
        passes := throttle.passes ++ [throttle.clock + gap + slept]
        reused := throttle.reused + throttle.reuse gap } := by
    rw [step, taken]
  have again := reuse_nonneg throttle gap refill
  have fair : throttle.bucket.refilled gap ≤ throttle.bucket.tokens + gap * 200000 :=
    min_le_left _ _
  have credited : throttle.bucket.refilled (throttle.clock + gap - throttle.bucket.lastRefill) =
      throttle.bucket.refilled gap + throttle.reuse gap := by
    rw [reuse, add_sub_cancel]
  have count : ((throttle.passes ++ [throttle.clock + gap + slept]).length : ℚ) + after.tokens ≤
      2000 + 200000 * (throttle.clock + gap + slept) + (throttle.reused + throttle.reuse gap) := by
    rw [List.length_append, List.length_singleton]
    push_cast
    linarith
  rw [stepped]
  refine ⟨by linarith, by linarith, left, count, ?_, fun time later => ?_⟩
  · intro pass member
    rcases List.mem_append.mp member with old | new
    · have before := passed pass old
      linarith
    · rw [List.mem_singleton.mp new]
  · by_cases reached : throttle.clock + gap + slept ≤ time
    · have whole : ((throttle.passes ++ [throttle.clock + gap + slept]).countP
          fun pass => decide (pass ≤ time) : ℚ) ≤
            (throttle.passes ++ [throttle.clock + gap + slept]).length := by
        exact_mod_cast List.countP_le_length
      simp only [passedBy]
      linarith
    · have earlier := bound time later
      simp only [passedBy] at earlier
      simp only [passedBy, List.countP_append, List.countP_singleton, reached, decide_false]
      push_cast
      linarith

theorem paid_run (gaps : List ℚ) (forward : ∀ gap ∈ gaps, 0 ≤ gap) :
    Paid (Steps.run step start gaps) :=
  Steps.run_invariant (fun throttle gap paid later => paid_step throttle gap paid later) start gaps
    paid_start (Steps.along_of_forall start gaps forward)

-- At most one token in all has been credited for time that a sleep had charged.
def ChargesOnce (throttle : Throttle) (gap : ℚ) : Prop := throttle.reused + throttle.reuse gap ≤ 1

theorem reused_run (gaps : List ℚ) (along : Steps.Along step ChargesOnce start gaps) :
    (Steps.run step start gaps).reused ≤ 1 := by
  have kept : ∀ throttle gap, throttle.reused ≤ 1 → ChargesOnce throttle gap →
      (throttle.step gap).reused ≤ 1 := fun _ _ _ once => once
  have all := Steps.run_invariant kept start gaps zero_le_one along
  exact all

theorem passed_bound (gaps : List ℚ) (forward : ∀ gap ∈ gaps, 0 ≤ gap)
    (along : Steps.Along step ChargesOnce start gaps) (time : ℚ) (opened : 0 ≤ time) :
    (passedBy time (Steps.run step start gaps) : ℚ) ≤ 2000 + 200000 * time + 1 := by
  have bound := (paid_run gaps forward).bound time opened
  have once := reused_run gaps along
  linarith

theorem run_burst (n : Nat) (few : n ≤ 2000) :
    Steps.run step start (List.replicate n 0) =
      { bucket := { tokens := 2000 - n, lastRefill := 0 }
        clock := 0
        passes := List.replicate n 0
        reused := 0 } := by
  induction n with
  | zero => norm_num [Steps.run, start, TokenBucket.start]
  | succ n ih =>
    have room : (n : ℚ) + 1 ≤ 2000 := by exact_mod_cast few
    have enough : ¬ (2000 : ℚ) - n < 1 := by linarith
    rw [List.replicate_succ', Steps.run_append, ih (by omega)]
    simp [Steps.run, step, TokenBucket.take, TokenBucket.refilled, reuse, enough]
    linarith

theorem along_burst (n : Nat) (few : n ≤ 2000) :
    Steps.Along step ChargesOnce start (List.replicate n 0) := by
  induction n with
  | zero => trivial
  | succ n ih =>
    rw [List.replicate_succ', Steps.along_append, run_burst n (by omega)]
    refine ⟨ih (by omega), ?_, trivial⟩
    norm_num [ChargesOnce, reuse]

-- The first of two more sleeps, and the refill credits the second with the time.
theorem passed_bound_sleeping :
    (passedBy (1 / 200000) (Steps.run step start (List.replicate 2000 0 ++ [0, 0])) : ℚ) ≤
      2000 + 200000 * (1 / 200000) + 1 :=
  passed_bound (List.replicate 2000 0 ++ [0, 0])
    (fun gap member => by
      rcases List.mem_append.mp member with burst | more
      · rw [List.eq_of_mem_replicate burst]
      · simp only [List.mem_cons, List.not_mem_nil, or_false, or_self] at more
        rw [more])
    (by
      rw [Steps.along_append, run_burst 2000 (le_refl _)]
      refine ⟨along_burst 2000 (le_refl _), ?_⟩
      norm_num [Steps.Along, ChargesOnce, reuse, step, TokenBucket.take, TokenBucket.refilled])
    (1 / 200000) (by norm_num)

-- Two tokens short, then the second sleep's time is credited to the next two commands.
theorem run_late :
    (Steps.run step start (List.replicate 2000 0 ++ [0, 0, 0, 0])).passes =
      List.replicate 2000 0 ++ [1 / 200000, 1 / 200000, 1 / 100000, 1 / 100000] := by
  rw [Steps.run_append, run_burst 2000 (le_refl _)]
  norm_num [Steps.run, step, TokenBucket.take, TokenBucket.refilled]

-- 2004 commands back to back pass within ten microseconds, where the rate allows 2003.
theorem passed_early :
    ¬ (passedBy (1 / 100000)
        (Steps.run step start (List.replicate 2000 0 ++ [0, 0, 0, 0])) : ℚ) ≤
      2000 + 200000 * (1 / 100000) + 1 := by
  rw [passedBy, run_late, List.countP_append, List.countP_replicate]
  norm_num

end Throttle

end OmegaDrive
