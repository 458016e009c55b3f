import Mathlib.Data.List.Induction
import OmegaDrive.Connection.TokenBucket

set_option autoImplicit false

namespace OmegaDrive

namespace Throttle

/-- The times of the charges, when none of them has to wait for another. -/
def arrivals (gaps : List ℚ) : List ℚ :=
  Steps.outputs (· + ·) (fun time gap => [time + gap]) 0 gaps

def closing (gaps : List ℚ) : ℚ := Steps.run (· + ·) 0 gaps

def Conforms (times : List ℚ) : Prop :=
  ∀ (i j : Nat) (first last : ℚ), i ≤ j → times[i]? = some first → times[j]? = some last →
    ((j - i : Nat) : ℚ) + 1 ≤ 2000 + 200000 * (last - first)

-- The stretches that end now.
def Fits (times : List ℚ) (now cost : ℚ) : Prop :=
  ∀ (i : Nat) (first : ℚ), times[i]? = some first →
    ((times.length - i : Nat) : ℚ) + cost ≤ 2000 + 200000 * (now - first)

theorem arrivals_concat (gaps : List ℚ) (gap : ℚ) :
    arrivals (gaps ++ [gap]) = arrivals gaps ++ [closing gaps + gap] :=
  Steps.outputs_append _ _ _ _

theorem closing_concat (gaps : List ℚ) (gap : ℚ) : closing (gaps ++ [gap]) = closing gaps + gap :=
  Steps.run_append _ _ _

theorem conforms_concat (times : List ℚ) (now : ℚ) :
    Conforms (times ++ [now]) ↔ Conforms times ∧ Fits times now 1 := by
  constructor
  · intro whole
    refine ⟨fun i j first last before firstAt lastAt => ?_, fun i first firstAt => ?_⟩
    · refine whole i j first last before ?_ ?_
      · rwa [List.getElem?_append_left (List.getElem?_eq_some_iff.mp firstAt).1]
      · rwa [List.getElem?_append_left (List.getElem?_eq_some_iff.mp lastAt).1]
    · have inside := (List.getElem?_eq_some_iff.mp firstAt).1
      refine whole i times.length first now (Nat.le_of_lt inside) ?_ List.getElem?_concat_length
      rwa [List.getElem?_append_left inside]
  · rintro ⟨before, ending⟩ i j first last ordered firstAt lastAt
    have reach := (List.getElem?_eq_some_iff.mp lastAt).1
    rw [List.length_append, List.length_singleton] at reach
    by_cases earlier : j < times.length
    · rw [List.getElem?_append_left (by omega)] at firstAt
      rw [List.getElem?_append_left earlier] at lastAt
      exact before i j first last ordered firstAt lastAt
    · obtain rfl : j = times.length := by omega
      obtain rfl : now = last := by simpa using lastAt
      by_cases inside : i < times.length
      · rw [List.getElem?_append_left inside] at firstAt
        exact ending i first firstAt
      · -- A single command fits into any bucket.
        obtain rfl : i = times.length := by omega
        obtain rfl : now = first := by simpa using firstAt
        norm_num

structure Undelayed (throttle : Throttle) (times : List ℚ) (now : ℚ) : Prop where
  passes : throttle.passes = times
  clock : throttle.clock = now
  refill : throttle.bucket.lastRefill = now
  tokens : ∀ cost, cost ≤ throttle.bucket.tokens ↔ cost ≤ 2000 ∧ Fits times now cost

theorem undelayed_start : Undelayed start [] 0 := by
  refine ⟨rfl, rfl, rfl, fun cost => ?_⟩
  have nothing : Fits [] 0 cost := fun _ _ found => by simp at found
  exact (and_iff_left nothing).symm

section Step

variable {throttle : Throttle} {times : List ℚ} {now : ℚ}
  (undelayed : Undelayed throttle times now) (gap : ℚ) (forward : 0 ≤ gap)

include undelayed forward

theorem refilled_iff (cost : ℚ) :
    cost ≤ throttle.bucket.refilled (now + gap - now) ↔ cost ≤ 2000 ∧ Fits times (now + gap) cost := by
  have tokens := undelayed.tokens (cost - gap * 200000)
  have later : Fits times now (cost - gap * 200000) ↔ Fits times (now + gap) cost := by
    refine forall₃_congr fun i first _ => ?_
    constructor <;> intro bound <;> linarith
  rw [later] at tokens
  rw [add_sub_cancel_left, TokenBucket.refilled, le_min_iff, ← sub_le_iff_le_add, tokens]
  constructor
  · rintro ⟨⟨_, fits⟩, few⟩
    exact ⟨few, fits⟩
  · rintro ⟨few, fits⟩
    exact ⟨⟨by linarith, fits⟩, few⟩

theorem step_passes : ∃ slept, (throttle.step gap).passes = times ++ [now + gap + slept] ∧
    (slept = 0 → Fits times (now + gap) 1) := by
  have enough := refilled_iff undelayed gap forward 1
  refine ⟨(throttle.bucket.take (now + gap)).2, ?_, fun rested => ?_⟩
  · rw [step, undelayed.clock, undelayed.passes]
  · by_cases few : throttle.bucket.refilled (now + gap - now) < 1
    · have wait : 0 < (1 - throttle.bucket.refilled (now + gap - now)) / 200000 :=
        div_pos (sub_pos.mpr few) (by norm_num)
      rw [TokenBucket.take, undelayed.refill, if_pos few] at rested
      exact absurd rested (ne_of_gt wait)
    · exact (enough.mp (not_lt.mp few)).2

omit undelayed forward in
theorem fits_concat (time cost : ℚ) :
    Fits (times ++ [time]) time cost ↔ cost + 1 ≤ 2000 ∧ Fits times time (cost + 1) := by
  have longer (i : Nat) (inside : i < times.length) :
      (((times ++ [time]).length - i : Nat) : ℚ) = ((times.length - i : Nat) : ℚ) + 1 := by
    rw [List.length_append, List.length_singleton, Nat.sub_add_comm (Nat.le_of_lt inside)]
    push_cast
    rfl
  constructor
  · intro all
    refine ⟨?_, fun i first found => ?_⟩
    · have last := all times.length time List.getElem?_concat_length
      rw [List.length_append, List.length_singleton, Nat.add_sub_cancel_left] at last
      push_cast at last
      linarith
    · have inside := (List.getElem?_eq_some_iff.mp found).1
      have bound := all i first (by rwa [List.getElem?_append_left inside])
      rw [longer i inside] at bound
      linarith
  · rintro ⟨few, all⟩ i first found
    have reach := (List.getElem?_eq_some_iff.mp found).1
    rw [List.length_append, List.length_singleton] at reach
    by_cases inside : i < times.length
    · rw [List.getElem?_append_left inside] at found
      have bound := all i first found
      rw [longer i inside]
      linarith
    · obtain rfl : i = times.length := by omega
      obtain rfl : time = first := by simpa using found
      rw [List.length_append, List.length_singleton, Nat.add_sub_cancel_left]
      push_cast
      linarith

theorem undelayed_step (fits : Fits times (now + gap) 1) :
    Undelayed (throttle.step gap) (times ++ [now + gap]) (now + gap) := by
  have enough : 1 ≤ throttle.bucket.refilled (now + gap - now) :=
    (refilled_iff undelayed gap forward 1).mpr ⟨by norm_num, fits⟩
  have taken : throttle.bucket.take (now + gap) =
      (⟨throttle.bucket.refilled (now + gap - now) - 1, now + gap⟩, 0) := by
    rw [TokenBucket.take, undelayed.refill, if_neg (not_lt.mpr enough)]
  have stepped : throttle.step gap =
      { bucket := ⟨throttle.bucket.refilled (now + gap - now) - 1, now + gap⟩
        clock := now + gap + 0
        passes := times ++ [now + gap + 0]
        reused := throttle.reused + throttle.reuse gap } := by
    rw [step, undelayed.clock, undelayed.passes, taken]
  rw [stepped, add_zero]
  refine ⟨rfl, rfl, rfl, fun cost => ?_⟩
  rw [fits_concat, le_sub_iff_add_le, refilled_iff undelayed gap forward]
  constructor
  · rintro ⟨few, both⟩
    exact ⟨by linarith, few, both⟩
  · rintro ⟨_, few, both⟩
    exact ⟨few, both⟩

end Step

theorem undelayed_run (gaps : List ℚ) (forward : ∀ gap ∈ gaps, 0 ≤ gap)
    (conforms : Conforms (arrivals gaps)) :
    Undelayed (Steps.run step start gaps) (arrivals gaps) (closing gaps) := by
  induction gaps using List.reverseRecOn with
  | nil => exact undelayed_start
  | append_singleton gaps gap ih =>
    rw [arrivals_concat, conforms_concat] at conforms
    have before := ih (fun other member => forward other (List.mem_append_left _ member)) conforms.1
    rw [Steps.run_append, arrivals_concat, closing_concat]
    exact undelayed_step before gap (forward gap (by simp)) conforms.2

theorem untouched_iff (gaps : List ℚ) (forward : ∀ gap ∈ gaps, 0 ≤ gap) :
    (Steps.run step start gaps).passes = arrivals gaps ↔ Conforms (arrivals gaps) := by
  refine ⟨fun untouched => ?_, fun conforms => (undelayed_run gaps forward conforms).passes⟩
  induction gaps using List.reverseRecOn with
  | nil => exact fun i j first last _ found => by simp [arrivals, Steps.outputs] at found
  | append_singleton gaps gap ih =>
    have earlier : ∀ other ∈ gaps, 0 ≤ other :=
      fun other member => forward other (List.mem_append_left _ member)
    have appended (throttle : Throttle) :
        (throttle.step gap).passes = throttle.passes ++
          [throttle.clock + gap + (throttle.bucket.take (throttle.clock + gap)).2] := rfl
    rw [Steps.run_append, arrivals_concat] at untouched
    have same := List.append_inj_left' ((appended _).symm.trans untouched) rfl
    have conforms := ih earlier same
    have before := undelayed_run gaps earlier conforms
    obtain ⟨slept, passed, fits⟩ := step_passes before gap (forward gap (by simp))
    have last := List.append_cancel_left (passed.symm.trans untouched)
    rw [arrivals_concat, conforms_concat]
    refine ⟨conforms, fits ?_⟩
    simpa using last

theorem arrivals_burst (n : Nat) : arrivals (List.replicate n 0) = List.replicate n 0 ∧
    closing (List.replicate n 0) = 0 := by
  induction n with
  | zero => exact ⟨rfl, rfl⟩
  | succ n ih =>
    obtain ⟨times, last⟩ := ih
    rw [List.replicate_succ', arrivals_concat, closing_concat, times, last, add_zero]
    exact ⟨rfl, rfl⟩

-- A full bucket at once, and one more as soon as there is a token again.
theorem untouched_full : Conforms (arrivals (List.replicate 2000 0 ++ [1 / 200000])) :=
  (untouched_iff (List.replicate 2000 0 ++ [1 / 200000]) (fun gap member => by
    rcases List.mem_append.mp member with burst | last
    · rw [List.eq_of_mem_replicate burst]
    · rw [List.mem_singleton.mp last]
      norm_num)).mp (by
    rw [Steps.run_append, run_burst 2000 (le_refl _), arrivals_concat, (arrivals_burst 2000).1,
      (arrivals_burst 2000).2]
    norm_num [Steps.run, step, TokenBucket.take, TokenBucket.refilled])

end Throttle

end OmegaDrive
