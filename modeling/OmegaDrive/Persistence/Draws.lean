import Mathlib.Data.Bool.Count
import Mathlib.Tactic.NormNum.Prime
import OmegaDrive.Persistence.Agent
import OmegaDrive.Shared.XorLinear

set_option autoImplicit false

namespace OmegaDrive

namespace NeuralPersistenceAgent

/-- The shifts of the generator, on a number. -/
def mix (x : Nat) : Nat :=
  let x := x ^^^ (x <<< 13 % 2 ^ 32)
  let x := x ^^^ x >>> 17
  x ^^^ (x <<< 5 % 2 ^ 32)

theorem toNat_xorshift32 (u : UInt32) (nonzero : u ≠ 0) : (xorshift32 u).toNat = mix u.toNat := by
  simp only [xorshift32, if_neg nonzero, mix, UInt32.toNat_xor, UInt32.toNat_shiftLeft,
    UInt32.toNat_shiftRight]
  rfl

theorem xorshift32_zero : xorshift32 0 = xorshift32 1 := rfl

theorem keeps_mix : XorLinear.Keeps 32 mix :=
  (XorLinear.keeps_shiftLeft 32 5).mixed.comp
    ((XorLinear.keeps_shiftRight 32 17).mixed.comp (XorLinear.keeps_shiftLeft 32 13).mixed)

theorem mix_returns (x : Nat) (small : x < 2 ^ 32) : mix^[2 ^ 32 - 1] x = x :=
  XorLinear.iterate_id keeps_mix 32 _ (by decide) (by decide +kernel) x small

-- The iterate that a word's iterate differs by from the word, for each prime of the period.
def zech : List (Nat × Nat) :=
  [(3, 2863311530), (5, 1145324612), (17, 3991793133), (257, 2812716966), (65537, 3034363099)]

theorem mem_zech (p : Nat) (prime : p.Prime) (divides : p ∣ 2 ^ 32 - 1) :
    ∃ other, (p, other) ∈ zech ∧ other < 2 ^ 32 := by
  have factors : 2 ^ 32 - 1 = 3 * 5 * 17 * 257 * 65537 := by decide
  have among : p = 3 ∨ p = 5 ∨ p = 17 ∨ p = 257 ∨ p = 65537 := by
    simp only [factors, prime.dvd_mul] at divides
    have each (q : Nat) (isPrime : q.Prime) : p ∣ q → p = q :=
      (Nat.prime_dvd_prime_iff_eq prime isPrime).mp
    obtain (((three | five) | seventeen) | twofiftyseven) | last := divides
    · exact .inl (each 3 (by norm_num) three)
    · exact .inr (.inl (each 5 (by norm_num) five))
    · exact .inr (.inr (.inl (each 17 (by norm_num) seventeen)))
    · exact .inr (.inr (.inr (.inl (each 257 (by norm_num) twofiftyseven))))
    · exact .inr (.inr (.inr (.inr (each 65537 (by norm_num) last))))
  rcases among with rfl | rfl | rfl | rfl | rfl <;> simp [zech]

theorem mix_zech : ∀ step ∈ zech,
    XorLinear.power 32 (XorLinear.columns 32 mix) ((2 ^ 32 - 1) / step.1) (XorLinear.units 32) =
      List.zipWith (· ^^^ ·) (XorLinear.units 32)
        (XorLinear.power 32 (XorLinear.columns 32 mix) step.2 (XorLinear.units 32)) := by
  decide +kernel

theorem mix_moves (p : Nat) (prime : p.Prime) (divides : p ∣ 2 ^ 32 - 1) (x : Nat)
    (small : x < 2 ^ 32) (nonzero : x ≠ 0) : mix^[(2 ^ 32 - 1) / p] x ≠ x := by
  obtain ⟨other, listed, few⟩ := mem_zech p prime divides
  have fewer : (2 ^ 32 - 1) / p < 2 ^ 32 :=
    Nat.lt_of_le_of_lt (Nat.div_le_self _ p) (by decide)
  have same := mix_zech (p, other) listed
  dsimp only at same
  have differ := XorLinear.iterate_xor keeps_mix 32 _ other fewer few same
  exact XorLinear.moves keeps_mix (by decide) mix_returns differ x small nonzero

theorem minimalPeriod_mix (x : Nat) (small : x < 2 ^ 32) (nonzero : x ≠ 0) :
    Function.minimalPeriod mix x = 2 ^ 32 - 1 :=
  XorLinear.minimalPeriod_eq (mix_returns x small) fun p prime divides =>
    mix_moves p prime divides x small nonzero

theorem xorshift32_pos (u : UInt32) : 0 < (xorshift32 u).toNat ∧ (xorshift32 u).toNat < 2 ^ 32 := by
  refine ⟨?_, (xorshift32 u).toNat_lt⟩
  have nonzero : ∀ u : UInt32, u ≠ 0 → 0 < (xorshift32 u).toNat := by
    intro u live
    rw [toNat_xorshift32 u live]
    apply Nat.pos_of_ne_zero
    exact XorLinear.iterate_ne_zero keeps_mix (by decide) mix_returns u.toNat u.toNat_lt
      (fun none => live (UInt32.toNat_inj.mp none)) 1
  by_cases live : u = 0
  · rw [live, xorshift32_zero]
    exact nonzero 1 (by decide)
  · exact nonzero u live

theorem toNat_iterate (u : UInt32) (n : Nat) :
    (xorshift32^[n] (xorshift32 u)).toNat = mix^[n] (xorshift32 u).toNat := by
  induction n generalizing u with
  | zero => rfl
  | succ n ih =>
    rw [Function.iterate_succ_apply, Function.iterate_succ_apply, ih, toNat_xorshift32]
    intro zero
    have positive := (xorshift32_pos u).1
    rw [zero] at positive
    exact Nat.lt_irrefl 0 positive

-- The next words of the generator, as numbers.
def draws (u : UInt32) (n : Nat) : List Nat :=
  (List.iterate xorshift32 (xorshift32 u) n).map UInt32.toNat

theorem draws_succ (u : UInt32) (n : Nat) :
    draws u (n + 1) = (xorshift32 u).toNat :: draws (xorshift32 u) n := rfl

theorem draws_eq (u : UInt32) (n : Nat) : draws u n = List.iterate mix (xorshift32 u).toNat n := by
  rw [draws, ← List.range_map_iterate, ← List.range_map_iterate, List.map_map]
  exact List.map_congr_left fun i _ => toNat_iterate u i

theorem draws_period (u : UInt32) :
    (draws u (2 ^ 32 - 1)).Perm (List.range' 1 (2 ^ 32 - 1)) := by
  obtain ⟨positive, small⟩ := xorshift32_pos u
  rw [draws_eq]
  exact XorLinear.orbit_perm keeps_mix _ small positive.ne' mix_returns
    (minimalPeriod_mix _ small positive.ne')

theorem minimalPeriod_xorshift32 (u : UInt32) :
    Function.minimalPeriod xorshift32 (xorshift32 u) = 2 ^ 32 - 1 := by
  obtain ⟨positive, small⟩ := xorshift32_pos u
  rw [← minimalPeriod_mix _ small positive.ne', Function.minimalPeriod_eq_minimalPeriod_iff]
  intro n
  rw [Function.IsPeriodicPt, Function.IsFixedPt, Function.IsPeriodicPt, Function.IsFixedPt,
    ← toNat_iterate, UInt32.toNat_inj]

theorem xorshift32_cycle (u : UInt32) :
    Function.minimalPeriod xorshift32 (xorshift32 u) = 2 ^ 32 - 1 ∧
      ∀ v, v ≠ 0 ↔ ∃! i, i < 2 ^ 32 - 1 ∧ xorshift32^[i] (xorshift32 u) = v := by
  refine ⟨minimalPeriod_xorshift32 u, fun v => ⟨fun live => ?_, ?_⟩⟩
  · have number : v.toNat ∈ List.range' 1 (2 ^ 32 - 1) := by
      have positive : v.toNat ≠ 0 := fun none => live (UInt32.toNat_inj.mp none)
      have small := v.toNat_lt
      rw [List.mem_range'_1]
      omega
    have drawn := (draws_period u).mem_iff.mpr number
    obtain ⟨w, member, same⟩ := List.mem_map.mp drawn
    obtain rfl := UInt32.toNat_inj.mp same
    obtain ⟨i, inside, here⟩ := List.mem_iterate.mp member
    refine ⟨i, ⟨inside, here.symm⟩, ?_⟩
    rintro j ⟨within, there⟩
    rw [← minimalPeriod_xorshift32 u] at inside within
    exact Function.iterate_injOn_Iio_minimalPeriod within inside (there.trans here)
  · rintro ⟨i, ⟨_, here⟩, _⟩ rfl
    have nonzero := XorLinear.iterate_ne_zero keeps_mix (by decide) mix_returns _
      (xorshift32_pos u).2 (xorshift32_pos u).1.ne' i
    rw [← toNat_iterate, here] at nonzero
    exact nonzero rfl

theorem countP_range' (limit n : Nat) :
    (List.range' 1 n).countP (· ≤ limit) = min limit n := by
  induction n with
  | zero => simp
  | succ n ih =>
    rw [List.range'_1_concat, List.countP_append, ih, List.countP_singleton]
    by_cases inside : 1 + n ≤ limit
    next => simp [inside]; omega
    next => simp [inside]; omega

theorem countP_draws (u : UInt32) (limit : Nat) :
    (draws u (2 ^ 32 - 1)).countP (· ≤ limit) = min limit (2 ^ 32 - 1) := by
  rw [(draws_period u).countP_eq, countP_range']

end NeuralPersistenceAgent

namespace AgentLoop

open NeuralPersistenceAgent (draws)

theorem countP_le_of_forall₂ {α β : Type} {p : α → Bool} {q : β → Bool} {as : List α} {bs : List β}
    (implied : List.Forall₂ (fun a b => p a = true → q b = true) as bs) :
    as.countP p ≤ bs.countP q := by
  induction implied with
  | nil => exact Nat.le_refl _
  | @cons a b as bs here _ ih =>
    rw [List.countP_cons, List.countP_cons]
    by_cases holds : p a = true
    · simpa [holds, here holds] using ih
    · simp only [holds, Bool.false_eq_true, if_false]
      omega

section Decisions

variable {F : Type} [Field F] [HasExp F] [LinearOrder F]

-- An empty queue decides nothing.
def decisions (worker : AgentLoop F) : List (WorkerTick F) → List Bool
  | [] => []
  | tick :: ticks =>
    if tick.queueLen = 0 then (worker.turn tick).decisions ticks
    else worker.commits tick :: (worker.turn tick).decisions ticks

def prob (worker : AgentLoop F) (tick : WorkerTick F) : F :=
  (worker.agent.forward (worker.features tick)).1

def Busy (tick : WorkerTick F) : Bool := tick.queueLen ≠ 0

theorem turn_idle (worker : AgentLoop F) (tick : WorkerTick F) (idle : tick.queueLen = 0) :
    worker.turn tick = worker := by rw [turn, if_pos idle]

theorem seed_turn (worker : AgentLoop F) (tick : WorkerTick F) (busy : tick.queueLen ≠ 0) :
    (worker.turn tick).agent.seed = NeuralPersistenceAgent.xorshift32 worker.agent.seed := by
  rw [turn, if_neg busy]
  dsimp only
  split <;> rfl

theorem commits_eq (worker : AgentLoop F) (tick : WorkerTick F) :
    worker.commits tick =
      decide (((NeuralPersistenceAgent.xorshift32 worker.agent.seed).toNat : F) /
        (2 ^ 32 - 1 : Nat) < worker.prob tick) := rfl

theorem decisions_draws (allowed : Nat → Bool → Prop) (worker : AgentLoop F)
    (ticks : List (WorkerTick F))
    (each : Steps.Along turn (fun worker tick => Busy tick →
      allowed (NeuralPersistenceAgent.xorshift32 worker.agent.seed).toNat (worker.commits tick))
      worker ticks) :
    List.Forall₂ allowed (draws worker.agent.seed (ticks.countP Busy)) (worker.decisions ticks) := by
  induction ticks generalizing worker with
  | nil => exact .nil
  | cons tick ticks ih =>
    have rest := ih (worker.turn tick) each.2
    by_cases idle : tick.queueLen = 0
    · have quiet : ¬ Busy tick = true := by simp [Busy, idle]
      rw [turn_idle worker tick idle] at rest
      rw [decisions, if_pos idle, turn_idle worker tick idle, List.countP_cons_of_neg quiet]
      exact rest
    · have busy : Busy tick = true := by simp [Busy, idle]
      rw [seed_turn worker tick idle] at rest
      rw [decisions, if_neg idle, List.countP_cons_of_pos busy, NeuralPersistenceAgent.draws_succ]
      exact .cons (each.1 busy) rest

theorem decisions_append (worker : AgentLoop F) (first second : List (WorkerTick F)) :
    worker.decisions (first ++ second) =
      worker.decisions first ++ (Steps.run turn worker first).decisions second := by
  induction first generalizing worker with
  | nil => rfl
  | cons tick first ih =>
    rw [List.cons_append, decisions, decisions, ih, Steps.run_cons]
    split <;> rfl

theorem length_decisions (worker : AgentLoop F) (ticks : List (WorkerTick F)) :
    (worker.decisions ticks).length = ticks.countP Busy := by
  have paired := decisions_draws (fun _ _ => True) worker ticks
    (Steps.along_of_forall_state (fun _ _ _ => trivial) worker ticks)
  rw [← paired.length_eq, draws, List.length_map, List.length_iterate]

variable [IsStrictOrderedRing F]

theorem commits_of_draw_le {low : Nat} {worker : AgentLoop F} {tick : WorkerTick F}
    (above : (low : F) / (2 ^ 32 - 1 : Nat) < worker.prob tick)
    (small : (NeuralPersistenceAgent.xorshift32 worker.agent.seed).toNat ≤ low) :
    worker.commits tick = true := by
  rw [commits_eq, decide_eq_true_eq]
  exact lt_of_le_of_lt (div_le_div_of_nonneg_right (Nat.cast_le.mpr small) (Nat.cast_nonneg _)) above

theorem draw_le_of_commits {high : Nat} {worker : AgentLoop F} {tick : WorkerTick F}
    (below : worker.prob tick ≤ ((high + 1 : Nat) : F) / (2 ^ 32 - 1 : Nat))
    (commits : worker.commits tick = true) :
    (NeuralPersistenceAgent.xorshift32 worker.agent.seed).toNat ≤ high := by
  rw [commits_eq, decide_eq_true_eq] at commits
  have less := lt_of_lt_of_le commits below
  rw [div_lt_div_iff_of_pos_right (by norm_num), Nat.cast_lt] at less
  exact Nat.le_of_lt_succ less

theorem count_commits_ge (low : Nat) (worker : AgentLoop F) (ticks : List (WorkerTick F))
    (period : ticks.countP Busy = 2 ^ 32 - 1)
    (above : Steps.Along turn (fun worker tick =>
      Busy tick → (low : F) / (2 ^ 32 - 1 : Nat) < worker.prob tick) worker ticks) :
    min low (2 ^ 32 - 1) ≤ (worker.decisions ticks).count true := by
  rw [← NeuralPersistenceAgent.countP_draws worker.agent.seed low, ← period]
  apply countP_le_of_forall₂
  apply decisions_draws fun drawn decision => decide (drawn ≤ low) = true → (decision == true) = true
  apply Steps.along_mono above
  intro worker tick bound busy small
  rw [beq_true]
  exact commits_of_draw_le (bound busy) (of_decide_eq_true small)

theorem count_commits_le (high : Nat) (worker : AgentLoop F) (ticks : List (WorkerTick F))
    (period : ticks.countP Busy = 2 ^ 32 - 1)
    (below : Steps.Along turn (fun worker tick =>
      Busy tick → worker.prob tick ≤ ((high + 1 : Nat) : F) / (2 ^ 32 - 1 : Nat)) worker ticks) :
    (worker.decisions ticks).count true ≤ min high (2 ^ 32 - 1) := by
  rw [← NeuralPersistenceAgent.countP_draws worker.agent.seed high, ← period]
  apply countP_le_of_forall₂
  apply List.Forall₂.flip
  apply decisions_draws fun drawn decision => (decision == true) = true → decide (drawn ≤ high) = true
  apply Steps.along_mono below
  intro worker tick bound busy commits
  rw [beq_true] at commits
  exact decide_eq_true (draw_le_of_commits (bound busy) commits)

end Decisions

theorem prob_le_most (worker : AgentLoop ℝ) (tick : WorkerTick ℝ) :
    worker.prob tick ≤ ((2 ^ 32 - 2 + 1 : Nat) : ℝ) / (2 ^ 32 - 1 : Nat) := by
  have whole : ((2 ^ 32 - 2 + 1 : Nat) : ℝ) / (2 ^ 32 - 1 : Nat) = 1 := by
    norm_num
  rw [whole, prob, NeuralPersistenceAgent.forward_eq]
  exact Real.sigmoid_le_one _

theorem commits_in_period (worker : AgentLoop ℝ) (ticks : List (WorkerTick ℝ)) (low high : Nat)
    (period : ticks.countP Busy = 2 ^ 32 - 1)
    (between : Steps.Along turn (fun worker tick => Busy tick →
      (low : ℝ) / (2 ^ 32 - 1 : Nat) < worker.prob tick ∧
        worker.prob tick ≤ ((high + 1 : Nat) : ℝ) / (2 ^ 32 - 1 : Nat)) worker ticks) :
    let decisions := worker.decisions ticks
    low ≤ decisions.count true ∧ decisions.count true ≤ high ∧ 0 < decisions.count false := by
  intro decisions
  have atLeast : min low (2 ^ 32 - 1) ≤ decisions.count true :=
    count_commits_ge low worker ticks period
      (Steps.along_mono between fun _ _ both busy => (both busy).1)
  have atMost : decisions.count true ≤ min high (2 ^ 32 - 1) :=
    count_commits_le high worker ticks period
      (Steps.along_mono between fun _ _ both busy => (both busy).2)
  have notAll : decisions.count true ≤ min (2 ^ 32 - 2) (2 ^ 32 - 1) :=
    count_commits_le (2 ^ 32 - 2) worker ticks period
      (Steps.along_of_forall_state (fun worker tick _ => worker.prob_le_most tick) worker ticks)
  have whole : decisions.count true + decisions.count false = 2 ^ 32 - 1 := by
    rw [List.count_true_add_count_false, ← period]
    exact length_decisions worker ticks
  omega

theorem commits_in_period_start :
    let decisions := start.decisions
      (List.replicate (2 ^ 32 - 1) (⟨1, 0, 0⟩ : WorkerTick ℝ))
    0 ≤ decisions.count true ∧ decisions.count true ≤ 2 ^ 32 - 2 ∧ 0 < decisions.count false := by
  refine commits_in_period start _ 0 (2 ^ 32 - 2) ?_ ?_
  · rw [List.countP_replicate, if_pos (by simp [Busy])]
  · apply Steps.along_of_forall_state
    intro worker tick _
    rw [Nat.cast_zero, zero_div]
    exact ⟨worker.agent.prob_pos _, worker.prob_le_most tick⟩

end AgentLoop

end OmegaDrive
