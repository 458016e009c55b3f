import OmegaDrive.Persistence.Draws

set_option autoImplicit false

namespace OmegaDrive

namespace NeuralPersistenceAgent

variable (agent : NeuralPersistenceAgent ℝ) (state : Fin 20 → ℝ)

/-- What the output's input cannot fall below, whatever the hidden units say. -/
noncomputable def floor : ℝ := agent.b2 - ∑ i, max 0 (-agent.w2 i)

theorem floor_le : agent.floor ≤
    Ascent.output Real.sigmoid agent.b2 agent.w2 (agent.preactivation state) := by
  rw [floor, Ascent.output, sub_eq_add_neg, ← Finset.sum_neg_distrib]
  apply add_le_add_right
  apply Finset.sum_le_sum
  intro i _
  have positive := Real.sigmoid_nonneg (agent.preactivation state i)
  have atMost := Real.sigmoid_le_one (agent.preactivation state i)
  have larger := le_max_right 0 (-agent.w2 i)
  have least := le_max_left 0 (-agent.w2 i)
  nlinarith

theorem sigmoid_floor_le : Real.sigmoid agent.floor ≤ (agent.forward state).1 := by
  rw [forward_eq]
  exact Real.sigmoid_le (agent.floor_le state)

-- An update towards no commit with a penalty raises the floor by its step.
theorem floor_learned (action reward : ℝ) (upward : 0 ≤ agent.stride state action reward) :
    agent.floor + agent.stride state action reward ≤ (agent.learned state action reward).floor := by
  have bias : (agent.learned state action reward).b2 =
      agent.b2 + agent.stride state action reward := rfl
  rw [floor, floor, bias, w2_learned]
  have each : ∑ i, max 0 (-Ascent.newWeight Real.sigmoid (agent.stride state action reward) agent.w2
      (agent.preactivation state) i) ≤ ∑ i, max 0 (-agent.w2 i) := by
    apply Finset.sum_le_sum
    intro i _
    apply max_le_max le_rfl
    rw [Ascent.newWeight]
    have gain := mul_nonneg upward (Real.sigmoid_nonneg (agent.preactivation state i))
    linarith
  linarith

end NeuralPersistenceAgent

namespace AgentLoop

theorem turn_waits (worker : AgentLoop ℝ) (tick : WorkerTick ℝ) (busy : tick.queueLen ≠ 0)
    (waits : worker.commits tick = false) :
    (worker.turn tick).agent.floor =
      (worker.agent.learned (worker.features tick) 0 (-(tick.queueLen : ℝ) * 0.05)).floor := by
  rw [commits] at waits
  rw [turn, if_neg busy]
  simp only [waits]
  rfl

-- What one turn of waiting gains, at the least.
noncomputable def gain (rate level : ℝ) : ℝ := Real.sigmoid level * 0.05 * rate

theorem gain_pos (rate level : ℝ) (positive : 0 < rate) : 0 < gain rate level := by
  have chance := Real.sigmoid_pos level
  unfold gain
  positivity

theorem floor_turn (worker : AgentLoop ℝ) (tick : WorkerTick ℝ) (busy : tick.queueLen ≠ 0)
    (waits : worker.commits tick = false) (level : ℝ) (low : level ≤ worker.agent.floor)
    (rate : 0 < worker.agent.learningRate) :
    worker.agent.floor + gain worker.agent.learningRate level ≤ (worker.turn tick).agent.floor := by
  have likely := worker.agent.sigmoid_floor_le (worker.features tick)
  have chance := (Real.sigmoid_le low).trans likely
  have queue : (1 : ℝ) ≤ tick.queueLen := Nat.one_le_cast.mpr (Nat.one_le_iff_ne_zero.mpr busy)
  have pays : gain worker.agent.learningRate level ≤
      worker.agent.stride (worker.features tick) 0 (-(tick.queueLen : ℝ) * 0.05) := by
    rw [gain, NeuralPersistenceAgent.stride]
    have some := Real.sigmoid_pos level
    have longer : Real.sigmoid level * 0.05 ≤
        (0 - (worker.agent.forward (worker.features tick)).1) * (-(tick.queueLen : ℝ) * 0.05) := by
      nlinarith
    exact mul_le_mul_of_nonneg_right longer rate.le
  have raised := worker.agent.floor_learned (worker.features tick) 0 (-(tick.queueLen : ℝ) * 0.05)
    ((gain_pos _ level rate).le.trans pays)
  rw [turn_waits worker tick busy waits]
  linarith

theorem floor_run (worker : AgentLoop ℝ) (ticks : List (WorkerTick ℝ)) (level : ℝ)
    (low : level ≤ worker.agent.floor) (rate : 0 < worker.agent.learningRate)
    (waits : true ∉ worker.decisions ticks) :
    worker.agent.floor + ticks.countP Busy * gain worker.agent.learningRate level ≤
      (Steps.run turn worker ticks).agent.floor := by
  induction ticks generalizing worker with
  | nil => simp [Steps.run]
  | cons tick ticks ih =>
    rw [Steps.run_cons]
    by_cases idle : tick.queueLen = 0
    · have quiet : ¬ Busy tick = true := by simp [Busy, idle]
      rw [decisions, if_pos idle, turn_idle worker tick idle] at waits
      rw [turn_idle worker tick idle, List.countP_cons_of_neg quiet]
      exact ih worker low rate waits
    · have busy : Busy tick = true := by simp [Busy, idle]
      rw [decisions, if_neg idle, List.mem_cons, not_or] at waits
      have stays : worker.commits tick = false :=
        Bool.eq_false_iff.mpr fun commits => waits.1 commits.symm
      have climbed := floor_turn worker tick idle stays level low rate
      have kept := learningRate_turn worker tick
      have later := ih (worker.turn tick) (by have := gain_pos _ level rate; linarith)
        (by rw [kept]; exact rate) waits.2
      rw [kept] at later
      rw [List.countP_cons_of_pos busy, Nat.cast_add_one, add_mul, one_mul]
      linarith

theorem prob_above (worker : AgentLoop ℝ) (tick : WorkerTick ℝ) (risen : 0 ≤ worker.agent.floor) :
    ((1 : Nat) : ℝ) / (2 ^ 32 - 1 : Nat) < worker.prob tick := by
  have half : 2⁻¹ ≤ worker.prob tick := by
    rw [← Real.sigmoid_zero]
    exact (Real.sigmoid_le risen).trans (worker.agent.sigmoid_floor_le _)
  apply lt_of_lt_of_le _ half
  norm_num

theorem likely_along (worker : AgentLoop ℝ) (ticks : List (WorkerTick ℝ))
    (risen : 0 ≤ worker.agent.floor) (rate : 0 < worker.agent.learningRate)
    (waits : true ∉ worker.decisions ticks) :
    Steps.Along turn (fun worker tick =>
      Busy tick → ((1 : Nat) : ℝ) / (2 ^ 32 - 1 : Nat) < worker.prob tick) worker ticks := by
  induction ticks generalizing worker with
  | nil => trivial
  | cons tick ticks ih =>
    refine ⟨fun _ => worker.prob_above tick risen, ?_⟩
    by_cases idle : tick.queueLen = 0
    · rw [decisions, if_pos idle, turn_idle worker tick idle] at waits
      rw [turn_idle worker tick idle]
      exact ih worker risen rate waits
    · rw [decisions, if_neg idle, List.mem_cons, not_or] at waits
      have stays : worker.commits tick = false :=
        Bool.eq_false_iff.mpr fun commits => waits.1 commits.symm
      have climbed := floor_turn worker tick idle stays _ le_rfl rate
      have gains := gain_pos worker.agent.learningRate worker.agent.floor rate
      apply ih (worker.turn tick) (by linarith) _ waits.2
      rw [learningRate_turn]
      exact rate

theorem split_busy (ticks : List (WorkerTick ℝ)) (n : Nat) (enough : n ≤ ticks.countP Busy) :
    ∃ first second, ticks = first ++ second ∧ first.countP Busy = n := by
  induction ticks generalizing n with
  | nil => exact ⟨[], [], rfl, (Nat.le_zero.mp enough).symm⟩
  | cons tick ticks ih =>
    cases n with
    | zero => exact ⟨[], tick :: ticks, rfl, rfl⟩
    | succ n =>
      by_cases busy : Busy tick = true
      · rw [List.countP_cons_of_pos busy] at enough
        obtain ⟨first, second, rfl, exact'⟩ := ih n (Nat.le_of_succ_le_succ enough)
        exact ⟨tick :: first, second, rfl, by rw [List.countP_cons_of_pos busy, exact']⟩
      · rw [List.countP_cons_of_neg busy] at enough
        obtain ⟨first, second, rfl, exact'⟩ := ih (n + 1) enough
        exact ⟨tick :: first, second, rfl, by rw [List.countP_cons_of_neg busy, exact']⟩

theorem commits_within (worker : AgentLoop ℝ) (rate : 0 < worker.agent.learningRate) :
    ∃ enough, ∀ ticks : List (WorkerTick ℝ), enough ≤ ticks.countP Busy →
      true ∈ worker.decisions ticks := by
  have gains := gain_pos worker.agent.learningRate worker.agent.floor rate
  obtain ⟨climb, high⟩ := exists_nat_gt (-worker.agent.floor /
    gain worker.agent.learningRate worker.agent.floor)
  refine ⟨climb + (2 ^ 32 - 1), fun ticks many => ?_⟩
  by_contra waits
  -- First the floor rises above zero, then a whole period of likely turns follows.
  obtain ⟨rise, later, rfl, risen⟩ := split_busy ticks climb (by omega)
  rw [List.countP_append, risen] at many
  obtain ⟨period, rest, rfl, whole⟩ := split_busy later (2 ^ 32 - 1) (by omega)
  rw [decisions_append, decisions_append] at waits
  simp only [List.mem_append, not_or] at waits
  obtain ⟨waits, waitsLater, -⟩ := waits
  have climbed := floor_run worker rise _ le_rfl rate waits
  rw [risen] at climbed
  have above : 0 ≤ (Steps.run turn worker rise).agent.floor := by
    have covered := (div_lt_iff₀ gains).mp high
    linarith
  have kept : 0 < (Steps.run turn worker rise).agent.learningRate := by
    rw [learningRate_run]
    exact rate
  have counted := count_commits_ge 1 _ period whole (likely_along _ period above kept waitsLater)
  rw [List.count_eq_zero_of_not_mem waitsLater] at counted
  exact absurd counted (by decide)

end AgentLoop

end OmegaDrive
