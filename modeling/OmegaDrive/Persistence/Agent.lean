import Mathlib.Analysis.SpecialFunctions.Sigmoid
import OmegaDrive.Shared.Ascent
import OmegaDrive.Shared.Steps

set_option autoImplicit false

namespace OmegaDrive

/-! The persistence worker's network, in exact arithmetic over a field with an exponential. -/

class HasExp (F : Type) where
  exp : F → F

structure NeuralPersistenceAgent (F : Type) where
  w1 : Fin 8 → Fin 20 → F
  b1 : Fin 8 → F
  w2 : Fin 8 → F
  b2 : F
  learningRate : F
  seed : UInt32

namespace NeuralPersistenceAgent

def xorshift32 (state : UInt32) : UInt32 :=
  let x := if state = 0 then 1 else state
  let x := x ^^^ x <<< 13
  let x := x ^^^ x >>> 17
  x ^^^ x <<< 5

variable {F : Type} [Field F]

/-- What `random_f32` makes of the next state of its generator. -/
def randomF32 (u : UInt32) : F := (u.toNat : F) / (2 ^ 32 - 1 : Nat) * 2 - 1

-- Each hidden unit draws its bias, its output weight and its twenty weights, in this order.
def new : NeuralPersistenceAgent F :=
  let draw (n : Nat) : F := randomF32 (xorshift32^[n + 1] 1337)
  { w1 := fun i j => draw (22 * i + 2 + j) * 0.1
    b1 := fun i => draw (22 * i) * 0.1
    w2 := fun i => draw (22 * i + 1) * 0.1
    b2 := draw 176 * 0.1
    learningRate := 0.005
    seed := xorshift32^[177] 1337 }

section Activation

variable [HasExp F]

def sigmoid (z : F) : F := 1 / (1 + HasExp.exp (-z))

def forward (agent : NeuralPersistenceAgent F) (state : Fin 20 → F) : F × (Fin 8 → F) :=
  let hidden := fun i =>
    sigmoid (Fin.foldl 20 (fun z j => z + state j * agent.w1 i j) (agent.b1 i))
  let z2 := Fin.foldl 8 (fun z2 i => z2 + hidden i * agent.w2 i) agent.b2
  (sigmoid z2, hidden)

end Activation

def selectAction [LinearOrder F] (agent : NeuralPersistenceAgent F) (prob : F) :
    NeuralPersistenceAgent F × Bool :=
  let seed := xorshift32 agent.seed
  let r := (seed.toNat : F) / (2 ^ 32 - 1 : Nat)
  ({ agent with seed }, decide (r < prob))

-- The hidden layer's gradient is taken with the output weights that are already updated.
def updateWeights (agent : NeuralPersistenceAgent F) (state : Fin 20 → F) (hidden : Fin 8 → F)
    (action prob reward : F) : NeuralPersistenceAgent F :=
  let lossGrad := (action - prob) * reward
  let b2 := agent.b2 + lossGrad * agent.learningRate
  let w2 := fun i => agent.w2 i + lossGrad * hidden i * agent.learningRate
  let hiddenGrad := fun i => lossGrad * w2 i * hidden i * (1 - hidden i)
  { agent with
    b2, w2
    b1 := fun i => agent.b1 i + hiddenGrad i * agent.learningRate
    w1 := fun i j => agent.w1 i j + hiddenGrad i * state j * agent.learningRate }

def learned [HasExp F] (agent : NeuralPersistenceAgent F) (state : Fin 20 → F)
    (action reward : F) : NeuralPersistenceAgent F :=
  let (prob, hidden) := agent.forward state
  agent.updateWeights state hidden action prob reward

end NeuralPersistenceAgent

/-! The worker's turns, as far as its agent goes: the lengths of the batches and the times are
given. -/

structure WorkerTick (F : Type) where
  queueLen : Nat
  elapsed : F
  writeDuration : F

structure AgentLoop (F : Type) where
  agent : NeuralPersistenceAgent F
  history : Fin 15 → F
  lastWriteTimeMs : F
  lastFsyncDurationMs : F

namespace AgentLoop

variable {F : Type} [Field F] [HasExp F] [LinearOrder F]

def start : AgentLoop F := ⟨.new, fun _ => 0, 0, 0⟩

def shifted (worker : AgentLoop F) (queueLen : Nat) : Fin 15 → F :=
  Fin.cons (queueLen : F) fun i : Fin 14 => worker.history i.castSucc

def features (worker : AgentLoop F) (tick : WorkerTick F) : Fin 20 → F
  | ⟨0, _⟩ => tick.queueLen
  | ⟨1, _⟩ => tick.elapsed
  | ⟨2, _⟩ => worker.lastWriteTimeMs
  | ⟨3, _⟩ => worker.lastFsyncDurationMs
  | ⟨4, _⟩ => Fin.foldl 15 (fun sum i => sum + worker.shifted tick.queueLen i) 0 / 15
  | ⟨i + 5, inside⟩ => worker.shifted tick.queueLen ⟨i, by omega⟩

def commits (worker : AgentLoop F) (tick : WorkerTick F) : Bool :=
  (worker.agent.selectAction (worker.agent.forward (worker.features tick)).1).2

def turn (worker : AgentLoop F) (tick : WorkerTick F) : AgentLoop F :=
  if tick.queueLen = 0 then worker
  else
    let history := worker.shifted tick.queueLen
    let state := worker.features tick
    let (prob, hidden) := worker.agent.forward state
    let (agent, commit) := worker.agent.selectAction prob
    if commit then
      let backlogPenalty := -(tick.queueLen : F) * 0.1
      let writePenalty := -tick.writeDuration * 0.05
      let reward := backlogPenalty + writePenalty
      { agent := agent.updateWeights state hidden 1 prob reward
        history
        lastWriteTimeMs := tick.writeDuration
        lastFsyncDurationMs := tick.writeDuration * 0.8 }
    else
      let reward := -(tick.queueLen : F) * 0.05
      { worker with agent := agent.updateWeights state hidden 0 prob reward, history }

theorem learningRate_turn (worker : AgentLoop F) (tick : WorkerTick F) :
    (worker.turn tick).agent.learningRate = worker.agent.learningRate := by
  rw [turn]
  split
  next => rfl
  next =>
    dsimp only
    split <;> rfl

theorem learningRate_run (worker : AgentLoop F) (ticks : List (WorkerTick F)) :
    (Steps.run turn worker ticks).agent.learningRate = worker.agent.learningRate := by
  induction ticks generalizing worker with
  | nil => rfl
  | cons tick ticks ih => rw [Steps.run_cons, ih, learningRate_turn]

theorem turn_wait (worker : AgentLoop F) (tick : WorkerTick F) (queued : 0 < tick.queueLen)
    (waits : worker.commits tick = false) (state : Fin 20 → F) :
    ((worker.turn tick).agent.forward state).1 =
      ((worker.agent.learned (worker.features tick) 0 (-(tick.queueLen : F) * 0.05)).forward
        state).1 := by
  rw [commits] at waits
  rw [turn, if_neg queued.ne']
  simp only [waits]
  rfl

end AgentLoop

noncomputable instance : HasExp ℝ := ⟨Real.exp⟩

namespace NeuralPersistenceAgent

theorem sigmoid_eq : (sigmoid : ℝ → ℝ) = Real.sigmoid := by
  funext z
  rw [Real.sigmoid_def, sigmoid, one_div]
  rfl

theorem foldl_sum {n : Nat} (start : ℝ) (term : Fin n → ℝ) :
    Fin.foldl n (fun total i => total + term i) start = start + ∑ i, term i := by
  induction n with
  | zero => simp
  | succ n ih => rw [Fin.foldl_succ_last, ih, Fin.sum_univ_castSucc, add_assoc]

noncomputable def preactivation (agent : NeuralPersistenceAgent ℝ) (state : Fin 20 → ℝ) (i : Fin 8) : ℝ :=
  agent.b1 i + ∑ j, state j * agent.w1 i j

variable (agent : NeuralPersistenceAgent ℝ) (state : Fin 20 → ℝ)

theorem forward_eq :
    agent.forward state =
      (Real.sigmoid (Ascent.output Real.sigmoid agent.b2 agent.w2 (agent.preactivation state)),
        fun i => Real.sigmoid (agent.preactivation state i)) := by
  simp only [forward, foldl_sum, sigmoid_eq]
  rfl

theorem prob_pos : 0 < (agent.forward state).1 := by
  rw [forward_eq]
  exact Real.sigmoid_pos _

-- The length of the update's step, with its direction.
noncomputable def stride (action reward : ℝ) : ℝ :=
  (action - (agent.forward state).1) * reward * agent.learningRate

noncomputable def slope (i : Fin 8) : ℝ :=
  (agent.forward state).2 i * (1 - (agent.forward state).2 i) * (1 + ∑ j, state j * state j)

theorem slope_nonneg (i : Fin 8) : 0 ≤ agent.slope state i := by
  rw [slope, forward_eq]
  have squares : 0 ≤ ∑ j, state j * state j := Finset.sum_nonneg fun j _ => mul_self_nonneg _
  have unit := sub_nonneg.mpr (Real.sigmoid_le_one (agent.preactivation state i))
  exact mul_nonneg (mul_nonneg (Real.sigmoid_nonneg _) unit) (by linarith)

theorem w2_learned (action reward : ℝ) :
    (agent.learned state action reward).w2 =
      Ascent.newWeight Real.sigmoid (agent.stride state action reward) agent.w2
        (agent.preactivation state) := by
  funext i
  simp only [learned, updateWeights, Ascent.newWeight, stride, forward_eq]
  ring

-- What the update adds to a hidden unit's bias; its weights take it times their inputs.
noncomputable def hiddenStep (action reward : ℝ) (i : Fin 8) : ℝ :=
  agent.stride state action reward * (agent.learned state action reward).w2 i *
    ((agent.forward state).2 i * (1 - (agent.forward state).2 i))

theorem b1_learned (action reward : ℝ) (i : Fin 8) :
    (agent.learned state action reward).b1 i = agent.b1 i + agent.hiddenStep state action reward i := by
  simp only [learned, updateWeights, hiddenStep, stride]
  ring

theorem w1_learned (action reward : ℝ) (i : Fin 8) (j : Fin 20) :
    (agent.learned state action reward).w1 i j =
      agent.w1 i j + agent.hiddenStep state action reward i * state j := by
  simp only [learned, updateWeights, hiddenStep, stride]
  ring

theorem preactivation_learned (action reward : ℝ) :
    (agent.learned state action reward).preactivation state =
      Ascent.newInput Real.sigmoid (agent.stride state action reward) agent.w2
        (agent.preactivation state) (agent.slope state) := by
  funext i
  have inputs : ∑ j, state j * (agent.learned state action reward).w1 i j =
      ∑ j, state j * agent.w1 i j +
        agent.hiddenStep state action reward i * ∑ j, state j * state j := by
    simp only [w1_learned, mul_add, Finset.sum_add_distrib, Finset.mul_sum]
    congr 1
    exact Finset.sum_congr rfl fun j _ => mul_left_comm _ _ _
  rw [Ascent.newInput, ← w2_learned, preactivation, inputs, b1_learned, preactivation, slope,
    hiddenStep]
  ring

theorem prob_learned (rate : 0 < agent.learningRate) (action reward : ℝ) :
    (0 < (action - (agent.forward state).1) * reward → (agent.forward state).1 <
      ((agent.learned state action reward).forward state).1) ∧
    ((action - (agent.forward state).1) * reward < 0 →
      ((agent.learned state action reward).forward state).1 < (agent.forward state).1) ∧
    ((action - (agent.forward state).1) * reward = 0 →
      ((agent.learned state action reward).forward state).1 = (agent.forward state).1) := by
  obtain ⟨up, down, still⟩ := Ascent.output_direction (agent.stride state action reward) agent.b2
    agent.w2 (agent.preactivation state) (agent.slope state) Real.sigmoid_monotone
    (agent.slope_nonneg state)
  have bias : (agent.learned state action reward).b2 =
      agent.b2 + agent.stride state action reward := rfl
  rw [forward_eq (agent.learned state action reward), bias, w2_learned, preactivation_learned]
  refine ⟨fun better => ?_, fun worse => ?_, fun same => ?_⟩
  · rw [agent.forward_eq]
    exact Real.sigmoid_lt (up (mul_pos better rate))
  · rw [agent.forward_eq]
    exact Real.sigmoid_lt (down (mul_neg_of_neg_of_pos worse rate))
  · have none : agent.stride state action reward = 0 := by rw [stride, same, zero_mul]
    rw [still none, agent.forward_eq]

theorem updateWeights_prob (rate : 0 < agent.learningRate) :
    (∀ state action reward, let (prob, hidden) := agent.forward state
      let (after, _) := (agent.updateWeights state hidden action prob reward).forward state
      (0 < (action - prob) * reward → prob < after) ∧
        ((action - prob) * reward < 0 → after < prob) ∧
        ((action - prob) * reward = 0 → after = prob)) ∧
      ∀ (worker : AgentLoop ℝ) (ticks : List (WorkerTick ℝ)) (tick : WorkerTick ℝ),
        worker.agent = agent → 0 < tick.queueLen →
        let worker := Steps.run AgentLoop.turn worker ticks
        worker.commits tick = false →
          (worker.agent.forward (worker.features tick)).1 <
            ((worker.turn tick).agent.forward (worker.features tick)).1 := by
  constructor
  · intro state action reward
    exact prob_learned agent state rate action reward
  · intro start ticks tick same queued worker waits
    have kept : 0 < worker.agent.learningRate := by
      rw [AgentLoop.learningRate_run, same]
      exact rate
    rw [AgentLoop.turn_wait worker tick queued waits]
    apply (prob_learned worker.agent _ kept 0 _).1
    have size : (0 : ℝ) < tick.queueLen := Nat.cast_pos.mpr queued
    have positive := worker.agent.prob_pos (worker.features tick)
    apply mul_pos_of_neg_of_neg
    · linarith
    · linarith

theorem updateWeights_prob_ones :
    let agent : NeuralPersistenceAgent ℝ := new
    let (prob, hidden) := agent.forward fun _ => 1
    let (after, _) := (agent.updateWeights (fun _ => 1) hidden 0 prob (-1)).forward fun _ => 1
    prob < after := by
  have rate : (0 : ℝ) < (new : NeuralPersistenceAgent ℝ).learningRate := by
    change (0 : ℝ) < 0.005
    norm_num
  have positive := prob_pos new fun _ => 1
  have better : 0 < (0 - ((new : NeuralPersistenceAgent ℝ).forward fun _ => 1).1) * (-1) := by
    linarith
  exact ((updateWeights_prob new rate).1 (fun _ => 1) 0 (-1)).1 better

end NeuralPersistenceAgent

end OmegaDrive
