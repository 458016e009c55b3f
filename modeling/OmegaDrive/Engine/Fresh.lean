import OmegaDrive.Engine.Batch
import OmegaDrive.Engine.Tables
import OmegaDrive.Shared.Steps

set_option autoImplicit false

namespace OmegaDrive

namespace OmegaEngine

/-- The engine after an operation and the pool indices it returns: none for a batch that panics. -/
def attempt (engine : OmegaEngine) : EngineOp → OmegaEngine × List Nat
  | .registerCell db table row col specIdx =>
    let (next, poolIdx) := engine.registerCell db table row col specIdx
    (next, [poolIdx])
  | .set db table row col specIdx poolIdx => (engine.set db table row col specIdx poolIdx, [])
  | .registerBatch db table rowIds colNames specIndices =>
    let (next, results) := engine.tryRegisterBatch db table rowIds colNames specIndices
    (next, results.getD [])
  | .remove db table row col => (engine.remove db table row col, [])
  | .clear => (engine.clear, [])

def after (engine : OmegaEngine) (op : EngineOp) : OmegaEngine := (engine.attempt op).1

-- The pool indices an operation takes from the counter, a batch all at once, or brings along.
def poolIndices (engine : OmegaEngine) : EngineOp → List Nat
  | .registerCell .. => [engine.nextPoolIdx]
  | .set _ _ _ _ _ poolIdx => [poolIdx]
  | .registerBatch _ _ _ _ specIndices => List.range' engine.nextPoolIdx specIndices.length
  | .remove .. | .clear => []

def BelowMax (engine : OmegaEngine) (op : EngineOp) : Prop :=
  ∀ poolIdx ∈ engine.poolIndices op, poolIdx < 2 ^ 64 - 1

instance (engine : OmegaEngine) (op : EngineOp) : Decidable (engine.BelowMax op) :=
  inferInstanceAs (Decidable (∀ poolIdx ∈ engine.poolIndices op, poolIdx < 2 ^ 64 - 1))

theorem after_of_perform {engine next : OmegaEngine} {op : EngineOp}
    (done : engine.perform op = some next) : engine.after op = next := by
  cases op with
  | registerBatch db table rowIds colNames specIndices =>
    obtain ⟨⟨_, results⟩, made, rfl⟩ := Option.map_eq_some_iff.mp done
    rw [registerBatch_eq] at made
    obtain ⟨_, _, same⟩ := Option.map_eq_some_iff.mp made
    exact (Prod.mk.inj same).1
  | registerCell | set | remove | clear => exact Option.some.inj done

theorem run_of_completed {engine next : OmegaEngine} {ops : List EngineOp}
    (done : engine.run ops = some next) : Steps.run after engine ops = next := by
  induction ops generalizing engine with
  | nil => exact Option.some.inj done
  | cons op ops ih =>
    rw [run, List.foldlM_cons] at done
    obtain ⟨middle, first, rest⟩ := Option.bind_eq_some_iff.mp done
    rw [Steps.run_cons, after_of_perform first]
    exact ih rest

section Batch

variable (db table : Str) (rowIds colNames : List Str) (baseIdx : Nat)

theorem batchLoop_poolIdx (i : Nat) (specIndices : List Int) (index : FieldMap CellKey NeuralCell)
    (cells : List ((Str × Str) × NeuralCell))
    (done : (batchLoop db table rowIds colNames baseIdx i specIndices index).2 = some cells) :
    cells.map (fun cell => cell.2.poolIdx) =
      (List.range' (baseIdx + i) specIndices.length).map (· % 2 ^ 64) := by
  induction specIndices generalizing i index cells with
  | nil =>
    obtain rfl : [] = cells := Option.some.inj done
    rfl
  | cons specIdx specIndices ih =>
    rcases found_or_missing rowIds colNames i with ⟨row, col, foundRow, foundCol⟩ | missing
    · rw [batchLoop_found _ _ _ _ _ _ _ foundRow foundCol] at done
      obtain ⟨rest, later, rfl⟩ := Option.map_eq_some_iff.mp done
      rw [List.map_cons, List.length_cons, List.range'_succ, List.map_cons, ih _ _ _ later]
      rfl
    · rw [batchLoop_missing _ _ _ _ _ _ _ missing] at done
      cases done

theorem poolIdx_batchCells (specIndices : List Int) (entry : CellKey × NeuralCell)
    (member : entry ∈ batchCells db table rowIds colNames baseIdx 0 specIndices) :
    ∃ i < specIndices.length, entry.2.poolIdx = (baseIdx + i) % 2 ^ 64 := by
  obtain ⟨⟨⟨⟨row, col⟩, specIdx⟩, i⟩, present, rfl⟩ := List.mem_map.mp member
  have inside := (List.getElem?_eq_some_iff.mp (List.mem_zipIdx_iff_getElem?.mp present)).1
  rw [List.length_zip] at inside
  exact ⟨i, by omega, rfl⟩

end Batch

section Results

variable (engine : OmegaEngine) (db table : Str) (rowIds colNames : List Str)
  (specIndices : List Int)

theorem nextPoolIdx_tryRegisterBatch :
    (engine.tryRegisterBatch db table rowIds colNames specIndices).1.nextPoolIdx =
      (engine.nextPoolIdx + specIndices.length) % 2 ^ 64 := by
  rw [tryRegisterBatch]
  split <;> rfl

theorem results_tryRegisterBatch (results : List Nat)
    (done : (engine.tryRegisterBatch db table rowIds colNames specIndices).2 = some results) :
    results = (List.range' engine.nextPoolIdx specIndices.length).map (· % 2 ^ 64) := by
  rw [tryRegisterBatch] at done
  split at done
  next => cases done
  next cells loop =>
    obtain rfl := Option.some.inj done
    exact batchLoop_poolIdx db table rowIds colNames _ 0 specIndices _ cells
      (congrArg Prod.snd loop)

end Results

theorem attempt_returns (engine : OmegaEngine) (op : EngineOp) (below : BelowMax engine op) :
    ∃ count, (engine.attempt op).2 = List.range' engine.nextPoolIdx count := by
  cases op with
  | registerCell => exact ⟨1, rfl⟩
  | registerBatch db table rowIds colNames specIndices =>
    cases done : (engine.tryRegisterBatch db table rowIds colNames specIndices).2 with
    | none => exact ⟨0, congrArg (Option.getD · []) done⟩
    | some results =>
      have taken := results_tryRegisterBatch _ _ _ _ _ _ results done
      have small : (List.range' engine.nextPoolIdx specIndices.length).map (· % 2 ^ 64) =
          List.range' engine.nextPoolIdx specIndices.length := by
        refine (List.map_congr_left fun poolIdx member => ?_).trans (List.map_id _)
        exact Nat.mod_eq_of_lt (Nat.lt_of_lt_of_le (below poolIdx member) (Nat.sub_le _ _))
      rw [small] at taken
      exact ⟨specIndices.length, (congrArg (Option.getD · []) done).trans taken⟩
  | set | remove | clear => exact ⟨0, rfl⟩

/-- The counter has not wrapped around, and every pool index in use is below it. -/
structure Ahead (engine : OmegaEngine) : Prop where
  fits : engine.nextPoolIdx < 2 ^ 64
  stored : FieldMap.Values (fun cell => cell.poolIdx < engine.nextPoolIdx) engine.index

theorem ahead_new : Ahead new := ⟨by decide, FieldMap.values_empty _⟩

theorem ahead_registerCell (engine : OmegaEngine) (db table row col : Str) (specIdx : Int)
    (ahead : Ahead engine) (below : engine.nextPoolIdx < 2 ^ 64 - 1) :
    Ahead (engine.registerCell db table row col specIdx).1 := by
  have next : (engine.nextPoolIdx + 1) % 2 ^ 64 = engine.nextPoolIdx + 1 :=
    Nat.mod_eq_of_lt (by omega)
  refine ⟨?_, ?_⟩
  · exact Nat.mod_lt _ (by decide)
  · simp only [registerCell, next]
    apply FieldMap.Values.insert
    · exact ahead.stored.mono fun cell used => by omega
    · exact Nat.lt_succ_self _

theorem ahead_set (engine : OmegaEngine) (db table row col : Str) (specIdx : Int) (poolIdx : Nat)
    (ahead : Ahead engine) (below : poolIdx < 2 ^ 64 - 1) :
    Ahead (engine.set db table row col specIdx poolIdx) := by
  have next : (poolIdx + 1) % 2 ^ 64 = poolIdx + 1 := Nat.mod_eq_of_lt (by omega)
  have fits := ahead.fits
  by_cases higher : engine.nextPoolIdx ≤ poolIdx
  · -- The counter jumps over the index that was brought along.
    simp only [set, if_pos higher, next]
    refine ⟨by dsimp only; omega, ?_⟩
    apply FieldMap.Values.insert
    · exact ahead.stored.mono fun cell used =>
        Nat.lt_succ_of_lt (Nat.lt_of_lt_of_le used higher)
    · exact Nat.lt_succ_self _
  · simp only [set, if_neg higher]
    exact ⟨fits, ahead.stored.insert _ _ (Nat.lt_of_not_le higher)⟩

theorem ahead_tryRegisterBatch (engine : OmegaEngine) (db table : Str) (rowIds colNames : List Str)
    (specIndices : List Int) (ahead : Ahead engine)
    (below : ∀ poolIdx ∈ List.range' engine.nextPoolIdx specIndices.length,
      poolIdx < 2 ^ 64 - 1) :
    Ahead (engine.tryRegisterBatch db table rowIds colNames specIndices).1 := by
  have fits := ahead.fits
  have total : engine.nextPoolIdx + specIndices.length < 2 ^ 64 := by
    by_cases empty : specIndices.length = 0
    · omega
    · have last := below (engine.nextPoolIdx + (specIndices.length - 1))
        (List.mem_range'_1.mpr (by omega))
      omega
  have next := nextPoolIdx_tryRegisterBatch engine db table rowIds colNames specIndices
  rw [Nat.mod_eq_of_lt total] at next
  refine ⟨by omega, ?_⟩
  rw [index_tryRegisterBatch, next]
  apply FieldMap.Values.insertAll
  · exact ahead.stored.mono fun cell used => by omega
  · intro entry member
    obtain ⟨i, inside, poolIdx⟩ := poolIdx_batchCells _ _ _ _ _ _ entry member
    rw [poolIdx, Nat.mod_eq_of_lt (by omega)]
    omega

theorem ahead_after (engine : OmegaEngine) (op : EngineOp) (ahead : Ahead engine)
    (below : BelowMax engine op) : Ahead (engine.after op) := by
  cases op with
  | registerCell db table row col specIdx =>
    exact ahead_registerCell engine db table row col specIdx ahead
      (below _ (List.mem_singleton_self _))
  | set db table row col specIdx poolIdx =>
    exact ahead_set engine db table row col specIdx poolIdx ahead
      (below _ (List.mem_singleton_self _))
  | registerBatch db table rowIds colNames specIndices =>
    exact ahead_tryRegisterBatch engine db table rowIds colNames specIndices ahead below
  | remove db table row col => exact ⟨ahead.fits, ahead.stored.erase _⟩
  | clear => exact ahead_new

theorem attempt_fresh (engine : OmegaEngine) (op : EngineOp) (ahead : Ahead engine)
    (below : BelowMax engine op) :
    (engine.attempt op).2.Nodup ∧ ∀ poolIdx ∈ (engine.attempt op).2,
      ∀ key cell, engine.index.lookup key = some cell → cell.poolIdx ≠ poolIdx := by
  obtain ⟨count, returned⟩ := attempt_returns engine op below
  rw [returned]
  refine ⟨List.nodup_range', ?_⟩
  intro poolIdx member key cell found
  have used := ahead.stored key cell found
  have taken := (List.mem_range'_1.mp member).1
  omega

theorem poolIdx_fresh (before later : List EngineOp) (op : EngineOp)
    (below : Steps.Along after BelowMax new (before ++ op :: later)) :
    let engine := Steps.run after new before
    (engine.attempt op).2.Nodup ∧ ∀ poolIdx ∈ (engine.attempt op).2,
      ∀ key cell, engine.index.lookup key = some cell → cell.poolIdx ≠ poolIdx := by
  intro engine
  obtain ⟨earlier, here, _⟩ := (Steps.along_append new before (op :: later)).mp below
  have ahead := Steps.run_invariant ahead_after new before ahead_new earlier
  exact attempt_fresh engine op ahead here

-- A cell is set at index 4, and a batch of two gets the indices 5 and 6.
theorem poolIdx_fresh_batch :
    let engine := new.set oneCell.1 oneCell.2.1 oneCell.2.2.1 oneCell.2.2.2 7 4
    let op := EngineOp.registerBatch oneCell.1 oneCell.2.1 [oneCell.2.2.1, oneCell.2.2.2]
      [oneCell.2.2.1, oneCell.2.2.2] [8, 9]
    (engine.attempt op).2 = [5, 6] ∧ (engine.attempt op).2.Nodup ∧
      ∀ poolIdx ∈ (engine.attempt op).2,
        ∀ key cell, engine.index.lookup key = some cell → cell.poolIdx ≠ poolIdx :=
  ⟨by decide, poolIdx_fresh [.set oneCell.1 oneCell.2.1 oneCell.2.2.1 oneCell.2.2.2 7 4] []
    (.registerBatch oneCell.1 oneCell.2.1 [oneCell.2.2.1, oneCell.2.2.2]
      [oneCell.2.2.1, oneCell.2.2.2] [8, 9]) ⟨by decide, by decide, trivial⟩⟩

end OmegaEngine

end OmegaDrive
