import OmegaDrive.Engine.Index
import OmegaDrive.Shared.OptionLoop

set_option autoImplicit false

namespace OmegaDrive

namespace OmegaEngine

section Loop

variable (db table : Str) (rowIds colNames : List Str) (baseIdx : Nat)

/-- The turns from `i` on: the index after them, and the cells unless a row or a column is missing.
-/
def batchLoop : Nat → List Int → FieldMap CellKey NeuralCell →
    FieldMap CellKey NeuralCell × Option (List ((Str × Str) × NeuralCell))
  | _, [], index => (index, some [])
  | i, specIdx :: specIndices, index =>
    match rowIds[i]?, colNames[i]? with
    | some row, some col =>
      let cell : NeuralCell := ⟨specIdx, (baseIdx + i) % 2 ^ 64⟩
      let (index, cells) :=
        batchLoop (i + 1) specIndices (index.insert (db, table, row, col) cell)
      (index, cells.map fun cells => ((row, col), cell) :: cells)
    | _, _ => (index, none)

-- The cells that have both a row and a column.
def batchCells (i : Nat) (specIndices : List Int) : List (CellKey × NeuralCell) :=
  ((((rowIds.drop i).zip (colNames.drop i)).zip specIndices).zipIdx i).map
    fun (((row, col), specIdx), i) => ((db, table, row, col), ⟨specIdx, (baseIdx + i) % 2 ^ 64⟩)

theorem found_or_missing (i : Nat) :
    (∃ row col, rowIds[i]? = some row ∧ colNames[i]? = some col) ∨
      rowIds.length ≤ i ∨ colNames.length ≤ i := by
  by_cases rows : rowIds.length ≤ i
  · exact .inr (.inl rows)
  · by_cases cols : colNames.length ≤ i
    · exact .inr (.inr cols)
    · exact .inl ⟨_, _, List.getElem?_eq_getElem (by omega), List.getElem?_eq_getElem (by omega)⟩

variable {rowIds colNames}

theorem batchLoop_found (i : Nat) (specIdx : Int) (specIndices : List Int)
    (index : FieldMap CellKey NeuralCell) {row col : Str} (foundRow : rowIds[i]? = some row)
    (foundCol : colNames[i]? = some col) :
    batchLoop db table rowIds colNames baseIdx i (specIdx :: specIndices) index =
      let next := batchLoop db table rowIds colNames baseIdx (i + 1) specIndices
        (index.insert (db, table, row, col) ⟨specIdx, (baseIdx + i) % 2 ^ 64⟩)
      (next.1, next.2.map fun cells =>
        ((row, col), ⟨specIdx, (baseIdx + i) % 2 ^ 64⟩) :: cells) := by
  rw [batchLoop, foundRow, foundCol]

theorem batchLoop_missing (i : Nat) (specIdx : Int) (specIndices : List Int)
    (index : FieldMap CellKey NeuralCell) (missing : rowIds.length ≤ i ∨ colNames.length ≤ i) :
    batchLoop db table rowIds colNames baseIdx i (specIdx :: specIndices) index = (index, none) := by
  rw [batchLoop]
  rcases missing with rows | cols
  · rw [List.getElem?_eq_none rows]
  · rw [List.getElem?_eq_none cols]
    cases rowIds[i]? <;> rfl

theorem batchCells_found (i : Nat) (specIdx : Int) (specIndices : List Int) {row col : Str}
    (foundRow : rowIds[i]? = some row) (foundCol : colNames[i]? = some col) :
    batchCells db table rowIds colNames baseIdx i (specIdx :: specIndices) =
      ((db, table, row, col), ⟨specIdx, (baseIdx + i) % 2 ^ 64⟩) ::
        batchCells db table rowIds colNames baseIdx (i + 1) specIndices := by
  obtain ⟨rowInside, rfl⟩ := List.getElem?_eq_some_iff.mp foundRow
  obtain ⟨colInside, rfl⟩ := List.getElem?_eq_some_iff.mp foundCol
  unfold batchCells
  rw [List.drop_eq_getElem_cons rowInside, List.drop_eq_getElem_cons colInside]
  rfl

theorem batchCells_missing (i : Nat) (specIndices : List Int)
    (missing : rowIds.length ≤ i ∨ colNames.length ≤ i) :
    batchCells db table rowIds colNames baseIdx i specIndices = [] := by
  rcases missing with rows | cols
  · simp [batchCells, List.drop_eq_nil_of_le rows]
  · simp [batchCells, List.drop_eq_nil_of_le cols]

variable (rowIds colNames)

theorem batchLoop_index (i : Nat) (specIndices : List Int) (index : FieldMap CellKey NeuralCell) :
    (batchLoop db table rowIds colNames baseIdx i specIndices index).1 =
      FieldMap.insertAll index (batchCells db table rowIds colNames baseIdx i specIndices) := by
  induction specIndices generalizing i index with
  | nil => simp [batchLoop, batchCells]
  | cons specIdx specIndices ih =>
    rcases found_or_missing rowIds colNames i with ⟨row, col, foundRow, foundCol⟩ | missing
    · rw [batchLoop_found _ _ _ _ _ _ _ foundRow foundCol,
        batchCells_found _ _ _ _ _ _ foundRow foundCol, FieldMap.insertAll_cons, ← ih]
    · rw [batchLoop_missing _ _ _ _ _ _ _ missing, batchCells_missing _ _ _ _ _ missing,
        FieldMap.insertAll_nil]

theorem batchLoop_completes (i : Nat) (specIndices : List Int)
    (index : FieldMap CellKey NeuralCell) :
    (batchLoop db table rowIds colNames baseIdx i specIndices index).2.isSome ↔
      specIndices.length ≤ rowIds.length - i ∧ specIndices.length ≤ colNames.length - i := by
  induction specIndices generalizing i index with
  | nil => simp [batchLoop]
  | cons specIdx specIndices ih =>
    rcases found_or_missing rowIds colNames i with ⟨row, col, foundRow, foundCol⟩ | missing
    · have rowInside := (List.getElem?_eq_some_iff.mp foundRow).1
      have colInside := (List.getElem?_eq_some_iff.mp foundCol).1
      rw [batchLoop_found _ _ _ _ _ _ _ foundRow foundCol, Option.isSome_map, ih,
        List.length_cons]
      omega
    · rw [batchLoop_missing _ _ _ _ _ _ _ missing, List.length_cons]
      simp only [Option.isSome_none, Bool.false_eq_true, false_iff]
      omega

theorem batchLoop_cells (i : Nat) (specIndices : List Int) (index : FieldMap CellKey NeuralCell) :
    (batchLoop db table rowIds colNames baseIdx i specIndices index).2 =
      (specIndices.zipIdx i).mapM fun (specIdx, i) => do
        let row ← rowIds[i]?
        let col ← colNames[i]?
        return ((row, col), (⟨specIdx, (baseIdx + i) % 2 ^ 64⟩ : NeuralCell)) := by
  induction specIndices generalizing i index with
  | nil => rfl
  | cons specIdx specIndices ih =>
    rw [List.zipIdx_cons, List.mapM_cons]
    rcases found_or_missing rowIds colNames i with ⟨row, col, foundRow, foundCol⟩ | missing
    · rw [batchLoop_found _ _ _ _ _ _ _ foundRow foundCol]
      simp [foundRow, foundCol, ih, Option.map_eq_bind]
    · rw [batchLoop_missing _ _ _ _ _ _ _ missing]
      rcases missing with rows | cols
      · simp [List.getElem?_eq_none rows]
      · simp [List.getElem?_eq_none cols]

theorem batchCells_eq (i : Nat) (specIndices : List Int) (index : FieldMap CellKey NeuralCell)
    (cells : List ((Str × Str) × NeuralCell))
    (done : (batchLoop db table rowIds colNames baseIdx i specIndices index).2 = some cells) :
    batchCells db table rowIds colNames baseIdx i specIndices =
      cells.map fun (pair, cell) => ((db, table, pair.1, pair.2), cell) := by
  induction specIndices generalizing i index cells with
  | nil =>
    obtain rfl : [] = cells := Option.some.inj done
    simp [batchCells]
  | cons specIdx specIndices ih =>
    rcases found_or_missing rowIds colNames i with ⟨row, col, foundRow, foundCol⟩ | missing
    · rw [batchLoop_found _ _ _ _ _ _ _ foundRow foundCol] at done
      obtain ⟨rest, later, rfl⟩ := Option.map_eq_some_iff.mp done
      rw [batchCells_found _ _ _ _ _ _ foundRow foundCol, ih _ _ _ later, List.map_cons]
    · rw [batchLoop_missing _ _ _ _ _ _ _ missing] at done
      cases done

end Loop

-- `register_batch` with the state a panic leaves: the pool indices are taken, and the cells before
-- the one that is missing are in the index.
def tryRegisterBatch (engine : OmegaEngine) (db table : Str) (rowIds colNames : List Str)
    (specIndices : List Int) : OmegaEngine × Option (List Nat) :=
  let baseIdx := engine.nextPoolIdx
  let nextPoolIdx := (baseIdx + specIndices.length) % 2 ^ 64
  match batchLoop db table rowIds colNames baseIdx 0 specIndices engine.index with
  | (index, none) => ({ engine with index, nextPoolIdx }, none)
  | (index, some cells) =>
    ({ index, tableIndex := engine.tableIndex.extend (db, table) (cells.map Prod.fst), nextPoolIdx },
      some (cells.map fun (_, cell) => cell.poolIdx))

section Results

variable (engine : OmegaEngine) (db table : Str) (rowIds colNames : List Str)
  (specIndices : List Int)

theorem registerBatch_eq :
    engine.registerBatch db table rowIds colNames specIndices =
      (engine.tryRegisterBatch db table rowIds colNames specIndices).2.map fun results =>
        ((engine.tryRegisterBatch db table rowIds colNames specIndices).1, results) := by
  have read := batchLoop_cells db table rowIds colNames
    engine.nextPoolIdx 0 specIndices engine.index
  have stored := batchLoop_index db table rowIds colNames
    engine.nextPoolIdx 0 specIndices engine.index
  have listed := batchCells_eq db table rowIds colNames
    engine.nextPoolIdx 0 specIndices engine.index
  rw [registerBatch, ← read, tryRegisterBatch]
  generalize batchLoop db table rowIds colNames engine.nextPoolIdx 0 specIndices engine.index =
    outcome at stored listed ⊢
  obtain ⟨index, cells⟩ := outcome
  cases cells with
  | none => rfl
  | some cells =>
    rw [listed cells rfl] at stored
    simpa using stored.symm

theorem index_tryRegisterBatch :
    (engine.tryRegisterBatch db table rowIds colNames specIndices).1.index =
      FieldMap.insertAll engine.index
        (batchCells db table rowIds colNames engine.nextPoolIdx 0 specIndices) := by
  rw [← batchLoop_index, tryRegisterBatch]
  split
  next run => rw [run]
  next run => rw [run]

theorem tryRegisterBatch_isSome :
    (engine.tryRegisterBatch db table rowIds colNames specIndices).2.isSome ↔
      specIndices.length ≤ rowIds.length ∧ specIndices.length ≤ colNames.length := by
  have completes := batchLoop_completes db table rowIds colNames
    engine.nextPoolIdx 0 specIndices engine.index
  rw [← Nat.sub_zero rowIds.length, ← Nat.sub_zero colNames.length, ← completes, tryRegisterBatch]
  split
  next run => simp [run]
  next run => simp [run]

theorem tableIndex_tryRegisterBatch
    (stopped : (engine.tryRegisterBatch db table rowIds colNames specIndices).2 = none) :
    (engine.tryRegisterBatch db table rowIds colNames specIndices).1.tableIndex =
      engine.tableIndex := by
  rw [tryRegisterBatch] at stopped ⊢
  generalize batchLoop db table rowIds colNames engine.nextPoolIdx 0 specIndices engine.index =
    outcome at stopped ⊢
  obtain ⟨index, cells⟩ := outcome
  cases cells with
  | none => rfl
  | some cells => cases stopped

theorem registerBatch_atomic_iff :
    ((engine.tryRegisterBatch db table rowIds colNames specIndices).2.isSome ∨
        (engine.tryRegisterBatch db table rowIds colNames specIndices).1.index = engine.index ∧
          (engine.tryRegisterBatch db table rowIds colNames specIndices).1.tableIndex =
            engine.tableIndex) ↔
      specIndices.length ≤ rowIds.length ∧ specIndices.length ≤ colNames.length ∨
        ∀ key cell, FieldMap.lastValue key (batchCells db table rowIds colNames
          engine.nextPoolIdx 0 specIndices) = some cell → engine.index.lookup key = some cell := by
  rw [← FieldMap.insertAll_eq_self_iff, ← index_tryRegisterBatch, ← tryRegisterBatch_isSome]
  constructor
  · rintro (completed | ⟨same, _⟩)
    · exact .inl completed
    · exact .inr same
  · rintro (completed | same)
    · exact .inl completed
    · cases stopped : (engine.tryRegisterBatch db table rowIds colNames specIndices).2 with
      | none => exact .inr ⟨same, tableIndex_tryRegisterBatch _ _ _ _ _ _ stopped⟩
      | some results => exact .inl rfl

end Results

-- Two specs and one row: the first cell is stored, and no table lists it.
theorem registerBatch_half :
    ¬ ((new.tryRegisterBatch ⟨ascii "k", validUtf8_k⟩ ⟨ascii "k", validUtf8_k⟩
          [⟨ascii "k", validUtf8_k⟩] [⟨ascii "k", validUtf8_k⟩, ⟨ascii "v", validUtf8_v⟩]
          [7, 7]).2.isSome ∨
        (new.tryRegisterBatch ⟨ascii "k", validUtf8_k⟩ ⟨ascii "k", validUtf8_k⟩
            [⟨ascii "k", validUtf8_k⟩] [⟨ascii "k", validUtf8_k⟩, ⟨ascii "v", validUtf8_v⟩]
            [7, 7]).1.index = new.index ∧
          (new.tryRegisterBatch ⟨ascii "k", validUtf8_k⟩ ⟨ascii "k", validUtf8_k⟩
            [⟨ascii "k", validUtf8_k⟩] [⟨ascii "k", validUtf8_k⟩, ⟨ascii "v", validUtf8_v⟩]
            [7, 7]).1.tableIndex = new.tableIndex) := by
  decide

end OmegaEngine

end OmegaDrive
