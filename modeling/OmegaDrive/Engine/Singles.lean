import OmegaDrive.Engine.Fresh

set_option autoImplicit false

namespace OmegaDrive

def EngineOp.singles : EngineOp → List EngineOp
  | registerBatch db table rowIds colNames specIndices =>
    ((rowIds.zip colNames).zip specIndices).map fun ((row, col), specIdx) =>
      registerCell db table row col specIdx
  | op => [op]

namespace OmegaEngine

def returned (engine : OmegaEngine) (ops : List EngineOp) : List Nat :=
  Steps.outputs after (fun engine op => (engine.attempt op).2) engine ops

/-- Two engines that no call tells apart: an empty table may be listed in one and missing from the
other. -/
structure Alike (first second : OmegaEngine) : Prop where
  index : first.index = second.index
  entry : ∀ key, first.tableIndex.entry key = second.tableIndex.entry key
  nextPoolIdx : first.nextPoolIdx = second.nextPoolIdx

theorem alike_getTableData {first second : OmegaEngine} (alike : Alike first second)
    (dbName tableName : Str) :
    first.getTableData dbName tableName = second.getTableData dbName tableName := by
  have same : first.reported dbName tableName = second.reported dbName tableName := by
    rw [reported, reported, alike.index, alike.entry]
  rw [getTableData_eq, getTableData_eq, same]

theorem alike_extend {first second : OmegaEngine} (alike : Alike first second) (key : Str × Str)
    (pairs : List (Str × Str)) (other : Str × Str) :
    (first.tableIndex.extend key pairs).entry other =
      (second.tableIndex.extend key pairs).entry other := by
  rw [TableIndex.entry_extend, TableIndex.entry_extend, alike.entry]

theorem alike_after {first second : OmegaEngine} (alike : Alike first second) (op : EngineOp) :
    Alike (first.after op) (second.after op) ∧ (first.attempt op).2 = (second.attempt op).2 := by
  have index := alike.index
  have next := alike.nextPoolIdx
  cases op with
  | registerCell db table row col specIdx =>
    refine ⟨⟨?_, alike_extend alike _ _, ?_⟩, congrArg ([·]) next⟩
    · simp only [after, attempt, registerCell, index, next]
    · simp only [after, attempt, registerCell, next]
  | set db table row col specIdx poolIdx =>
    refine ⟨⟨?_, alike.entry, ?_⟩, rfl⟩
    · simp only [after, attempt, set, index]
    · simp only [after, attempt, set, next]
  | registerBatch db table rowIds colNames specIndices =>
    obtain ⟨cells, firstTables, counter⟩ := first
    obtain ⟨_, secondTables, _⟩ := second
    obtain rfl := index
    obtain rfl := next
    simp only [after, attempt, tryRegisterBatch]
    cases batchLoop db table rowIds colNames counter 0 specIndices cells with
    | mk stored outcome =>
      cases outcome with
      | none => exact ⟨⟨rfl, alike.entry, rfl⟩, rfl⟩
      | some registered => exact ⟨⟨rfl, alike_extend alike _ _, rfl⟩, rfl⟩
  | remove db table row col =>
    refine ⟨⟨congrArg (Finmap.erase _) index, fun key => ?_, next⟩, rfl⟩
    simp only [after, attempt, remove, TableIndex.entry_retain, alike.entry]
  | clear => exact ⟨⟨rfl, fun _ => rfl, rfl⟩, rfl⟩

section Batch

variable (db table : Str)

def single (cell : (Str × Str) × Int) : EngineOp :=
  .registerCell db table cell.1.1 cell.1.2 cell.2

theorem run_singles (cells : List ((Str × Str) × Int)) (baseIdx i : Nat) (engine : OmegaEngine)
    (counter : engine.nextPoolIdx = (baseIdx + i) % 2 ^ 64) :
    Alike (Steps.run after engine (cells.map (single db table)))
        ⟨FieldMap.insertAll engine.index ((cells.zipIdx i).map fun (((row, col), specIdx), i) =>
            ((db, table, row, col), ⟨specIdx, (baseIdx + i) % 2 ^ 64⟩)),
          engine.tableIndex.extend (db, table) (cells.map Prod.fst),
          (baseIdx + i + cells.length) % 2 ^ 64⟩ ∧
      engine.returned (cells.map (single db table)) =
        (List.range' (baseIdx + i) cells.length).map (· % 2 ^ 64) := by
  induction cells generalizing i engine with
  | nil =>
    refine ⟨⟨rfl, fun key => ?_, counter⟩, rfl⟩
    rw [TableIndex.entry_extend]
    simp [Steps.run]
  | cons cell cells ih =>
    have counted : (engine.after (single db table cell)).nextPoolIdx =
        (baseIdx + (i + 1)) % 2 ^ 64 := by
      simp only [after, attempt, single, registerCell, counter]
      omega
    obtain ⟨alike, returns⟩ := ih (i + 1) _ counted
    rw [← Nat.add_assoc] at alike returns
    have stored : (engine.after (single db table cell)).index = engine.index.insert
        (db, table, cell.1.1, cell.1.2) ⟨cell.2, (baseIdx + i) % 2 ^ 64⟩ := by
      rw [← counter]
      rfl
    refine ⟨⟨?_, fun key => ?_, ?_⟩, ?_⟩
    · rw [List.map_cons, Steps.run_cons, alike.index, stored]
      rfl
    · rw [List.map_cons, Steps.run_cons, alike.entry, TableIndex.entry_extend,
        TableIndex.entry_extend]
      simp only [after, attempt, single, registerCell, TableIndex.entry_extend]
      split <;> simp
    · rw [List.map_cons, Steps.run_cons, alike.nextPoolIdx, List.length_cons]
      simp only [Nat.add_assoc, Nat.add_comm 1]
    · rw [List.map_cons, List.length_cons, List.range'_succ, List.map_cons, ← counter, ← returns]
      rfl

end Batch

theorem run_singles_batch (engine next : OmegaEngine) (db table : Str) (rowIds colNames : List Str)
    (specIndices : List Int) (fits : engine.nextPoolIdx < 2 ^ 64)
    (done : engine.perform (.registerBatch db table rowIds colNames specIndices) = some next) :
    let singles := (EngineOp.registerBatch db table rowIds colNames specIndices).singles
    Alike (Steps.run after engine singles) next ∧
      engine.returned singles =
        (engine.attempt (.registerBatch db table rowIds colNames specIndices)).2 := by
  obtain ⟨⟨_, results⟩, made, rfl⟩ := Option.map_eq_some_iff.mp done
  have tables := registerBatch_pairs made
  rw [registerBatch_eq] at made
  obtain ⟨gave, returns, same⟩ := Option.map_eq_some_iff.mp made
  obtain ⟨rfl, rfl⟩ := Prod.mk.inj same
  have sizes := (engine.tryRegisterBatch_isSome db table rowIds colNames specIndices).mp
    (by rw [returns]; rfl)
  obtain ⟨cells, names, _, tables⟩ := tables
  obtain ⟨alike, gives⟩ := run_singles db table ((rowIds.zip colNames).zip specIndices)
    engine.nextPoolIdx 0 engine (Nat.mod_eq_of_lt fits).symm
  have size : ((rowIds.zip colNames).zip specIndices).length = specIndices.length := by
    rw [List.length_zip, List.length_zip]
    omega
  rw [size, Nat.add_zero] at alike gives
  have pairs : ((rowIds.zip colNames).zip specIndices).map Prod.fst = cells.map Prod.fst := by
    have least : min (rowIds.zip colNames).length specIndices.length = specIndices.length := by
      rw [List.length_zip]
      omega
    rw [names, List.zip_eq_zip_take_min, least, List.map_fst_zip]
    rw [List.length_take, List.length_take, Nat.min_self]
    exact Nat.min_le_left _ _
  refine ⟨⟨?_, fun key => ?_, ?_⟩, ?_⟩
  · rw [index_tryRegisterBatch]
    exact alike.index
  · rw [tables, ← pairs]
    exact alike.entry key
  · rw [nextPoolIdx_tryRegisterBatch]
    exact alike.nextPoolIdx
  · rw [← results_tryRegisterBatch _ _ _ _ _ _ gave returns] at gives
    exact gives.trans (congrArg (Option.getD · []) returns).symm

theorem fits_after (engine : OmegaEngine) (op : EngineOp) (fits : engine.nextPoolIdx < 2 ^ 64) :
    (engine.after op).nextPoolIdx < 2 ^ 64 := by
  cases op with
  | registerCell => exact Nat.mod_lt _ (by decide)
  | set db table row col specIdx poolIdx =>
    simp only [after, attempt, set]
    split
    next => exact Nat.mod_lt _ (by decide)
    next => exact fits
  | registerBatch db table rowIds colNames specIndices =>
    exact (nextPoolIdx_tryRegisterBatch engine db table rowIds colNames specIndices).trans_lt
      (Nat.mod_lt _ (by decide))
  | remove => exact fits
  | clear => exact Nat.two_pow_pos 64

theorem singles_step (engine next : OmegaEngine) (op : EngineOp) (fits : engine.nextPoolIdx < 2 ^ 64)
    (done : engine.perform op = some next) :
    Alike (Steps.run after engine op.singles) next ∧
      engine.returned op.singles = (engine.attempt op).2 := by
  cases op with
  | registerBatch db table rowIds colNames specIndices =>
    exact run_singles_batch engine next db table rowIds colNames specIndices fits done
  | registerCell | set | remove | clear =>
    rw [← after_of_perform done]
    exact ⟨⟨rfl, fun _ => rfl, rfl⟩, List.append_nil _⟩

theorem alike_run {first second : OmegaEngine} (alike : Alike first second) (ops : List EngineOp) :
    Alike (Steps.run after first ops) (Steps.run after second ops) ∧
      first.returned ops = second.returned ops := by
  induction ops generalizing first second with
  | nil => exact ⟨alike, rfl⟩
  | cons op ops ih =>
    obtain ⟨next, returns⟩ := alike_after alike op
    obtain ⟨after, later⟩ := ih next
    exact ⟨after, congrArg₂ (· ++ ·) returns later⟩

theorem Alike.trans {first second third : OmegaEngine} (one : Alike first second)
    (other : Alike second third) : Alike first third :=
  ⟨one.index.trans other.index, fun key => (one.entry key).trans (other.entry key),
    one.nextPoolIdx.trans other.nextPoolIdx⟩

theorem singles_run (ops : List EngineOp) (first second engine : OmegaEngine)
    (alike : Alike first second) (fits : second.nextPoolIdx < 2 ^ 64)
    (done : second.run ops = some engine) :
    Alike (Steps.run after first (ops.flatMap EngineOp.singles)) engine ∧
      first.returned (ops.flatMap EngineOp.singles) = second.returned ops := by
  induction ops generalizing first second with
  | nil =>
    obtain rfl := Option.some.inj done
    exact ⟨alike, rfl⟩
  | cons op ops ih =>
    rw [run, List.foldlM_cons] at done
    obtain ⟨middle, performed, rest⟩ := Option.bind_eq_some_iff.mp done
    obtain ⟨step, gave⟩ := singles_step second middle op fits performed
    obtain ⟨along, same⟩ := alike_run alike op.singles
    have reached := after_of_perform performed
    obtain ⟨last, later⟩ := ih _ middle (along.trans step)
      (by rw [← reached]; exact fits_after second op fits) rest
    rw [List.flatMap_cons, Steps.run_append]
    refine ⟨last, ?_⟩
    rw [returned, Steps.outputs_append]
    have whole : second.returned (op :: ops) =
        (second.attempt op).2 ++ (second.after op).returned ops := rfl
    rw [whole, reached, ← later, ← gave, ← same]
    rfl

theorem singles_alike (ops : List EngineOp) (engine : OmegaEngine)
    (done : new.run ops = some engine) (dbName tableName : Str) (later : List EngineOp) :
    let single := Steps.run after new (ops.flatMap EngineOp.singles)
    new.returned (ops.flatMap EngineOp.singles) = new.returned ops ∧
      single.index = engine.index ∧
      single.getTableData dbName tableName = engine.getTableData dbName tableName ∧
      single.returned later = engine.returned later := by
  obtain ⟨alike, same⟩ := singles_run ops new new engine ⟨rfl, fun _ => rfl, rfl⟩
    (Nat.two_pow_pos 64) done
  exact ⟨same, alike.index, alike_getTableData alike dbName tableName, (alike_run alike later).2⟩

-- The batch of two gets the indices behind the one that was set.
theorem singles_alike_batch :
    let ops := [EngineOp.set oneCell.1 oneCell.2.1 oneCell.2.2.1 oneCell.2.2.2 7 4,
      .registerBatch oneCell.1 oneCell.2.1 [oneCell.2.2.1, oneCell.2.2.2]
        [oneCell.2.2.1, oneCell.2.2.2] [8, 9]]
    ∃ engine, new.run ops = some engine ∧ new.returned ops = [5, 6] ∧
      new.returned (ops.flatMap EngineOp.singles) = new.returned ops :=
  ⟨_, rfl, by decide, (singles_alike
    [.set oneCell.1 oneCell.2.1 oneCell.2.2.1 oneCell.2.2.2 7 4,
      .registerBatch oneCell.1 oneCell.2.1 [oneCell.2.2.1, oneCell.2.2.2]
        [oneCell.2.2.1, oneCell.2.2.2] [8, 9]] _ rfl oneCell.1 oneCell.2.1 []).1⟩

end OmegaEngine

end OmegaDrive
