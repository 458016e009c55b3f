import OmegaDrive.Engine.Index
import OmegaDrive.Shared.OptionLoop

set_option autoImplicit false

namespace OmegaDrive

inductive EngineOp where
  | registerCell (db table row col : Str) (specIdx : Int)
  | set (db table row col : Str) (specIdx : Int) (poolIdx : Nat)
  | registerBatch (db table : Str) (rowIds colNames : List Str) (specIndices : List Int)
  | remove (db table row col : Str)
  | clear

namespace EngineOp

def registered : EngineOp → List CellKey
  | registerCell db table row col _ => [(db, table, row, col)]
  | registerBatch db table rowIds colNames specIndices =>
    ((rowIds.zip colNames).take specIndices.length).map fun pair => (db, table, pair)
  | set .. | remove .. | clear => []

def stored : EngineOp → List CellKey
  | set db table row col _ _ => [(db, table, row, col)]
  | op => op.registered

def drops (key : CellKey) : EngineOp → Bool
  | remove db table row col => (db, table, row, col) = key
  | clear => true
  | registerCell .. | set .. | registerBatch .. => false

end EngineOp

/-- How often a cell was registered since it was last removed. -/
def registrations (key : CellKey) (ops : List EngineOp) : Nat :=
  ops.foldl (fun count op => if op.drops key then 0 else count + op.registered.count key) 0

def live (key : CellKey) (ops : List EngineOp) : Bool :=
  ops.foldl (fun stored op => !op.drops key && (stored || decide (key ∈ op.stored))) false

theorem registrations_concat (key : CellKey) (ops : List EngineOp) (op : EngineOp) :
    registrations key (ops ++ [op]) =
      if op.drops key then 0 else registrations key ops + op.registered.count key := by
  rw [registrations, List.foldl_append]
  rfl

theorem live_concat (key : CellKey) (ops : List EngineOp) (op : EngineOp) :
    live key (ops ++ [op]) = true ↔
      op.drops key = false ∧ (live key ops = true ∨ key ∈ op.stored) := by
  rw [live, List.foldl_append]
  simp [live]

theorem mem_stored (key : CellKey) (op : EngineOp) (member : key ∈ op.registered) :
    key ∈ op.stored := by
  cases op with
  | set => cases member
  | registerCell | registerBatch | remove | clear => exact member

theorem stored_of_live (key : CellKey) (ops : List EngineOp) (alive : live key ops = true) :
    key ∈ ops.flatMap EngineOp.stored := by
  induction ops using List.reverseRecOn with
  | nil => cases alive
  | append_singleton ops op ih =>
    rw [List.flatMap_append, List.mem_append]
    rcases ((live_concat key ops op).mp alive).2 with earlier | now
    · exact .inl (ih earlier)
    · exact .inr (List.mem_flatMap.mpr ⟨op, List.mem_singleton_self _, now⟩)

theorem live_of_registered (key : CellKey) (ops : List EngineOp)
    (registered : 0 < registrations key ops) : live key ops = true := by
  induction ops using List.reverseRecOn with
  | nil => simp [registrations] at registered
  | append_singleton ops op ih =>
    rw [registrations_concat] at registered
    split at registered
    next => omega
    next kept =>
      refine (live_concat key ops op).mpr ⟨Bool.eq_false_of_not_eq_true kept, ?_⟩
      by_cases earlier : 0 < registrations key ops
      · exact .inl (ih earlier)
      · exact .inr (mem_stored key op (List.count_pos_iff.mp (by omega)))

namespace OmegaEngine

-- Nothing when the operation panics.
def perform (engine : OmegaEngine) : EngineOp → Option OmegaEngine
  | .registerCell db table row col specIdx => (engine.registerCell db table row col specIdx).1
  | .set db table row col specIdx poolIdx => engine.set db table row col specIdx poolIdx
  | .registerBatch db table rowIds colNames specIndices =>
    (engine.registerBatch db table rowIds colNames specIndices).map Prod.fst
  | .remove db table row col => engine.remove db table row col
  | .clear => engine.clear

def run (engine : OmegaEngine) (ops : List EngineOp) : Option OmegaEngine :=
  ops.foldlM perform engine

def listedTimes (engine : OmegaEngine) (key : CellKey) : Nat :=
  (engine.tableIndex.entry (key.1, key.2.1)).count key.2.2

theorem registerBatch_pairs {engine next : OmegaEngine} {db table : Str}
    {rowIds colNames : List Str} {specIndices : List Int} {results : List Nat}
    (done : engine.registerBatch db table rowIds colNames specIndices = some (next, results)) :
    ∃ cells : List ((Str × Str) × NeuralCell),
      cells.map Prod.fst = (rowIds.zip colNames).take specIndices.length ∧
      next.index = FieldMap.insertAll engine.index
        (cells.map fun cell => ((db, table, cell.1.1, cell.1.2), cell.2)) ∧
      next.tableIndex = engine.tableIndex.extend (db, table) (cells.map Prod.fst) := by
  obtain ⟨cells, visited, made⟩ := Option.bind_eq_some_iff.mp done
  obtain ⟨rfl, rfl⟩ := Prod.mk.inj (Option.some.inj made)
  refine ⟨cells, List.ext_getElem? fun i => ?_, rfl, rfl⟩
  have steps := OptionLoop.mapM_steps _ _ _ visited
  have size := steps.length_eq
  rw [List.length_zipIdx] at size
  by_cases inside : i < specIndices.length
  · have present := List.getElem?_eq_getElem (l := cells) (i := i) (by omega)
    obtain ⟨⟨specIdx, idx⟩, found, taken⟩ := OptionLoop.related_getElem? steps i _ present
    obtain ⟨_, rfl⟩ : _ ∧ i = idx := by
      simpa [List.getElem?_zipIdx, inside] using found
    obtain ⟨row, rowFound, taken⟩ := Option.bind_eq_some_iff.mp taken
    obtain ⟨col, colFound, taken⟩ := Option.bind_eq_some_iff.mp taken
    have pair := congrArg Prod.fst (Option.some.inj taken)
    have zipped : (rowIds.zip colNames)[i]? = some (row, col) :=
      List.getElem?_zip_eq_some.mpr ⟨rowFound, colFound⟩
    rw [List.getElem?_map, present, List.getElem?_take_of_lt inside, zipped]
    exact congrArg some pair.symm
  · rw [List.getElem?_eq_none (by rw [List.length_map]; omega),
      List.getElem?_eq_none (by rw [List.length_take]; omega)]

theorem count_cells (db table : Str) (pairs : List (Str × Str)) (key : CellKey) :
    (pairs.map fun pair => (db, table, pair)).count key =
      if (key.1, key.2.1) = (db, table) then pairs.count key.2.2 else 0 := by
  obtain ⟨keyDb, keyTable, pair⟩ := key
  split
  next here =>
    obtain ⟨rfl, rfl⟩ := Prod.mk.inj here
    exact List.count_map_of_injective pairs _
      (fun _ _ same => (Prod.mk.inj (Prod.mk.inj same).2).2) pair
  next elsewhere =>
    refine List.count_eq_zero.mpr fun member => elsewhere ?_
    obtain ⟨_, _, same⟩ := List.mem_map.mp member
    obtain ⟨rfl, rfl, _⟩ := Prod.mk.inj same
    rfl

theorem listedTimes_extend (engine : OmegaEngine) (db table : Str) (pairs : List (Str × Str))
    (key : CellKey) :
    ((engine.tableIndex.extend (db, table) pairs).entry (key.1, key.2.1)).count key.2.2 =
      engine.listedTimes key + (pairs.map fun pair => (db, table, pair)).count key := by
  rw [TableIndex.entry_extend, count_cells, listedTimes]
  split
  next => rw [List.count_append]
  next => rfl

theorem listedTimes_remove (engine : OmegaEngine) (db table row col : Str) (key : CellKey) :
    (engine.remove db table row col).listedTimes key =
      if (db, table, row, col) = key then 0 else engine.listedTimes key := by
  obtain ⟨keyDb, keyTable, keyRow, keyCol⟩ := key
  simp only [listedTimes, remove, TableIndex.entry_retain]
  by_cases here : (keyDb, keyTable) = (db, table)
  · obtain ⟨rfl, rfl⟩ := Prod.mk.inj here
    by_cases same : (row, col) = (keyRow, keyCol)
    · obtain ⟨rfl, rfl⟩ := Prod.mk.inj same
      simp [List.count_eq_zero]
    · rw [if_pos rfl, if_neg fun equal => same (Prod.mk.inj (Prod.mk.inj equal).2).2]
      have differ : ¬(keyRow = row ∧ keyCol = col) := fun ⟨sameRow, sameCol⟩ =>
        same (by rw [sameRow, sameCol])
      apply List.count_filter
      rw [Bool.or_eq_true, decide_eq_true_eq, decide_eq_true_eq]
      exact not_and_or.mp differ
  · rw [if_neg here, if_neg fun equal => here ?_]
    obtain ⟨rfl, rfl, _⟩ := Prod.mk.inj equal
    rfl

theorem perform_listedTimes {engine next : OmegaEngine} {op : EngineOp}
    (done : engine.perform op = some next) (key : CellKey) :
    next.listedTimes key =
      if op.drops key then 0 else engine.listedTimes key + op.registered.count key := by
  cases op with
  | registerCell db table row col specIdx =>
    obtain rfl := Option.some.inj done
    exact listedTimes_extend engine db table [(row, col)] key
  | set =>
    obtain rfl := Option.some.inj done
    rfl
  | registerBatch db table rowIds colNames specIndices =>
    obtain ⟨⟨result, _⟩, made, rfl⟩ := Option.map_eq_some_iff.mp done
    obtain ⟨cells, names, _, tables⟩ := registerBatch_pairs made
    rw [listedTimes, tables, names]
    exact listedTimes_extend engine db table _ key
  | remove db table row col =>
    obtain rfl := Option.some.inj done
    rw [listedTimes_remove]
    simp [EngineOp.drops, EngineOp.registered]
  | clear =>
    obtain rfl := Option.some.inj done
    rfl

theorem perform_mem {engine next : OmegaEngine} {op : EngineOp}
    (done : engine.perform op = some next) (key : CellKey) :
    key ∈ next.index ↔ op.drops key = false ∧ (key ∈ engine.index ∨ key ∈ op.stored) := by
  cases op with
  | registerCell db table row col specIdx =>
    obtain rfl := Option.some.inj done
    simp [registerCell, EngineOp.drops, EngineOp.stored, EngineOp.registered, or_comm]
  | set db table row col specIdx poolIdx =>
    obtain rfl := Option.some.inj done
    simp [set, EngineOp.drops, EngineOp.stored, or_comm]
  | registerBatch db table rowIds colNames specIndices =>
    obtain ⟨⟨result, _⟩, made, rfl⟩ := Option.map_eq_some_iff.mp done
    obtain ⟨cells, names, index, _⟩ := registerBatch_pairs made
    rw [index, FieldMap.mem_insertAll]
    simp [EngineOp.drops, EngineOp.stored, EngineOp.registered, ← names, or_comm]
  | remove db table row col =>
    obtain rfl := Option.some.inj done
    simp [remove, EngineOp.drops, EngineOp.stored, EngineOp.registered, eq_comm]
  | clear =>
    obtain rfl := Option.some.inj done
    simp [clear, new, EngineOp.drops, Finmap.notMem_empty]

theorem run_kept {engine : OmegaEngine} {ops : List EngineOp} (done : new.run ops = some engine)
    (key : CellKey) : engine.listedTimes key = registrations key ops ∧
      (key ∈ engine.index ↔ live key ops = true) := by
  induction ops using List.reverseRecOn generalizing engine with
  | nil =>
    obtain rfl := Option.some.inj done
    exact ⟨rfl, by simp [new, live, Finmap.notMem_empty]⟩
  | append_singleton ops op ih =>
    rw [run, List.foldlM_append] at done
    obtain ⟨before, ran, last⟩ := Option.bind_eq_some_iff.mp done
    obtain ⟨counted, present⟩ := ih ran
    have step : before.perform op = some engine := by simpa using last
    constructor
    · rw [perform_listedTimes step, counted, registrations_concat]
    · rw [perform_mem step, present, live_concat]

def reported (engine : OmegaEngine) (dbName tableName : Str) : List ((Str × Str) × Int × Nat) :=
  (engine.tableIndex.entry (dbName, tableName)).filterMap fun pair =>
    (engine.index.lookup (dbName, tableName, pair)).map fun v => (pair, v.specIdx, v.poolIdx)

theorem getTableData_eq (engine : OmegaEngine) (dbName tableName : Str) :
    engine.getTableData dbName tableName =
      ((engine.reported dbName tableName).flatMap fun cell => cellBytes cell.1,
        (engine.reported dbName tableName).map fun cell => cell.2.1,
        (engine.reported dbName tableName).map fun cell => cell.2.2) := by
  have all (pairs : List (Str × Str)) (metaBlob : Bytes) (sIndices : List Int)
      (pIndices : List Nat) :
      pairs.foldl (engine.listPair dbName tableName) (metaBlob, sIndices, pIndices) =
        let cells := pairs.filterMap fun pair =>
          (engine.index.lookup (dbName, tableName, pair)).map fun v =>
            (pair, v.specIdx, v.poolIdx)
        (metaBlob ++ cells.flatMap fun cell => cellBytes cell.1,
          sIndices ++ cells.map fun cell => cell.2.1,
          pIndices ++ cells.map fun cell => cell.2.2) := by
    induction pairs generalizing metaBlob sIndices pIndices with
    | nil => simp
    | cons pair pairs ih =>
      rw [List.foldl_cons, List.filterMap_cons]
      cases found : engine.index.lookup (dbName, tableName, pair) with
      | none =>
        simp only [listPair, found]
        exact ih _ _ _
      | some v =>
        simp only [listPair, found, Option.map_some]
        rw [ih]
        simp [cellBytes]
  unfold getTableData reported TableIndex.entry
  cases engine.tableIndex.lookup (dbName, tableName) with
  | none => rfl
  | some pairs => exact all pairs [] [] []

theorem reported_pairs (engine : OmegaEngine) (dbName tableName : Str)
    (indexed : ∀ pair ∈ engine.tableIndex.entry (dbName, tableName),
      (dbName, tableName, pair) ∈ engine.index) :
    (engine.reported dbName tableName).map Prod.fst =
      engine.tableIndex.entry (dbName, tableName) := by
  rw [reported, List.map_filterMap]
  refine (List.filterMap_congr fun pair member => ?_).trans (List.filterMap_some ..)
  obtain ⟨cell, found⟩ := Finmap.mem_iff.mp (indexed pair member)
  rw [found]
  rfl

theorem mem_reported (engine : OmegaEngine) (dbName tableName : Str) (pair : Str × Str)
    (specIdx : Int) (poolIdx : Nat) :
    (pair, specIdx, poolIdx) ∈ engine.reported dbName tableName ↔
      pair ∈ engine.tableIndex.entry (dbName, tableName) ∧
        engine.index.lookup (dbName, tableName, pair) = some ⟨specIdx, poolIdx⟩ := by
  rw [reported, List.mem_filterMap]
  constructor
  · rintro ⟨other, member, made⟩
    obtain ⟨cell, found, same⟩ := Option.map_eq_some_iff.mp made
    cases same
    exact ⟨member, found⟩
  · rintro ⟨member, found⟩
    exact ⟨pair, member, by rw [found]; rfl⟩

def tableEntries (dbName tableName : Str) (entries : List (CellKey × (Int × Nat))) :
    List ((Str × Str) × Int × Nat) :=
  entries.filterMap fun (key, indices) =>
    if (key.1, key.2.1) = (dbName, tableName) then some (key.2.2, indices) else none

theorem tableEntries_pairs (engine : OmegaEngine) (dbName tableName : Str)
    (iterated : List (CellKey × NeuralCell)) (all : FieldMap.Enumerates iterated engine.index) :
    ((tableEntries dbName tableName (getAllEntries iterated)).map Prod.fst).Nodup := by
  have names : (tableEntries dbName tableName (getAllEntries iterated)).map Prod.fst =
      (iterated.map Prod.fst).filterMap fun key =>
        if (key.1, key.2.1) = (dbName, tableName) then some key.2.2 else none := by
    rw [tableEntries, getAllEntries, List.map_filterMap, List.filterMap_map, List.filterMap_map]
    apply List.filterMap_congr
    intro entry _
    simp only [Function.comp_apply]
    split <;> rfl
  rw [names]
  apply all.1.filterMap
  intro first second pair fromFirst fromSecond
  obtain ⟨sameFirst, rfl⟩ : _ ∧ first.2.2 = pair := by simpa using fromFirst
  obtain ⟨sameSecond, equal⟩ : _ ∧ second.2.2 = first.2.2 := by simpa using fromSecond
  refine Prod.ext (sameFirst.1.trans sameSecond.1.symm) (Prod.ext ?_ equal.symm)
  exact sameFirst.2.trans sameSecond.2.symm

theorem mem_tableEntries (engine : OmegaEngine) (dbName tableName : Str)
    (iterated : List (CellKey × NeuralCell)) (all : FieldMap.Enumerates iterated engine.index)
    (pair : Str × Str) (specIdx : Int) (poolIdx : Nat) :
    (pair, specIdx, poolIdx) ∈ tableEntries dbName tableName (getAllEntries iterated) ↔
      engine.index.lookup (dbName, tableName, pair) = some ⟨specIdx, poolIdx⟩ := by
  rw [← all.2, tableEntries, getAllEntries, List.filterMap_map, List.mem_filterMap]
  constructor
  · rintro ⟨⟨⟨db, table, other⟩, cell⟩, member, made⟩
    obtain ⟨⟨rfl, rfl⟩, rfl, rfl, rfl⟩ : (db = dbName ∧ table = tableName) ∧
        other = pair ∧ cell.specIdx = specIdx ∧ cell.poolIdx = poolIdx := by simpa using made
    exact member
  · intro member
    refine ⟨_, member, ?_⟩
    simp

def Shows (data : Bytes × List Int × List Nat) (cells : List ((Str × Str) × Int × Nat)) : Prop :=
  readCells data.1 = some (cells.map fun cell => (cell.1.1.bytes, cell.1.2.bytes)) ∧
    data.2.1 = cells.map (fun cell => cell.2.1) ∧ data.2.2 = cells.map (fun cell => cell.2.2)

-- Every table lists exactly its own entries, each once.
def TablesListed (engine : OmegaEngine) : Prop :=
  ∀ iterated, FieldMap.Enumerates iterated engine.index → ∀ dbName tableName, ∃ cells,
    Shows (engine.getTableData dbName tableName) cells ∧
      cells.Perm (tableEntries dbName tableName (getAllEntries iterated))

theorem bytes_injective :
    Function.Injective fun cell : Str × Str => (cell.1.bytes, cell.2.bytes) := by
  rintro ⟨⟨row, _⟩, ⟨col, _⟩⟩ ⟨⟨otherRow, _⟩, ⟨otherCol, _⟩⟩ same
  obtain ⟨rfl, rfl⟩ : row = otherRow ∧ col = otherCol := by simpa using same
  rfl

-- Every pair of the table index has its cell in the index.
def Indexed (engine : OmegaEngine) : Prop :=
  ∀ dbName tableName, ∀ pair ∈ engine.tableIndex.entry (dbName, tableName),
    (dbName, tableName, pair) ∈ engine.index

theorem indexed_run {ops : List EngineOp} {engine : OmegaEngine}
    (done : new.run ops = some engine) : Indexed engine := by
  intro dbName tableName pair member
  obtain ⟨counted, present⟩ := run_kept done (dbName, tableName, pair)
  apply present.mpr
  apply live_of_registered
  rw [← counted]
  exact List.count_pos_iff.mpr member

theorem tablesListed_of_once (engine : OmegaEngine) (indexed : Indexed engine)
    (once : ∀ key ∈ engine.index, engine.listedTimes key = 1 ∧ ShortCell key.2.2) :
    TablesListed engine := by
  intro iterated all dbName tableName
  have names := reported_pairs engine dbName tableName (indexed dbName tableName)
  have distinct : (engine.tableIndex.entry (dbName, tableName)).Nodup := by
    apply List.nodup_iff_count_le_one.mpr
    intro pair
    by_cases member : pair ∈ engine.tableIndex.entry (dbName, tableName)
    · exact Nat.le_of_eq (once _ (indexed dbName tableName pair member)).1
    · rw [List.count_eq_zero_of_not_mem member]
      exact Nat.zero_le 1
  refine ⟨engine.reported dbName tableName, ⟨?_, ?_, ?_⟩, ?_⟩
  · rw [getTableData_eq]
    have read := readCells_cells (engine.tableIndex.entry (dbName, tableName))
      fun pair member => (once _ (indexed dbName tableName pair member)).2
    rw [← names, List.flatMap_map, List.map_map] at read
    exact read
  · rw [getTableData_eq]
  · rw [getTableData_eq]
  · rw [← names] at distinct
    have others := tableEntries_pairs engine dbName tableName iterated all
    apply (List.perm_ext_iff_of_nodup distinct.of_map others.of_map).mpr
    rintro ⟨pair, specIdx, poolIdx⟩
    rw [mem_reported, mem_tableEntries engine dbName tableName iterated all]
    refine ⟨fun both => both.2, fun found => ⟨?_, found⟩⟩
    have counted := (once (dbName, tableName, pair) (Finmap.mem_iff.mpr ⟨_, found⟩)).1
    apply List.count_pos_iff.mp
    rw [listedTimes] at counted
    rw [counted]
    exact Nat.one_pos

theorem once_of_tablesListed (engine : OmegaEngine) (indexed : Indexed engine)
    (listed : TablesListed engine) (key : CellKey) (member : key ∈ engine.index) :
    engine.listedTimes key = 1 ∧ ShortCell key.2.2 := by
  obtain ⟨dbName, tableName, pair⟩ := key
  obtain ⟨iterated, all⟩ := FieldMap.exists_enumerates engine.index
  obtain ⟨cells, ⟨read, _, _⟩, perm⟩ := listed iterated all dbName tableName
  rw [getTableData_eq] at read
  have entries (other : Str × Str) (present : (dbName, tableName, other) ∈ engine.index) :
      other ∈ cells.map Prod.fst := by
    obtain ⟨⟨specIdx, poolIdx⟩, found⟩ := Finmap.mem_iff.mp present
    have inside := (mem_tableEntries engine dbName tableName iterated all other _ _).mpr found
    exact List.mem_map.mpr ⟨_, perm.mem_iff.mpr inside, rfl⟩
  have short (other : Str × Str) (inside : other ∈ cells.map Prod.fst) : ShortCell other := by
    obtain ⟨cell, here, rfl⟩ := List.mem_map.mp inside
    exact readCells_short _ _ read _ (List.mem_map_of_mem here)
  -- All names are short, so the metadata was read back to the pairs of the table.
  have again := readCells_cells (engine.tableIndex.entry (dbName, tableName))
    fun other inside => short other (entries other (indexed dbName tableName other inside))
  have names := reported_pairs engine dbName tableName (indexed dbName tableName)
  rw [← names, List.flatMap_map, read] at again
  have same : cells.map Prod.fst = engine.tableIndex.entry (dbName, tableName) := by
    rw [← names]
    apply List.map_injective_iff.mpr bytes_injective
    rw [List.map_map]
    exact Option.some.inj again
  refine ⟨?_, short pair (entries pair member)⟩
  rw [listedTimes, ← same]
  exact List.count_eq_one_of_mem ((perm.map Prod.fst).nodup_iff.mpr
    (tableEntries_pairs engine dbName tableName iterated all)) (entries pair member)

theorem tablesListed_iff (ops : List EngineOp) (engine : OmegaEngine)
    (done : new.run ops = some engine) :
    TablesListed engine ↔ ∀ key, live key ops = true →
      registrations key ops = 1 ∧ ShortCell key.2.2 := by
  have indexed := indexed_run done
  constructor
  · intro listed key alive
    obtain ⟨counted, present⟩ := run_kept done key
    have once := once_of_tablesListed engine indexed listed key (present.mpr alive)
    rwa [counted] at once
  · intro once
    apply tablesListed_of_once engine indexed
    intro key member
    obtain ⟨counted, present⟩ := run_kept done key
    rw [counted]
    exact once key (present.mp member)

def oneCell : CellKey := (⟨ascii "k", validUtf8_k⟩, ⟨ascii "k", validUtf8_k⟩,
  ⟨ascii "k", validUtf8_k⟩, ⟨ascii "v", validUtf8_v⟩)

def otherCell : CellKey := (⟨ascii "k", validUtf8_k⟩, ⟨ascii "k", validUtf8_k⟩,
  ⟨ascii "v", validUtf8_v⟩, ⟨ascii "v", validUtf8_v⟩)

-- Two cells come in one batch, and the first is removed and registered anew.
def registeredAgain : List EngineOp :=
  [.registerBatch oneCell.1 oneCell.2.1 [oneCell.2.2.1, otherCell.2.2.1]
      [oneCell.2.2.2, otherCell.2.2.2] [7, 8],
    .remove oneCell.1 oneCell.2.1 oneCell.2.2.1 oneCell.2.2.2,
    .registerCell oneCell.1 oneCell.2.1 oneCell.2.2.1 oneCell.2.2.2 9]

theorem tablesListed_again : ∃ engine, new.run registeredAgain = some engine ∧
    TablesListed engine := by
  refine ⟨_, rfl, (tablesListed_iff registeredAgain _ rfl).mpr fun key alive => ?_⟩
  have stored : key ∈ [oneCell, otherCell, oneCell] := stored_of_live key registeredAgain alive
  simp only [List.mem_cons, List.not_mem_nil, or_false] at stored
  rcases stored with rfl | rfl | rfl
  · exact ⟨by decide, by decide, by decide⟩
  · exact ⟨by decide, by decide, by decide⟩
  · exact ⟨by decide, by decide, by decide⟩

-- A cell that was only set is missing from its table.
theorem tablesListed_set : ¬∀ ops engine, new.run ops = some engine → TablesListed engine := by
  intro listed
  let engine := new.set oneCell.1 oneCell.2.1 oneCell.2.2.1 oneCell.2.2.2 7 0
  obtain ⟨iterated, all⟩ := FieldMap.exists_enumerates engine.index
  obtain ⟨cells, ⟨read, _, _⟩, perm⟩ :=
    listed [.set oneCell.1 oneCell.2.1 oneCell.2.2.1 oneCell.2.2.2 7 0] engine rfl iterated all
      oneCell.1 oneCell.2.1
  have nothing : readCells [] = some [] := by
    rw [readCells, countCells]
    rfl
  have empty : [] = cells.map _ := Option.some.inj (nothing.symm.trans read)
  have member := (mem_tableEntries engine oneCell.1 oneCell.2.1 iterated all oneCell.2.2 7 0).mpr
    (Finmap.lookup_insert _)
  rw [← perm.mem_iff, List.map_eq_nil_iff.mp empty.symm] at member
  cases member

end OmegaEngine

end OmegaDrive
