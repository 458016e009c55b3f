import OmegaDrive.Shared.FieldMap
import OmegaDrive.Resp.RoundTrip

set_option autoImplicit false

namespace OmegaDrive

open Cursor

structure NeuralCell where
  specIdx : Int
  poolIdx : Nat
  deriving DecidableEq

/-- Database, table, row and column. -/
abbrev CellKey := Str × Str × Str × Str

abbrev TableIndex := FieldMap (Str × Str) (List (Str × Str))

namespace TableIndex

variable (tableIndex : TableIndex) (key : Str × Str)

def entry : List (Str × Str) := (tableIndex.lookup key).getD []

-- `or_insert_with(Vec::new)` and what is pushed onto the entry.
def extend (pairs : List (Str × Str)) : TableIndex :=
  tableIndex.insert key (tableIndex.entry key ++ pairs)

-- `get_mut` and `retain`.
def retain (kept : Str × Str → Bool) : TableIndex :=
  match tableIndex.lookup key with
  | none => tableIndex
  | some pairs => tableIndex.insert key (pairs.filter kept)

theorem entry_insert (pairs : List (Str × Str)) (other : Str × Str) :
    entry (tableIndex.insert key pairs) other =
      if other = key then pairs else tableIndex.entry other := by
  unfold entry
  split
  next same => rw [same, Finmap.lookup_insert, Option.getD_some]
  next differ => rw [Finmap.lookup_insert_of_ne _ differ]

theorem entry_extend (pairs : List (Str × Str)) (other : Str × Str) :
    (tableIndex.extend key pairs).entry other =
      if other = key then tableIndex.entry other ++ pairs else tableIndex.entry other := by
  rw [extend, entry_insert]
  split
  next same => rw [same]
  next => rfl

theorem entry_retain (kept : Str × Str → Bool) (other : Str × Str) :
    (tableIndex.retain key kept).entry other =
      if other = key then (tableIndex.entry other).filter kept else tableIndex.entry other := by
  unfold retain
  split
  next missing =>
    split
    next same =>
      subst same
      rw [entry, missing]
      rfl
    next => rfl
  next pairs found =>
    rw [entry_insert]
    split
    next same =>
      subst same
      rw [entry, found]
      rfl
    next => rfl

end TableIndex

structure OmegaEngine where
  index : FieldMap CellKey NeuralCell
  tableIndex : TableIndex
  nextPoolIdx : Nat

namespace OmegaEngine

def new : OmegaEngine := ⟨∅, ∅, 0⟩

def registerCell (engine : OmegaEngine) (db table row col : Str) (specIdx : Int) :
    OmegaEngine × Nat :=
  let poolIdx := engine.nextPoolIdx
  ({ index := engine.index.insert (db, table, row, col) ⟨specIdx, poolIdx⟩
     tableIndex := engine.tableIndex.extend (db, table) [(row, col)]
     nextPoolIdx := (poolIdx + 1) % 2 ^ 64 }, poolIdx)

def set (engine : OmegaEngine) (db table row col : Str) (specIdx : Int) (poolIdx : Nat) :
    OmegaEngine :=
  { engine with
    index := engine.index.insert (db, table, row, col) ⟨specIdx, poolIdx⟩
    nextPoolIdx :=
      if engine.nextPoolIdx ≤ poolIdx then (poolIdx + 1) % 2 ^ 64 else engine.nextPoolIdx }

/-- A row or a column that is missing panics. -/
def registerBatch (engine : OmegaEngine) (db table : Str) (rowIds colNames : List Str)
    (specIndices : List Int) : Option (OmegaEngine × List Nat) := do
  let count := specIndices.length
  let baseIdx := engine.nextPoolIdx
  let cells ← (specIndices.zipIdx).mapM fun (specIdx, i) => do
    let row ← rowIds[i]?
    let col ← colNames[i]?
    return ((row, col), (⟨specIdx, (baseIdx + i) % 2 ^ 64⟩ : NeuralCell))
  return ({ index := FieldMap.insertAll engine.index
              (cells.map fun (pair, cell) => ((db, table, pair.1, pair.2), cell))
            tableIndex := engine.tableIndex.extend (db, table) (cells.map Prod.fst)
            nextPoolIdx := (baseIdx + count) % 2 ^ 64 },
    cells.map fun (_, cell) => cell.poolIdx)

def remove (engine : OmegaEngine) (db table row col : Str) : OmegaEngine :=
  { engine with
    index := engine.index.erase (db, table, row, col)
    tableIndex := engine.tableIndex.retain (db, table) fun pair =>
      decide (pair.1 ≠ row) || decide (pair.2 ≠ col) }

def clear (_engine : OmegaEngine) : OmegaEngine := new

-- The map's own iterator hands its entries out in any order.
def getAllEntries (iterated : List (CellKey × NeuralCell)) : List (CellKey × (Int × Nat)) :=
  iterated.map fun (key, val) => (key, (val.specIdx, val.poolIdx))

-- The length byte stops at 255, the bytes behind it do not.
def idBytes (id : Str) : Bytes := UInt8.ofNat (min id.bytes.length 255) :: id.bytes

-- What the loop adds to the metadata and to the two lists of indices.
def listPair (engine : OmegaEngine) (dbName tableName : Str) (data : Bytes × List Int × List Nat)
    (pair : Str × Str) : Bytes × List Int × List Nat :=
  let (metaBlob, sIndices, pIndices) := data
  let (rid, col) := pair
  match engine.index.lookup (dbName, tableName, rid, col) with
  | none => (metaBlob, sIndices, pIndices)
  | some v =>
    (metaBlob ++ idBytes rid ++ idBytes col, sIndices ++ [v.specIdx], pIndices ++ [v.poolIdx])

def getTableData (engine : OmegaEngine) (dbName tableName : Str) : Bytes × List Int × List Nat :=
  match engine.tableIndex.lookup (dbName, tableName) with
  | none => ([], [], [])
  | some pairs => pairs.foldl (engine.listPair dbName tableName) ([], [], [])

end OmegaEngine

def readId : Cursor Byte Bytes := do
  let len ← fun blob => blob.head?.map fun byte => (byte.toNat, 1)
  slice len

def readCell : Cursor Byte (Bytes × Bytes) := do
  let rid ← readId
  let col ← readId
  return (rid, col)

def countCells : Bytes → Nat
  | [] => 0
  | rLen :: blob =>
    match shape : blob.drop rLen.toNat with
    | [] => 0
    | cLen :: rest => countCells (rest.drop cLen.toNat) + 1
  termination_by blob => blob.length
  decreasing_by
    have shorter := congrArg List.length shape
    simp only [List.length_drop, List.length_cons] at shorter ⊢
    omega

def readCells (metaBlob : Bytes) : Option (List (Bytes × Bytes)) :=
  (times readCell (countCells metaBlob) metaBlob).map Prod.fst

def nameBytes (name : Bytes) : Bytes := UInt8.ofNat name.length :: name

theorem idBytes_eq (id : Str) (short : id.bytes.length ≤ 255) :
    OmegaEngine.idBytes id = nameBytes id.bytes := by
  rw [OmegaEngine.idBytes, nameBytes, Nat.min_eq_left short]

theorem lengthByte (name : Bytes) (short : name.length ≤ 255) :
    (UInt8.ofNat name.length).toNat = name.length := by
  rw [UInt8.toNat_ofNat', Nat.mod_eq_of_lt (by omega)]

theorem reads_readId (name : Bytes) (short : name.length ≤ 255) :
    Reads readId (nameBytes name) name := by
  have length : Reads (fun blob : Bytes => blob.head?.map fun byte => (byte.toNat, 1))
      [UInt8.ofNat name.length] name.length := by
    intro rest
    simp [lengthByte name short]
  exact length.bind (reads_slice name)

theorem spells_readId : Spells readId nameBytes := by
  intro blob id used run
  obtain ⟨len, one, more, head, tail, rfl⟩ := bind_eq_some _ _ _ _ _ run
  cases blob with
  | nil => simp at head
  | cons byte rest =>
    obtain ⟨rfl, rfl⟩ : byte.toNat = len ∧ 1 = one := by simpa using head
    have size := yields_slice _ _ _ _ tail
    have content := spells_slice _ _ _ _ tail
    rw [List.drop_one, List.tail_cons, id_eq] at content
    rw [nameBytes, size, UInt8.ofNat_toNat, Nat.add_comm 1, List.drop_succ_cons,
      List.cons_append, ← content]

theorem yields_readId : Yields readId fun id => id.length ≤ 255 := by
  have length : Yields (fun blob : Bytes => blob.head?.map fun byte => (byte.toNat, 1))
      fun length => length ≤ 255 := by
    intro blob length used run
    cases blob with
    | nil => simp at run
    | cons byte rest =>
      obtain ⟨rfl, _⟩ : byte.toNat = length ∧ 1 = used := by simpa using run
      have bound := byte.toNat_lt
      omega
  refine length.bind fun length bound blob id used run => ?_
  rw [yields_slice length _ _ _ run]
  exact bound

def cellBytes (cell : Str × Str) : Bytes :=
  OmegaEngine.idBytes cell.1 ++ OmegaEngine.idBytes cell.2

def namesBytes (cell : Bytes × Bytes) : Bytes := nameBytes cell.1 ++ nameBytes cell.2

def ShortCell (cell : Str × Str) : Prop := cell.1.bytes.length ≤ 255 ∧ cell.2.bytes.length ≤ 255

def ShortNames (cell : Bytes × Bytes) : Prop := cell.1.length ≤ 255 ∧ cell.2.length ≤ 255

theorem cellBytes_eq (cell : Str × Str) (short : ShortCell cell) :
    cellBytes cell = namesBytes (cell.1.bytes, cell.2.bytes) := by
  rw [cellBytes, namesBytes, idBytes_eq cell.1 short.1, idBytes_eq cell.2 short.2]

theorem reads_readCell (cell : Bytes × Bytes) (short : ShortNames cell) :
    Reads readCell (namesBytes cell) cell := by
  have second : Reads (readId >>= fun col => pure (cell.1, col)) (nameBytes cell.2 ++ []) cell :=
    (reads_readId cell.2 short.2).bind (reads_pure _)
  rw [List.append_nil] at second
  exact (reads_readId cell.1 short.1).bind second

theorem reads_cellBytes (cell : Str × Str) (short : ShortCell cell) :
    Reads readCell (cellBytes cell) (cell.1.bytes, cell.2.bytes) := by
  rw [cellBytes_eq cell short]
  exact reads_readCell _ short

theorem spells_readCell : Spells readCell namesBytes := by
  refine spells_readId.bind fun rid => ⟨fun cell => nameBytes cell.2, ?_, ?_⟩
  · refine spells_readId.bind fun col => ⟨fun _ => [], spells_pure _ _ rfl, yields_pure _ _ ?_⟩
    rw [List.append_nil]
  · exact (yields_trivial _).bind fun col _ => yields_pure _ _ rfl

theorem yields_readCell : Yields readCell ShortNames :=
  yields_readId.bind fun rid short => yields_readId.bind fun col other =>
    yields_pure (rid, col) _ ⟨short, other⟩

theorem countCells_cons (rLen cLen : Byte) (blob rest : Bytes)
    (shape : blob.drop rLen.toNat = cLen :: rest) :
    countCells (rLen :: blob) = countCells (rest.drop cLen.toNat) + 1 := by
  rw [countCells]
  split
  next nothing => simp [nothing] at shape
  next found =>
    obtain ⟨rfl, rfl⟩ := List.cons.inj (found.symm.trans shape)
    rfl

theorem countCells_names (cell : Bytes × Bytes) (short : ShortNames cell) (rest : Bytes) :
    countCells (namesBytes cell ++ rest) = countCells rest + 1 := by
  have shape : (cell.1 ++ (nameBytes cell.2 ++ rest)).drop (UInt8.ofNat cell.1.length).toNat =
      UInt8.ofNat cell.2.length :: (cell.2 ++ rest) := by
    rw [lengthByte cell.1 short.1, List.drop_left]
    rfl
  rw [namesBytes, List.append_assoc]
  apply (countCells_cons _ _ _ _ shape).trans
  rw [lengthByte cell.2 short.2, List.drop_left]

theorem countCells_append (cells : List (Bytes × Bytes)) (short : ∀ cell ∈ cells, ShortNames cell)
    (rest : Bytes) :
    countCells (cells.flatMap namesBytes ++ rest) = countCells rest + cells.length := by
  induction cells with
  | nil => rfl
  | cons cell cells ih =>
    rw [List.flatMap_cons, List.append_assoc, countCells_names cell (short cell List.mem_cons_self),
      ih fun other member => short other (List.mem_cons_of_mem _ member), List.length_cons]
    rfl

theorem flatMap_cellBytes (cells : List (Str × Str)) (short : ∀ cell ∈ cells, ShortCell cell) :
    cells.flatMap cellBytes =
      (cells.map fun cell => (cell.1.bytes, cell.2.bytes)).flatMap namesBytes := by
  rw [List.flatMap_map, List.flatMap, List.flatMap,
    List.map_congr_left fun cell member => cellBytes_eq cell (short cell member)]

theorem countCells_cells (cells : List (Str × Str)) (short : ∀ cell ∈ cells, ShortCell cell) :
    countCells (cells.flatMap cellBytes) = cells.length := by
  have names : ∀ cell ∈ cells.map fun cell => (cell.1.bytes, cell.2.bytes), ShortNames cell := by
    intro cell member
    obtain ⟨pair, inside, rfl⟩ := List.mem_map.mp member
    exact short pair inside
  have counted := countCells_append _ names []
  rw [← flatMap_cellBytes cells short, List.append_nil, List.length_map] at counted
  rw [counted, countCells, Nat.zero_add]

theorem readCells_cells (cells : List (Str × Str)) (short : ∀ cell ∈ cells, ShortCell cell) :
    readCells (cells.flatMap cellBytes) =
      some (cells.map fun cell => (cell.1.bytes, cell.2.bytes)) := by
  have each : List.Forall₂ (Reads readCell) (cells.map cellBytes)
      (cells.map fun cell => (cell.1.bytes, cell.2.bytes)) := by
    rw [List.forall₂_map_left_iff, List.forall₂_map_right_iff]
    exact List.forall₂_same.mpr fun cell member => reads_cellBytes cell (short cell member)
  have all := Reads.times _ _ each []
  rw [List.append_nil, List.length_map, ← List.flatMap_def] at all
  rw [readCells, countCells_cells cells short, all, Option.map_some]

theorem readCells_short (metaBlob : Bytes) (cells : List (Bytes × Bytes))
    (read : readCells metaBlob = some cells) :
    ∀ cell ∈ cells, cell.1.length ≤ 255 ∧ cell.2.length ≤ 255 := by
  obtain ⟨⟨_, used⟩, run, rfl⟩ := Option.map_eq_some_iff.mp read
  exact (yields_readCell.times _ _ _ _ run).2

end OmegaDrive
