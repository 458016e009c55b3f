import OmegaDrive.Engine.Tables

set_option autoImplicit false

namespace OmegaDrive

open Cursor

-- `(n as u32).to_le_bytes()`
def leBytes (n : Nat) : Bytes :=
  [UInt8.ofNat n, UInt8.ofNat (n / 2 ^ 8), UInt8.ofNat (n / 2 ^ 16), UInt8.ofNat (n / 2 ^ 24)]

def readLe32 : Cursor Byte Nat
  | a :: b :: c :: d :: _ =>
      some (a.toNat + b.toNat * 2 ^ 8 + c.toNat * 2 ^ 16 + d.toNat * 2 ^ 24, 4)
  | _ => none

def readValue : Cursor Byte Bytes := do
  let vLen ← readLe32
  slice vLen

def valueBytes (val : Bytes) : Bytes := leBytes val.length ++ val

/-- The lengths are those of the slices. -/
def recordBytes (rid col val : Bytes) : Bytes :=
  UInt8.ofNat rid.length :: rid ++ (UInt8.ofNat col.length :: col) ++ valueBytes val

-- The second loop: a slice past the end of either blob panics.
def copyCells : Nat → Bytes → Bytes → Option Bytes
  | 0, _, _ => some []
  | count + 1, metaBlob, valuesBlob => do
    let ((rid, col), mLen) ← readCell metaBlob
    let (val, vLen) ← readValue valuesBlob
    let records ← copyCells count (metaBlob.drop mLen) (valuesBlob.drop vLen)
    return recordBytes rid col val ++ records

def packColumnarDataBlobs (metaBlob valuesBlob : Bytes) : Option Bytes := do
  let count := countCells metaBlob
  -- `count` is an `i32`: where it has wrapped to a negative number, `0..count` is empty
  let turns := if count % 2 ^ 32 < 2 ^ 31 then count % 2 ^ 32 else 0
  let records ← copyCells turns metaBlob valuesBlob
  return ascii "ANS1" ++ leBytes count ++ records

def readRecord : Cursor Byte ((Bytes × Bytes) × Bytes) := do
  let cell ← readCell
  let val ← readValue
  return (cell, val)

def readAns1 : Cursor Byte (List ((Bytes × Bytes) × Bytes)) := do
  literal (ascii "ANS1")
  let count ← readLe32
  times readRecord count

-- The output is a buffer of these records, and of nothing else.
def Ans1Of (output : Option Bytes) (records : List ((Bytes × Bytes) × Bytes)) : Prop :=
  ∃ buffer, output = some buffer ∧ readAns1 buffer = some (records, buffer.length)

theorem readLe32_lt (buf : Bytes) (value used : Nat) (read : readLe32 buf = some (value, used)) :
    value < 2 ^ 32 := by
  unfold readLe32 at read
  split at read
  next a b c d rest =>
    obtain ⟨rfl, _⟩ : _ = value ∧ 4 = used := by simpa using read
    have := a.toNat_lt
    have := b.toNat_lt
    have := c.toNat_lt
    have := d.toNat_lt
    omega
  next => simp at read

theorem reads_readLe32 (n : Nat) : Reads readLe32 (leBytes n) (n % 2 ^ 32) := by
  intro rest
  simp [leBytes, readLe32]
  omega

theorem reads_readValue (val : Bytes) (small : val.length < 2 ^ 32) :
    Reads readValue (valueBytes val) val := by
  have length := reads_readLe32 val.length
  rw [Nat.mod_eq_of_lt small] at length
  exact length.bind (reads_slice val)

theorem yields_readValue : Yields readValue fun val => val.length < 2 ^ 32 := by
  have length : Yields readLe32 fun length => length < 2 ^ 32 := readLe32_lt
  refine length.bind fun length bound blob val used run => ?_
  rw [yields_slice length _ _ _ run]
  exact bound

def ShortRecord (record : (Bytes × Bytes) × Bytes) : Prop :=
  (record.1.1.length ≤ 255 ∧ record.1.2.length ≤ 255) ∧ record.2.length < 2 ^ 32

theorem yields_readAns1 : Yields readAns1 fun records =>
    records.length < 2 ^ 32 ∧ ∀ record ∈ records, ShortRecord record := by
  have record : Yields readRecord ShortRecord :=
    yields_readCell.bind fun cell short => yields_readValue.bind fun val small =>
      yields_pure (cell, val) _ ⟨short, small⟩
  have count : Yields readLe32 fun count => count < 2 ^ 32 := readLe32_lt
  refine (yields_trivial _).bind fun _ _ => count.bind fun count bound buffer records used run => ?_
  obtain ⟨rfl, each⟩ := record.times count buffer records used run
  exact ⟨bound, each⟩

def cellNames (cell : Str × Str) : Bytes × Bytes := (cell.1.bytes, cell.2.bytes)

theorem recordBytes_cell (cell : Str × Str) (short : ShortCell cell) (val : Bytes) :
    recordBytes cell.1.bytes cell.2.bytes val = cellBytes cell ++ valueBytes val := by
  rw [recordBytes, cellBytes, OmegaEngine.idBytes, OmegaEngine.idBytes, Nat.min_eq_left short.1,
    Nat.min_eq_left short.2]

theorem reads_readRecord (cell : Str × Str) (val : Bytes) (short : ShortCell cell)
    (small : val.length < 2 ^ 32) :
    Reads readRecord (recordBytes cell.1.bytes cell.2.bytes val) (cellNames cell, val) := by
  have both : Reads readRecord (cellBytes cell ++ (valueBytes val ++ [])) (cellNames cell, val) :=
    (reads_cellBytes cell short).bind ((reads_readValue val small).bind (reads_pure _))
  rw [List.append_nil] at both
  rw [recordBytes_cell cell short]
  exact both

theorem copyCells_cells (cells : List (Str × Str)) (values : List Bytes)
    (each : values.length = cells.length) (short : ∀ cell ∈ cells, ShortCell cell)
    (small : ∀ val ∈ values, val.length < 2 ^ 32) :
    copyCells cells.length (cells.flatMap cellBytes) (values.flatMap valueBytes) =
      some ((cells.zip values).flatMap fun (cell, val) =>
        recordBytes cell.1.bytes cell.2.bytes val) := by
  induction cells generalizing values with
  | nil => rfl
  | cons cell cells ih =>
    cases values with
    | nil => cases each
    | cons val values =>
      have rest := ih values (Nat.succ.inj each)
        (fun other member => short other (List.mem_cons_of_mem _ member))
        fun other member => small other (List.mem_cons_of_mem _ member)
      have names := reads_cellBytes cell (short cell List.mem_cons_self) (cells.flatMap cellBytes)
      have value := reads_readValue val (small val List.mem_cons_self) (values.flatMap valueBytes)
      rw [List.flatMap_cons, List.flatMap_cons, List.length_cons, copyCells, names, value]
      simp only [Option.bind_eq_bind, Option.bind_some, List.drop_left, rest]
      rfl

theorem reads_records (cells : List (Str × Str)) (values : List Bytes)
    (short : ∀ cell ∈ cells, ShortCell cell) (small : ∀ val ∈ values, val.length < 2 ^ 32) :
    Reads (times readRecord (cells.zip values).length)
      ((cells.zip values).flatMap fun (cell, val) => recordBytes cell.1.bytes cell.2.bytes val)
      ((cells.map cellNames).zip values) := by
  have each : List.Forall₂ (Reads readRecord)
      ((cells.zip values).map fun (cell, val) => recordBytes cell.1.bytes cell.2.bytes val)
      ((cells.zip values).map fun (cell, val) => (cellNames cell, val)) := by
    rw [List.forall₂_map_left_iff, List.forall₂_map_right_iff, List.forall₂_same]
    rintro ⟨cell, val⟩ member
    exact reads_readRecord cell val (short cell (List.of_mem_zip member).1)
      (small val (List.of_mem_zip member).2)
  have all := Reads.times _ _ each
  rw [List.length_map, ← List.flatMap_def] at all
  rw [List.zip_map_left]
  exact all

theorem readAns1_header (count : Nat) (fits : count < 2 ^ 32) (body : Bytes) :
    readAns1 (ascii "ANS1" ++ (leBytes count ++ body)) =
      (times readRecord count body).map fun pair => (pair.1, 8 + pair.2) := by
  have header := reads_readLe32 count
  rw [Nat.mod_eq_of_lt fits] at header
  rw [readAns1, (reads_literal (ascii "ANS1")).before, header.before, Option.map_map]
  congr 1
  funext pair
  exact congrArg (Prod.mk pair.1) (Nat.add_assoc 4 4 pair.2).symm

theorem packColumnarDataBlobs_cells (cells : List (Str × Str)) (values : List Bytes)
    (few : cells.length < 2 ^ 31) (each : values.length = cells.length)
    (short : ∀ cell ∈ cells, ShortCell cell) (small : ∀ val ∈ values, val.length < 2 ^ 32) :
    Ans1Of (packColumnarDataBlobs (cells.flatMap cellBytes) (values.flatMap valueBytes))
      ((cells.map cellNames).zip values) := by
  have fits : cells.length < 2 ^ 32 := by omega
  have records := reads_records cells values short small []
  rw [List.length_zip, each, Nat.min_self, List.append_nil] at records
  let record (cell : (Str × Str) × Bytes) : Bytes :=
    recordBytes cell.1.1.bytes cell.1.2.bytes cell.2
  refine ⟨ascii "ANS1" ++ (leBytes cells.length ++ (cells.zip values).flatMap record), ?_, ?_⟩
  · simp only [packColumnarDataBlobs, countCells_cells cells short, Nat.mod_eq_of_lt fits,
      if_pos few, copyCells_cells cells values each short small, Option.bind_eq_bind,
      Option.bind_some]
    exact congrArg some (List.append_assoc ..)
  · have size : (ascii "ANS1" ++ (leBytes cells.length ++ (cells.zip values).flatMap record)).length =
        8 + ((cells.zip values).flatMap record).length := by
      rw [List.length_append, List.length_append]
      exact (Nat.add_assoc 4 4 _).symm
    rw [readAns1_header cells.length fits, size]
    exact congrArg (Option.map _) records

theorem fits_of_ans1 (cells : List (Str × Str)) (values : List Bytes)
    (each : values.length = cells.length)
    (packed : Ans1Of (packColumnarDataBlobs (cells.flatMap cellBytes) (values.flatMap valueBytes))
      ((cells.map cellNames).zip values)) :
    cells.length < 2 ^ 31 ∧ (∀ cell ∈ cells, ShortCell cell) ∧
      ∀ val ∈ values, val.length < 2 ^ 32 := by
  obtain ⟨buffer, made, read⟩ := packed
  obtain ⟨fits, records⟩ := yields_readAns1 _ _ _ read
  have names : ((cells.map cellNames).zip values).map Prod.fst = cells.map cellNames :=
    List.map_fst_zip (by rw [List.length_map, each])
  have vals : ((cells.map cellNames).zip values).map Prod.snd = values :=
    List.map_snd_zip (by rw [List.length_map, each])
  have short : ∀ cell ∈ cells, ShortCell cell := by
    intro cell member
    have inside : cellNames cell ∈ ((cells.map cellNames).zip values).map Prod.fst := by
      rw [names]
      exact List.mem_map_of_mem member
    obtain ⟨record, here, same⟩ := List.mem_map.mp inside
    have bound := (records record here).1
    rwa [same] at bound
  have small : ∀ val ∈ values, val.length < 2 ^ 32 := by
    intro val member
    rw [← vals] at member
    obtain ⟨record, here, rfl⟩ := List.mem_map.mp member
    exact (records record here).2
  refine ⟨?_, short, small⟩
  rw [List.length_zip, List.length_map, each, Nat.min_self] at fits
  by_contra many
  -- The count has wrapped, so the buffer is its header, and the first record is missing.
  have headerOnly : buffer = ascii "ANS1" ++ (leBytes cells.length ++ []) := by
    simp only [packColumnarDataBlobs, countCells_cells cells short, Nat.mod_eq_of_lt fits,
      if_neg many, copyCells, Option.bind_eq_bind, Option.bind_some] at made
    exact (Option.some.inj made).symm.trans (List.append_assoc ..)
  obtain ⟨more, positive⟩ : ∃ more, cells.length = more + 1 := ⟨cells.length - 1, by omega⟩
  have nothing : times readRecord cells.length [] = none := by
    rw [positive]
    exact bind_none _ _ _ rfl
  rw [headerOnly, readAns1_header cells.length fits, nothing] at read
  cases read

namespace OmegaEngine

def Columnar (engine : OmegaEngine) (dbName tableName : Str) (values : List Bytes) : Prop :=
  Ans1Of (packColumnarDataBlobs (engine.getTableData dbName tableName).1
      (values.flatMap valueBytes))
    (((engine.reported dbName tableName).map fun cell => cellNames cell.1).zip values)

theorem columnar_eq (engine : OmegaEngine) (dbName tableName : Str) (values : List Bytes) :
    Columnar engine dbName tableName values ↔
      Ans1Of (packColumnarDataBlobs
        (((engine.reported dbName tableName).map Prod.fst).flatMap cellBytes)
        (values.flatMap valueBytes))
        ((((engine.reported dbName tableName).map Prod.fst).map cellNames).zip values) := by
  rw [Columnar, getTableData_eq, List.flatMap_map, List.map_map]
  rfl

theorem columnar_fits (engine : OmegaEngine) (dbName tableName : Str) (values : List Bytes)
    (each : values.length = (engine.reported dbName tableName).length)
    (packed : Columnar engine dbName tableName values) :
    (engine.reported dbName tableName).length < 2 ^ 31 ∧
      (∀ cell ∈ engine.reported dbName tableName, ShortCell cell.1) ∧
      ∀ val ∈ values, val.length < 2 ^ 32 := by
  rw [columnar_eq] at packed
  obtain ⟨few, short, small⟩ := fits_of_ans1 _ values (by rw [List.length_map, each]) packed
  rw [List.length_map] at few
  exact ⟨few, fun cell member => short cell.1 (List.mem_map_of_mem member), small⟩

theorem columnar_iff (engine : OmegaEngine) (dbName tableName : Str) (values : List Bytes)
    (each : values.length = (engine.reported dbName tableName).length) :
    Columnar engine dbName tableName values ↔
      (engine.reported dbName tableName).length < 2 ^ 31 ∧
        (∀ cell ∈ engine.reported dbName tableName, ShortCell cell.1) ∧
        ∀ val ∈ values, val.length < 2 ^ 32 := by
  constructor
  · exact columnar_fits engine dbName tableName values each
  · rintro ⟨few, short, small⟩
    rw [columnar_eq]
    apply packColumnarDataBlobs_cells _ values _ _ _ small
    · rwa [List.length_map]
    · rw [List.length_map, each]
    · intro pair member
      obtain ⟨cell, inside, rfl⟩ := List.mem_map.mp member
      exact short cell inside

theorem reported_registerCell (engine : OmegaEngine) (db table row col : Str) (specIdx : Int)
    (fresh : (row, col) ∉ engine.tableIndex.entry (db, table)) :
    (engine.registerCell db table row col specIdx).1.reported db table =
      engine.reported db table ++ [((row, col), specIdx, engine.nextPoolIdx)] := by
  have listed : (engine.registerCell db table row col specIdx).1.tableIndex.entry (db, table) =
      engine.tableIndex.entry (db, table) ++ [(row, col)] := by
    rw [registerCell, TableIndex.entry_extend, if_pos rfl]
  have stored : (engine.registerCell db table row col specIdx).1.index.lookup
      (db, table, row, col) = some ⟨specIdx, engine.nextPoolIdx⟩ := Finmap.lookup_insert _
  rw [reported, listed, List.filterMap_append, List.filterMap_cons, stored]
  refine congrArg (· ++ _) (List.filterMap_congr fun pair member => ?_)
  have other : (db, table, pair) ≠ (db, table, row, col) := fun same => by
    obtain rfl : pair = (row, col) := (Prod.mk.inj (Prod.mk.inj same).2).2
    exact fresh member
  rw [registerCell, Finmap.lookup_insert_of_ne _ other]

theorem reported_one (row col : Str) (specIdx : Int) :
    (new.registerCell oneCell.1 oneCell.2.1 row col specIdx).1.reported oneCell.1 oneCell.2.1 =
      [((row, col), specIdx, 0)] :=
  reported_registerCell new _ _ row col specIdx List.not_mem_nil

def twoCells : OmegaEngine :=
  ((new.registerCell oneCell.1 oneCell.2.1 oneCell.2.2.1 oneCell.2.2.2 7).1.registerCell
    oneCell.1 oneCell.2.1 otherCell.2.2.1 otherCell.2.2.2 8).1

theorem reported_twoCells : twoCells.reported oneCell.1 oneCell.2.1 =
    [(oneCell.2.2, 7, 0), (otherCell.2.2, 8, 1)] := by
  rw [twoCells, reported_registerCell _ _ _ _ _ _ ?_, reported_one]
  · rfl
  · rw [registerCell, TableIndex.entry_extend, if_pos rfl]
    decide

theorem columnar_two : Columnar twoCells oneCell.1 oneCell.2.1 [ascii "v", []] := by
  apply (columnar_iff twoCells oneCell.1 oneCell.2.1 [ascii "v", []]
    (by rw [reported_twoCells]; rfl)).mpr
  rw [reported_twoCells]
  refine ⟨by decide, fun cell member => ?_, by decide⟩
  simp only [List.mem_cons, List.not_mem_nil, or_false] at member
  rcases member with rfl | rfl
  · exact ⟨by decide, by decide⟩
  · exact ⟨by decide, by decide⟩

def longName : Str :=
  ⟨List.replicate 256 97, validUtf8_ascii _ fun byte member => by
    rw [(List.mem_replicate.mp member).2]
    decide⟩

-- A row of 256 bytes, whose length byte says 255.
theorem columnar_long :
    ¬Columnar (new.registerCell oneCell.1 oneCell.2.1 longName oneCell.2.2.2 7).1
      oneCell.1 oneCell.2.1 [ascii "v"] := by
  intro packed
  have cells := reported_one longName oneCell.2.2.2 7
  obtain ⟨_, short, _⟩ := columnar_fits _ _ _ _ (by rw [cells]; rfl) packed
  rw [cells] at short
  have bound : longName.bytes.length ≤ 255 := (short _ List.mem_cons_self).1
  rw [longName, List.length_replicate] at bound
  omega

end OmegaEngine

end OmegaDrive
