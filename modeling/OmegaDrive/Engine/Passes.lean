import OmegaDrive.Engine.Columnar

set_option autoImplicit false

namespace OmegaDrive

open Cursor

-- Whether the copying loop goes through is up to each of the two blobs on its own.
theorem copyCells_isSome (count : Nat) (metaBlob valuesBlob : Bytes) :
    (copyCells count metaBlob valuesBlob).isSome ↔
      (times readCell count metaBlob).isSome ∧ (times readValue count valuesBlob).isSome := by
  induction count generalizing metaBlob valuesBlob with
  | zero => exact iff_of_true rfl ⟨rfl, rfl⟩
  | succ count ih =>
    rw [copyCells]
    cases cell : readCell metaBlob with
    | none =>
      rw [times, bind_none _ _ _ cell]
      simp
    | some pair =>
      rw [times_isSome_succ _ _ _ _ _ cell]
      cases value : readValue valuesBlob with
      | none =>
        rw [times, bind_none _ _ _ value]
        simp
      | some other =>
        rw [times_isSome_succ _ _ _ _ _ value, ← ih]
        simp only [Option.bind_eq_bind, Option.bind_some]
        cases copyCells count (metaBlob.drop pair.2) (valuesBlob.drop other.2) <;> rfl

/-- What is left over when the counting stops: not enough bytes for a column's length. -/
def Tail (blob : Bytes) : Prop :=
  ∀ rLen rest, blob = rLen :: rest → rest.length ≤ rLen.toNat

theorem countCells_eq_zero_iff (blob : Bytes) : countCells blob = 0 ↔ Tail blob := by
  cases blob with
  | nil => exact iff_of_true (by rw [countCells]) fun rLen rest same => by cases same
  | cons rLen rest =>
    cases shape : rest.drop rLen.toNat with
    | nil =>
      refine iff_of_true ?_ fun other more same => ?_
      · rw [countCells]
        split
        next => rfl
        next found => rw [shape] at found; cases found
      · obtain ⟨rfl, rfl⟩ := List.cons.inj same
        exact List.drop_eq_nil_iff.mp shape
    | cons cLen after =>
      refine iff_of_false ?_ fun tail => ?_
      · rw [countCells_cons _ _ _ _ shape]
        exact Nat.succ_ne_zero _
      · rw [List.drop_eq_nil_of_le (tail rLen rest rfl)] at shape
        cases shape

-- The metadata is a sequence of whole cells: each row and each column has as many bytes as its
-- length byte says. Behind them may be what is too short for another column's length.
def WholeCells (metaBlob : Bytes) : Prop :=
  ∃ (cells : List (Bytes × Bytes)) (rest : Bytes), (∀ cell ∈ cells, ShortNames cell) ∧
    metaBlob = cells.flatMap namesBytes ++ rest ∧ Tail rest

theorem readCells_isSome_iff (metaBlob : Bytes) :
    (readCells metaBlob).isSome ↔ WholeCells metaBlob := by
  rw [readCells, Option.isSome_map]
  constructor
  · intro read
    obtain ⟨⟨cells, used⟩, run⟩ := Option.isSome_iff_exists.mp read
    have split := spells_readCell.times _ _ _ _ run
    obtain ⟨size, short⟩ := yields_readCell.times _ _ _ _ run
    refine ⟨cells, metaBlob.drop used, short, split, ?_⟩
    -- All the cells that were counted are among those read, so nothing more is counted.
    have counted := countCells_append cells short (metaBlob.drop used)
    rw [← split] at counted
    exact (countCells_eq_zero_iff _).mp (by omega)
  · rintro ⟨cells, rest, short, rfl, tail⟩
    have read := reads_times_map readCell namesBytes cells
      (fun cell member => reads_readCell cell (short cell member)) rest
    rw [countCells_append cells short, (countCells_eq_zero_iff rest).mpr tail, Nat.zero_add, read]
    rfl

-- The copying pass slices nothing outside the metadata, which has every cell that the counting pass
-- counts.
def CopiesInside (metaBlob valuesBlob : Bytes) : Prop :=
  (packColumnarDataBlobs metaBlob valuesBlob).isSome ∧ (readCells metaBlob).isSome

theorem packColumnarDataBlobs_isSome (metaBlob valuesBlob : Bytes)
    (values : (times readValue (countCells metaBlob) valuesBlob).isSome)
    (cells : (readCells metaBlob).isSome) :
    (packColumnarDataBlobs metaBlob valuesBlob).isSome := by
  rw [readCells, Option.isSome_map] at cells
  -- A count that has wrapped around asks for fewer cells.
  have fewer : (if countCells metaBlob % 2 ^ 32 < 2 ^ 31 then countCells metaBlob % 2 ^ 32
      else 0) ≤ countCells metaBlob := by
    have := Nat.mod_le (countCells metaBlob) (2 ^ 32)
    split <;> omega
  have copied := (copyCells_isSome _ metaBlob valuesBlob).mpr
    ⟨times_isSome_of_le readCell fewer metaBlob cells,
      times_isSome_of_le readValue fewer valuesBlob values⟩
  obtain ⟨records, run⟩ := Option.isSome_iff_exists.mp copied
  simp only [packColumnarDataBlobs, run]
  rfl

theorem copiesInside_iff (metaBlob valuesBlob : Bytes)
    (values : (times readValue (countCells metaBlob) valuesBlob).isSome) :
    CopiesInside metaBlob valuesBlob ↔ WholeCells metaBlob := by
  rw [← readCells_isSome_iff]
  constructor
  · rintro ⟨_, cells⟩
    exact cells
  · intro cells
    exact ⟨packColumnarDataBlobs_isSome metaBlob valuesBlob values cells, cells⟩

-- Two cells, and a byte that promises a row that does not follow.
def twoNames : List (Bytes × Bytes) := [(ascii "k", ascii "v"), ([], ascii "k")]

theorem short_twoNames : ∀ cell ∈ twoNames, ShortNames cell := by
  intro cell member
  simp only [twoNames, List.mem_cons, List.not_mem_nil, or_false] at member
  rcases member with rfl | rfl
  · exact ⟨by decide, by decide⟩
  · exact ⟨by decide, by decide⟩

theorem tail_promise : Tail [5] := fun rLen rest same => by
  obtain ⟨_, rfl⟩ := List.cons.inj same
  exact Nat.zero_le _

theorem copiesInside_two :
    CopiesInside (twoNames.flatMap namesBytes ++ [5]) (valueBytes (ascii "v") ++ valueBytes []) :=
  (copiesInside_iff (twoNames.flatMap namesBytes ++ [5]) (valueBytes (ascii "v") ++ valueBytes [])
    (by
      rw [countCells_append twoNames short_twoNames, (countCells_eq_zero_iff _).mpr tail_promise]
      decide)).mpr ⟨twoNames, [5], short_twoNames, rfl, tail_promise⟩

-- An empty row, then a column of five bytes that are not there: one cell is counted.
theorem copies_outside :
    ¬ ∀ metaBlob valuesBlob : Bytes,
      (times readValue (countCells metaBlob) valuesBlob).isSome →
        CopiesInside metaBlob valuesBlob := by
  intro inside
  have counted : countCells [0, 5] = 1 := by
    rw [countCells_cons 0 5 [5] [] rfl]
    exact congrArg (· + 1) (by rw [List.drop_nil, countCells])
  have copied := (inside [0, 5] (valueBytes []) (by rw [counted]; decide)).2
  rw [readCells, counted] at copied
  exact absurd copied (by decide)

end OmegaDrive
