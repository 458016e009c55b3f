import OmegaDrive.Engine.Fresh

set_option autoImplicit false

namespace OmegaDrive

namespace OmegaEngine

section Reads

variable (engine : OmegaEngine)

def getBatchMeta (keys : List CellKey) : List (Option (Int × Nat)) :=
  keys.map fun k => (engine.index.lookup k).map fun cell => (cell.specIdx, cell.poolIdx)

def getCellMeta (db table row col : Str) : Option (Int × Nat) :=
  match engine.index.lookup (db, table, row, col) with
  | some cell => some (cell.specIdx, cell.poolIdx)
  | none => none

def len : Nat := engine.index.keys.card

end Reads

end OmegaEngine

/-- What the engine is for: the cells that were given a spec and a pool index or taken out, one
after the other, and the pool index that comes next. -/
structure Ledger where
  entries : List (CellKey × Option NeuralCell)
  next : Nat

namespace Ledger

def empty : Ledger := ⟨[], 0⟩

/-- A batch takes all its pool indices at once; its cells end where a row or a column is missing. -/
def record (ledger : Ledger) : EngineOp → Ledger
  | .registerCell db table row col specIdx =>
    { entries := ledger.entries ++ [((db, table, row, col), some ⟨specIdx, ledger.next⟩)]
      next := (ledger.next + 1) % 2 ^ 64 }
  | .set db table row col specIdx poolIdx =>
    { entries := ledger.entries ++ [((db, table, row, col), some ⟨specIdx, poolIdx⟩)]
      next := if ledger.next ≤ poolIdx then (poolIdx + 1) % 2 ^ 64 else ledger.next }
  | .registerBatch db table rowIds colNames specIndices =>
    { entries := ledger.entries ++ ((rowIds.zip colNames).zip specIndices).zipIdx.map
        fun (((row, col), specIdx), i) =>
          ((db, table, row, col), some ⟨specIdx, (ledger.next + i) % 2 ^ 64⟩)
      next := (ledger.next + specIndices.length) % 2 ^ 64 }
  | .remove db table row col =>
    { ledger with entries := ledger.entries ++ [((db, table, row, col), none)] }
  | .clear => empty

-- The pool indices that a call returns, none when it panics.
def gives (ledger : Ledger) : EngineOp → List Nat
  | .registerCell .. => [ledger.next]
  | .registerBatch _ _ rowIds colNames specIndices =>
    if specIndices.length ≤ rowIds.length ∧ specIndices.length ≤ colNames.length then
      (List.range' ledger.next specIndices.length).map (· % 2 ^ 64)
    else []
  | .set .. | .remove .. | .clear => []

def current (ledger : Ledger) (key : CellKey) : Option NeuralCell :=
  (FieldMap.lastValue key ledger.entries).join

def inUse (ledger : Ledger) : List (CellKey × NeuralCell) :=
  (ledger.entries.map Prod.fst).dedup.filterMap fun key => (ledger.current key).map (key, ·)

theorem mem_inUse (ledger : Ledger) (key : CellKey) (cell : NeuralCell) :
    (key, cell) ∈ ledger.inUse ↔ ledger.current key = some cell := by
  rw [inUse, List.mem_filterMap]
  constructor
  · rintro ⟨other, _, made⟩
    obtain ⟨_, found, same⟩ := Option.map_eq_some_iff.mp made
    obtain ⟨rfl, rfl⟩ := Prod.mk.inj same
    exact found
  · intro found
    have written : key ∈ ledger.entries.map Prod.fst := by
      rw [← FieldMap.lastValue_isSome, Option.join_eq_some_iff.mp found]
      rfl
    exact ⟨key, List.mem_dedup.mpr written, by rw [found]; rfl⟩

theorem nodup_inUse (ledger : Ledger) : (ledger.inUse.map Prod.fst).Nodup := by
  rw [inUse, List.map_filterMap]
  refine (List.nodup_dedup _).filterMap fun first second _ fromFirst fromSecond => ?_
  obtain ⟨_, some, rfl⟩ := Option.map_eq_some_iff.mp fromFirst
  obtain ⟨_, other, same⟩ := Option.map_eq_some_iff.mp fromSecond
  obtain ⟨_, _, rfl⟩ := Option.map_eq_some_iff.mp some
  obtain ⟨_, _, rfl⟩ := Option.map_eq_some_iff.mp other
  exact same.symm

theorem current_stored (ledger : Ledger) (pairs : List (CellKey × NeuralCell)) (next : Nat)
    (key : CellKey) :
    current ⟨ledger.entries ++ pairs.map (Prod.map id some), next⟩ key =
      (FieldMap.lastValue key pairs).or (ledger.current key) := by
  have lifted : FieldMap.lastValue key (pairs.map (Prod.map id some)) =
      (FieldMap.lastValue key pairs).map some := by
    induction pairs with
    | nil => rfl
    | cons pair pairs ih =>
      rw [List.map_cons, FieldMap.lastValue, FieldMap.lastValue, ih, Option.map_or]
      by_cases same : pair.1 = key <;> simp [same]
  rw [current, FieldMap.lastValue_append, lifted]
  cases FieldMap.lastValue key pairs with
  | none => rfl
  | some cell => rfl

structure KeptBy (ledger : Ledger) (engine : OmegaEngine) : Prop where
  cells : ∀ key, engine.index.lookup key = ledger.current key
  counter : engine.nextPoolIdx = ledger.next

theorem keptBy_new : KeptBy empty .new := ⟨fun key => Finmap.lookup_empty key, rfl⟩

theorem keptBy_stored {ledger : Ledger} {engine : OmegaEngine} (kept : KeptBy ledger engine)
    (pairs : List (CellKey × NeuralCell)) (tableIndex : TableIndex) (next : Nat) :
    KeptBy ⟨ledger.entries ++ pairs.map (Prod.map id some), next⟩
      ⟨FieldMap.insertAll engine.index pairs, tableIndex, next⟩ :=
  ⟨fun key => by rw [FieldMap.lookup_insertAll, kept.cells, current_stored], rfl⟩

theorem keptBy_record {ledger : Ledger} {engine : OmegaEngine} (kept : KeptBy ledger engine)
    (op : EngineOp) : KeptBy (ledger.record op) (engine.after op) := by
  have counter := kept.counter
  cases op with
  | registerCell db table row col specIdx =>
    rw [record, ← counter]
    exact keptBy_stored kept [((db, table, row, col), ⟨specIdx, engine.nextPoolIdx⟩)] _ _
  | set db table row col specIdx poolIdx =>
    rw [record, ← counter]
    exact keptBy_stored kept [((db, table, row, col), ⟨specIdx, poolIdx⟩)] _ _
  | registerBatch db table rowIds colNames specIndices =>
    -- The cells that the batch stored before it panicked, if it did.
    have stored := keptBy_stored kept
      (OmegaEngine.batchCells db table rowIds colNames engine.nextPoolIdx 0 specIndices)
      (engine.after (.registerBatch db table rowIds colNames specIndices)).tableIndex
      ((engine.nextPoolIdx + specIndices.length) % 2 ^ 64)
    have next := OmegaEngine.nextPoolIdx_tryRegisterBatch engine db table rowIds colNames specIndices
    have index := OmegaEngine.index_tryRegisterBatch engine db table rowIds colNames specIndices
    refine ⟨fun key => ?_, ?_⟩
    · rw [record, ← counter]
      have found := stored.cells key
      rw [← index] at found
      refine found.trans (congrArg (fun entries => current ⟨entries, _⟩ key) ?_)
      rw [OmegaEngine.batchCells, List.map_map]
      rfl
    · rw [record, ← counter]
      exact next
  | remove db table row col =>
    refine ⟨fun key => ?_, counter⟩
    have looked : (engine.index.erase (db, table, row, col)).lookup key =
        if (db, table, row, col) = key then none else engine.index.lookup key := by
      split
      next same => rw [← same, Finmap.lookup_erase]
      next differ => exact Finmap.lookup_erase_ne (Ne.symm differ)
    refine looked.trans ?_
    rw [record, current, FieldMap.lastValue_append, FieldMap.lastValue, FieldMap.lastValue,
      kept.cells, current]
    split <;> rfl
  | clear => exact keptBy_new

theorem gives_eq {ledger : Ledger} {engine : OmegaEngine} (kept : KeptBy ledger engine)
    (op : EngineOp) : (engine.attempt op).2 = ledger.gives op := by
  cases op with
  | registerCell => exact congrArg ([·]) kept.counter
  | registerBatch db table rowIds colNames specIndices =>
    have completes := engine.tryRegisterBatch_isSome db table rowIds colNames specIndices
    rw [gives, ← kept.counter]
    cases done : (engine.tryRegisterBatch db table rowIds colNames specIndices).2 with
    | none =>
      rw [if_neg fun fits => by simp [done] at completes; omega]
      exact congrArg (Option.getD · []) done
    | some results =>
      rw [if_pos (completes.mp (by rw [done]; rfl)),
        ← OmegaEngine.results_tryRegisterBatch _ _ _ _ _ _ results done]
      exact congrArg (Option.getD · []) done
  | set | remove | clear => rfl

theorem keptBy_run (ops : List EngineOp) :
    KeptBy (Steps.run record empty ops) (Steps.run OmegaEngine.after .new ops) := by
  induction ops using List.reverseRecOn with
  | nil => exact keptBy_new
  | append_singleton ops op ih =>
    rw [Steps.run_append, Steps.run_append]
    exact keptBy_record ih op

end Ledger

namespace OmegaEngine

def indices (cell : NeuralCell) : Int × Nat := (cell.specIdx, cell.poolIdx)

theorem getCellMeta_eq (engine : OmegaEngine) (db table row col : Str) :
    engine.getCellMeta db table row col =
      (engine.index.lookup (db, table, row, col)).map indices := by
  rw [getCellMeta]
  split
  next found => rw [found]; rfl
  next missing => rw [missing]; rfl

theorem reads_run (ops : List EngineOp) :
    let engine := Steps.run after new ops
    let ledger := Steps.run Ledger.record .empty ops
    (∀ db table row col, engine.getCellMeta db table row col =
        (ledger.current (db, table, row, col)).map indices) ∧
      (∀ keys, engine.getBatchMeta keys = keys.map fun key => (ledger.current key).map indices) ∧
      engine.len = ledger.inUse.length ∧
      (∀ iterated, FieldMap.Enumerates iterated engine.index →
        (getAllEntries iterated).Perm (ledger.inUse.map (Prod.map id indices))) ∧
      ∀ op, (engine.attempt op).2 = ledger.gives op := by
  intro engine ledger
  have kept : Ledger.KeptBy ledger engine := Ledger.keptBy_run ops
  have all : FieldMap.Enumerates ledger.inUse engine.index :=
    ⟨ledger.nodup_inUse, fun key cell => by rw [Ledger.mem_inUse, kept.cells]⟩
  refine ⟨fun db table row col => ?_, fun keys => ?_, all.keys_card, fun iterated listed => ?_,
    Ledger.gives_eq kept⟩
  · rw [getCellMeta_eq, kept.cells]
  · exact List.map_congr_left fun key _ => by rw [kept.cells]; rfl
  · exact (listed.perm all).map _

end OmegaEngine

end OmegaDrive
