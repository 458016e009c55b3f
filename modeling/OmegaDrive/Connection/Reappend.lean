import OmegaDrive.Connection.ReadBack
import OmegaDrive.Store.Packed

set_option autoImplicit false

namespace OmegaDrive

/-! Writing the same list twice writes it once: what each key ends with is fixed by the last write
that does not merge, or it is merged with what it had. -/

def fieldsOf : Option PlainValue → HashFields
  | some (.hash fields) => fields
  | _ => ∅

inductive KeyEffect where
  | keep
  | put (value : Option PlainValue)
  | merge (fields : List (Bytes × Bytes))

namespace KeyEffect

def apply : KeyEffect → Option PlainValue → Option PlainValue
  | keep, entry => entry
  | put value, _ => value
  | merge fields, entry => some (.hash (FieldMap.insertAll (fieldsOf entry) fields))

def andThen : KeyEffect → KeyEffect → KeyEffect
  | first, keep => first
  | _, put value => put value
  | keep, merge fields => merge fields
  | put value, merge fields => put (some (.hash (FieldMap.insertAll (fieldsOf value) fields)))
  | merge first, merge second => merge (first ++ second)

theorem apply_andThen (first second : KeyEffect) (entry : Option PlainValue) :
    (first.andThen second).apply entry = second.apply (first.apply entry) := by
  cases second with
  | keep | put => cases first <;> rfl
  | merge fields =>
    cases first with
    | keep | put => rfl
    | merge earlier => simp only [andThen, apply, fieldsOf, FieldMap.insertAll_append]

theorem apply_twice (effect : KeyEffect) (entry : Option PlainValue) :
    effect.apply (effect.apply entry) = effect.apply entry := by
  cases effect with
  | keep | put => rfl
  | merge fields =>
    simp only [apply, fieldsOf, ← FieldMap.insertAll_append]
    refine congrArg (fun map => some (PlainValue.hash map)) (Finmap.ext_lookup fun name => ?_)
    rw [FieldMap.lookup_insertAll, FieldMap.lookup_insertAll, FieldMap.lastValue_append]
    cases FieldMap.lastValue name fields <;> rfl

end KeyEffect

def PlainWrite.effect (key : Bytes) : PlainWrite → KeyEffect
  | .set other value => if key = other then .put (some (.str value)) else .keep
  | .del other => if key = other then .put none else .keep
  | .hmSet other fields => if key = other then .merge fields else .keep
  | .flush => .put none

namespace PlainStore

theorem hashAt_eq (plain : PlainStore) (key : Bytes) : plain.hashAt key = fieldsOf (plain key) := by
  unfold hashAt fieldsOf
  rfl

theorem write_apply (plain : PlainStore) (write : PlainWrite) (key : Bytes) :
    plain.write write key = (write.effect key).apply (plain key) := by
  cases write with
  | flush => rfl
  | set other value | del other =>
    simp only [PlainStore.write, put_apply, PlainWrite.effect]
    split <;> rfl
  | hmSet other fields =>
    simp only [PlainStore.write, put_apply, PlainWrite.effect, mergedAt, hashAt_eq]
    split
    next same => rw [same]; rfl
    next => rfl

def effectOf (key : Bytes) (writes : List PlainWrite) : KeyEffect :=
  writes.foldl (fun effect write => effect.andThen (write.effect key)) .keep

theorem writeAll_apply (plain : PlainStore) (writes : List PlainWrite) (key : Bytes) :
    plain.writeAll writes key = (effectOf key writes).apply (plain key) := by
  induction writes using List.reverseRecOn with
  | nil => rfl
  | append_singleton writes write ih =>
    rw [writeAll_append, effectOf, List.foldl_append, ← effectOf]
    simp only [writeAll_cons, writeAll_nil, List.foldl_cons, List.foldl_nil, write_apply, ih,
      KeyEffect.apply_andThen]

theorem writeAll_twice (plain : PlainStore) (writes : List PlainWrite) :
    (plain.writeAll writes).writeAll writes = plain.writeAll writes := by
  funext key
  simp only [writeAll_apply, KeyEffect.apply_twice]

theorem writeAll_absorbs (plain : PlainStore) (first rest : List PlainWrite) :
    (plain.writeAll first).writeAll (first ++ rest) = plain.writeAll (first ++ rest) := by
  rw [writeAll_append, writeAll_twice, writeAll_append]

end PlainStore

theorem hashesFit_absorbed (plain : PlainStore) (first rest : List PlainWrite)
    (fit : HashesFit plain (first ++ (first ++ rest))) : HashesFit plain (first ++ rest) := by
  simp only [hashesFit_append, PlainStore.writeAll_twice] at fit ⊢
  exact ⟨fit.1, fit.2.2⟩

/-! Any store as plaintext: what GET reads of its strings, and the fields of its hashes. -/

def NeuralValue.plain (model : McnnModel) : NeuralValue → PlainValue
  | .flatHash buf => .hash (hashFields buf)
  | value => .str (((model.readCascade value).map Prod.snd).getD [])

def Db.plain (model : McnnModel) (db : Db) : PlainStore := fun key =>
  (db key).map (NeuralValue.plain model)

theorem Db.plain_insert (model : McnnModel) (db : Db) (key : Bytes) (value : NeuralValue) :
    (db.insert (AirKey.fromBytes key) value).plain model =
      (db.plain model).put key (some (value.plain model)) := by
  funext other
  rw [Db.plain, insert_fromBytes, PlainStore.put_apply]
  by_cases same : other = key
  · simp [same]
  · simp [same, Db.plain]

theorem Db.plain_remove (model : McnnModel) (db : Db) (key : Bytes) :
    (db.remove (AirKey.fromBytes key)).plain model = (db.plain model).put key none := by
  funext other
  rw [Db.plain, remove_fromBytes, PlainStore.put_apply]
  by_cases same : other = key
  · simp [same]
  · simp [same, Db.plain]

theorem McnnModel.plain_encode (model : McnnModel) (value : Bytes) :
    (model.encode .cascade value).plain model = .str value := by
  have read := model.readCascade_cascade value
  rcases model.encode_cases .cascade value with ⟨bestIdx, data, layout⟩ | ⟨bestIdx, chunks, layout⟩ <;>
    rw [layout] at read ⊢ <;> simp [NeuralValue.plain, read]

theorem entryFields_plain (model : McnnModel) (db : Db) (key : Bytes) :
    entryFields (db key) = (db.plain model).hashAt key := by
  rw [PlainStore.hashAt_eq, Db.plain]
  cases db key with
  | none => rfl
  | some value => cases value <;> rfl

namespace Server

variable {F : Type} [FloatArith F]

theorem plain_replayCommand (env : Env) (server : Server F) (record : PersistenceCommand F)
    (sized : (Request.ofRecord record).Sized)
    (fit : HashesFit (server.db.plain env.model) record.writes) :
    (server.replayCommand env record.command).db.plain env.model =
      (server.db.plain env.model).writeAll record.writes := by
  cases record with
  | set key value =>
    exact (Db.plain_insert _ _ _ _).trans (by rw [McnnModel.plain_encode]; rfl)
  | del key => exact Db.plain_remove _ _ _
  | hmSet key fields =>
    have merged : hashFields (server.mergeHash env key fields).2 =
        (server.db.plain env.model).mergedAt key.bytes (FlatHash.fieldBytes fields) := by
      have bound := fit.1 _ _ rfl
      rw [PlainStore.mergedAt, ← entryFields_plain] at bound ⊢
      simp only [mergeHash, Db.get_fromBytes]
      exact hashFields_hmSetBuffer _ _ fields sized.1 sized.2 bound
    have hash : (NeuralValue.flatHash (server.mergeHash env key fields).2).plain env.model =
        .hash ((server.db.plain env.model).mergedAt key.bytes (FlatHash.fieldBytes fields)) :=
      congrArg PlainValue.hash merged
    have written := Db.plain_insert env.model server.db key.bytes
      (.flatHash (server.mergeHash env key fields).2)
    rw [hash] at written
    exact written
  | vAdd key floats => rfl
  | flushDb => rfl

theorem plain_replay (env : Env) (server : Server F) (records : List (PersistenceCommand F))
    (sized : ∀ record ∈ records, (Request.ofRecord record).Sized)
    (fit : HashesFit (server.db.plain env.model) (records.flatMap PersistenceCommand.writes)) :
    (server.replay env records).db.plain env.model =
      (server.db.plain env.model).writeAll (records.flatMap PersistenceCommand.writes) := by
  induction records generalizing server with
  | nil => rfl
  | cons record records ih =>
    rw [List.flatMap_cons, hashesFit_append] at fit
    have step := plain_replayCommand env server record (sized _ List.mem_cons_self) fit.1
    rw [List.flatMap_cons, PlainStore.writeAll_append, ← step]
    rw [← step] at fit
    exact ih _ (fun other member => sized other (List.mem_cons_of_mem _ member)) fit.2

theorem replay_absorbs (env : Env) (server : Server F) (first batch : List (PersistenceCommand F))
    (starts : first <+: batch) (iter : Nat → IterOrder)
    (sized : ∀ record ∈ batch, (Request.ofRecord record).Sized)
    (fit : HashesFit (server.db.plain env.model)
      ((first ++ batch).flatMap PersistenceCommand.writes)) :
    ((server.replay env first).replay env batch).db.plain env.model =
      (server.replay { env with iter } batch).db.plain env.model := by
  obtain ⟨rest, rfl⟩ := starts
  have early : ∀ record ∈ first, (Request.ofRecord record).Sized := fun record member =>
    sized record (List.mem_append_left _ member)
  simp only [List.flatMap_append] at fit
  have alone := hashesFit_absorbed _ _ _ fit
  rw [hashesFit_append] at fit
  have once := plain_replay env server first early fit.1
  have twice := plain_replay env (server.replay env first) (first ++ rest) sized
    (by rw [once, List.flatMap_append]; exact fit.2)
  have direct := plain_replay { env with iter } server (first ++ rest) sized
    (by rw [List.flatMap_append]; exact alone)
  rw [twice, once, direct, List.flatMap_append, PlainStore.writeAll_absorbs]

def oneMore : List (Str × Bytes) := [(⟨ascii "v", validUtf8_v⟩, [])]

def hashBatch : List (PersistenceCommand Int) := [.hmSet ⟨ascii "k", validUtf8_k⟩ oneMore]

theorem sized_oneMore : Sized oneMore := by
  unfold Sized
  decide

theorem replay_absorbs_hash :
    (((new (F := Int) 4).replay (constantEnv 0) hashBatch).replay (constantEnv 0)
        hashBatch).db.plain (constantEnv 0).model =
      ((new (F := Int) 4).replay (constantEnv 0) hashBatch).db.plain (constantEnv 0).model := by
  refine replay_absorbs (constantEnv 0) (new 4) hashBatch hashBatch List.prefix_rfl _ ?_ ?_
  · intro record member
    obtain rfl := List.mem_singleton.mp member
    exact ⟨by decide, sized_oneMore⟩
  · refine ⟨?_, ?_, trivial⟩ <;> rintro key fields ⟨⟩ <;> decide

/-- A hash of this many fields under `k`. -/
def hashOf (count : Nat) : Server Int :=
  { new 4 with
    db := Db.clear.insert (AirKey.fromBytes (ascii "k"))
      (.flatHash (FlatHash.serialize (FlatHash.numbered 0 count))) }

theorem hashFields_wrapped (fields : List (Bytes × Bytes))
    (sized : ∀ field ∈ fields, Packable field) (full : fields.length = 2 ^ 32) :
    hashFields (packFields fields) = ∅ := by
  have unpacked := unpack_pack_take fields sized []
  rw [List.append_nil, full, Nat.mod_self, List.take_zero] at unpacked
  rw [hashFields, unpacked, FieldMap.insertAll_nil]

theorem distinct_oneMore (count : Nat) (few : count ≤ 2 ^ 35) :
    FlatHash.distinctNames (FlatHash.numbered 0 count) oneMore = count + 1 := by
  have distinct : ((FlatHash.fieldBytes (FlatHash.numbered 0 count) ++
      FlatHash.fieldBytes oneMore).map Prod.fst).Nodup := by
    rw [List.map_append]
    refine List.nodup_append.mpr ⟨FlatHash.nodup_numbered 0 count (by omega), by decide, ?_⟩
    rw [FlatHash.names_numbered]
    rintro name member other here rfl
    obtain ⟨i, _, rfl⟩ := List.mem_map.mp member
    have short : FlatHash.numberName i = ascii "v" := List.mem_singleton.mp here
    exact absurd (congrArg List.length short) (show (5 : Nat) ≠ 1 by decide)
  rw [FlatHash.distinctNames, List.toFinset_card_of_nodup distinct]
  simp [FlatHash.fieldBytes, oneMore]

theorem db_hashBatch (env : Env) (server : Server Int) :
    (server.replay env hashBatch).db (ascii "k") =
      some (.flatHash (hmSetBuffer (env.iter server.maps) (server.db (ascii "k")) oneMore)) := by
  simp [replay, hashBatch, PersistenceCommand.command, replayCommand, insert, mergeHash,
    Db.insert_fromBytes]

theorem hash_lost (count : Nat) (full : count + 1 = 2 ^ 32) (env : Env) :
    (((hashOf count).replay env hashBatch).replay env hashBatch).db.plain env.model ≠
      ((hashOf count).replay env hashBatch).db.plain env.model := by
  have stored : (hashOf count).db (ascii "k") =
      some (.flatHash (FlatHash.serialize (FlatHash.numbered 0 count))) := by
    simp [hashOf, Db.insert_fromBytes]
  obtain ⟨merged, result, small, lists⟩ := FlatHash.merge_packFields (env.iter (hashOf count).maps)
    (FlatHash.fieldBytes (FlatHash.numbered 0 count))
    (by rw [FlatHash.fieldBytes, List.length_map, FlatHash.length_numbered]; omega)
    (packable_fieldBytes _ (FlatHash.sized_numbered 0 count)) oneMore sized_oneMore
  have size : merged.length = 2 ^ 32 := by
    rw [lists.length, FlatHash.card_distinctNames, distinct_oneMore count (by omega), full]
  have once := db_hashBatch env (hashOf count)
  rw [stored] at once
  rw [hmSetBuffer, FlatHash.serialize, result] at once
  have lost := hashFields_wrapped merged small size
  have twice := db_hashBatch env ((hashOf count).replay env hashBatch)
  rw [once, hmSetBuffer] at twice
  have found := FlatHash.hashFields_merge (env.iter ((hashOf count).replay env hashBatch).maps)
    (packFields merged) oneMore (by decide) sized_oneMore (by rw [lost]; decide)
  rw [lost] at found
  intro same
  have here := congrFun same (ascii "k")
  simp only [Db.plain, once, twice, Option.map_some, NeuralValue.plain, found, lost] at here
  exact absurd (congrArg fieldsOf here) (by decide)

-- The header of 2^32 fields counts none of them: the hash is lost, and the field alone is there
-- when it is written again.
theorem full_hash_lost :
    (((hashOf (2 ^ 32 - 1)).replay (constantEnv 0) hashBatch).replay (constantEnv 0)
        hashBatch).db.plain (constantEnv 0).model ≠
      ((hashOf (2 ^ 32 - 1)).replay (constantEnv 0) hashBatch).db.plain (constantEnv 0).model :=
  hash_lost (2 ^ 32 - 1) (by decide) (constantEnv 0)

end Server

end OmegaDrive
