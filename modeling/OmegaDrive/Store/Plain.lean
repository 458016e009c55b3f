import OmegaDrive.Store.Database
import OmegaDrive.Store.HashEngine
import Mathlib.Logic.Function.Basic

set_option autoImplicit false

namespace OmegaDrive

inductive PlainValue where
  | str (value : Bytes)
  | hash (fields : HashFields)

def PlainStore : Type := Bytes → Option PlainValue

inductive PlainWrite where
  | set (key value : Bytes)
  | del (key : Bytes)
  | hmSet (key : Bytes) (fields : List (Bytes × Bytes))
  | flush

namespace PlainStore

def empty : PlainStore := fun _ => none

def put (plain : PlainStore) (key : Bytes) (value : Option PlainValue) : PlainStore :=
  fun other => if other = key then value else plain other

/-- The fields HMSET writes over: those of a hash, and none in place of anything else. -/
def hashAt (plain : PlainStore) (key : Bytes) : HashFields :=
  match plain key with
  | some (.hash fields) => fields
  | _ => ∅

def mergedAt (plain : PlainStore) (key : Bytes) (fields : List (Bytes × Bytes)) : HashFields :=
  FieldMap.insertAll (plain.hashAt key) fields

def write (plain : PlainStore) : PlainWrite → PlainStore
  | .set key value => plain.put key (some (.str value))
  | .del key => plain.put key none
  | .hmSet key fields => plain.put key (some (.hash (plain.mergedAt key fields)))
  | .flush => empty

def writeAll (plain : PlainStore) (writes : List PlainWrite) : PlainStore :=
  writes.foldl write plain

@[simp] theorem empty_apply (key : Bytes) : empty key = none := rfl

theorem put_apply (plain : PlainStore) (key other : Bytes) (value : Option PlainValue) :
    plain.put key value other = if other = key then value else plain other := rfl

@[simp] theorem writeAll_nil (plain : PlainStore) : plain.writeAll [] = plain := rfl

@[simp] theorem writeAll_cons (plain : PlainStore) (first : PlainWrite)
    (writes : List PlainWrite) :
    plain.writeAll (first :: writes) = (plain.write first).writeAll writes := rfl

theorem writeAll_append (plain : PlainStore) (first second : List PlainWrite) :
    plain.writeAll (first ++ second) = (plain.writeAll first).writeAll second :=
  List.foldl_append

end PlainStore

-- The new buffer of HMSET, from the entry it finds.
def hmSetBuffer (iter : IterOrder) (entry : Option NeuralValue) (fields : List (Str × Bytes)) :
    Bytes :=
  match entry with
  | some (.flatHash oldBuf) => FlatHash.merge iter oldBuf fields
  | _ => FlatHash.serialize fields

def entryFields : Option NeuralValue → HashFields
  | some (.flatHash buf) => hashFields buf
  | _ => ∅

theorem hashFields_hmSetBuffer (iter : IterOrder) (entry : Option NeuralValue)
    (fields : List (Str × Bytes)) (count : fields.length < 2 ^ 32) (sized : Sized fields)
    (fits : (FieldMap.insertAll (entryFields entry) (FlatHash.fieldBytes fields)).keys.card <
      2 ^ 32) :
    hashFields (hmSetBuffer iter entry fields) =
      FieldMap.insertAll (entryFields entry) (FlatHash.fieldBytes fields) := by
  have fresh := FlatHash.hashFields_serialize fields count sized
  cases entry with
  | none => exact fresh
  | some value =>
    cases value with
    | single bestIdx data len => exact fresh
    | multi originalLen bestIdx chunks => exact fresh
    | flatHash buf => exact FlatHash.hashFields_merge iter buf fields count sized fits

theorem whole_hmSetBuffer (iter : IterOrder) (entry : Option NeuralValue)
    (fields : List (Str × Bytes)) (sized : Sized fields) :
    Whole (hmSetBuffer iter entry fields) := by
  have fresh : Whole (FlatHash.serialize fields) :=
    whole_packFields _ (packable_fieldBytes fields sized)
  unfold hmSetBuffer
  split
  next oldBuf => exact FlatHash.whole_merge iter oldBuf fields sized
  next => exact fresh

structure Holds (model : McnnModel) (content : Bytes → HashFields → Prop) (db : Db)
    (plain : PlainStore) : Prop where
  absent : ∀ key, plain key = none → db key = none
  string : ∀ key value, plain key = some (.str value) →
    ∃ codec, db key = some (model.encode codec value)
  hash : ∀ key fields, plain key = some (.hash fields) →
    ∃ buf, db key = some (.flatHash buf) ∧ content buf fields

abbrev Represents (model : McnnModel) : Db → PlainStore → Prop :=
  Holds model fun buf fields => hashFields buf = fields

theorem McnnModel.encode_cases (model : McnnModel) (codec : Codec) (value : Bytes) :
    (∃ bestIdx data, model.encode codec value = .single bestIdx data value.length) ∨
      ∃ bestIdx chunks, model.encode codec value = .multi value.length bestIdx chunks := by
  obtain ⟨chunk, _, layout⟩ | ⟨chunks, _, layout⟩ := model.encode_layouts codec value
  · exact .inl ⟨_, chunk, layout⟩
  · exact .inr ⟨_, chunks, layout⟩

namespace Holds

variable {model : McnnModel} {content : Bytes → HashFields → Prop} {db : Db} {plain : PlainStore}

theorem initial : Holds model content Db.clear PlainStore.empty :=
  ⟨fun _ _ => rfl, fun _ _ present => by simp at present, fun _ _ present => by simp at present⟩

theorem put (held : Holds model content db plain) (key : Bytes) (entry : Option NeuralValue)
    (value : Option PlainValue) (absent : value = none → entry = none)
    (string : ∀ s, value = some (.str s) → ∃ codec, entry = some (model.encode codec s))
    (hash : ∀ fields, value = some (.hash fields) →
      ∃ buf, entry = some (.flatHash buf) ∧ content buf fields) :
    Holds model content (fun other => if other = key then entry else db other)
      (plain.put key value) := by
  refine ⟨?_, ?_, ?_⟩
  · intro other missing
    rw [PlainStore.put_apply] at missing
    split at missing
    next same => simp only [same, if_true]; exact absent missing
    next different => simp only [different, if_false]; exact held.absent other missing
  · intro other s present
    rw [PlainStore.put_apply] at present
    split at present
    next same => simp only [same, if_true]; exact string s present
    next different => simp only [different, if_false]; exact held.string other s present
  · intro other fields present
    rw [PlainStore.put_apply] at present
    split at present
    next same => simp only [same, if_true]; exact hash fields present
    next different => simp only [different, if_false]; exact held.hash other fields present

theorem insert_encode (held : Holds model content db plain) (codec : Codec) (key value : Bytes) :
    Holds model content (db.insert (AirKey.fromBytes key) (model.encode codec value))
      (plain.write (.set key value)) := by
  rw [Db.insert_fromBytes]
  exact held.put key (some (model.encode codec value)) (some (.str value))
    (by simp) (fun s same => ⟨codec, by cases same; rfl⟩) (by simp)

theorem remove (held : Holds model content db plain) (key : Bytes) :
    Holds model content (db.remove (AirKey.fromBytes key)) (plain.write (.del key)) := by
  rw [Db.remove_fromBytes]
  exact held.put key none none (fun _ => rfl) (by simp) (by simp)

theorem insert_hash (held : Holds model content db plain) (key buf : Bytes)
    (fields : List (Bytes × Bytes)) (merged : content buf (plain.mergedAt key fields)) :
    Holds model content (db.insert (AirKey.fromBytes key) (.flatHash buf))
      (plain.write (.hmSet key fields)) := by
  rw [Db.insert_fromBytes]
  exact held.put key (some (.flatHash buf)) (some (.hash (plain.mergedAt key fields)))
    (by simp) (by simp) (fun fields same => ⟨buf, rfl, by cases same; exact merged⟩)

theorem entryFields_get (held : Represents model db plain) (key : Bytes) :
    entryFields (db.get (AirKey.fromBytes key)) = plain.hashAt key := by
  rw [Db.get_fromBytes, PlainStore.hashAt]
  cases value : plain key with
  | none => rw [held.absent key value]; rfl
  | some value' =>
    cases value' with
    | str s =>
      obtain ⟨codec, stored⟩ := held.string key s value
      rw [stored]
      rcases model.encode_cases codec s with ⟨bestIdx, data, layout⟩ | ⟨bestIdx, chunks, layout⟩ <;>
        rw [layout] <;> rfl
    | hash fields =>
      obtain ⟨buf, stored, content⟩ := held.hash key fields value
      rw [stored]
      exact content

theorem hashFields_hmSetBuffer (held : Represents model db plain) (iter : IterOrder) (key : Bytes)
    (fields : List (Str × Bytes)) (count : fields.length < 2 ^ 32) (sized : Sized fields)
    (fits : (plain.mergedAt key (FlatHash.fieldBytes fields)).keys.card < 2 ^ 32) :
    hashFields (hmSetBuffer iter (db.get (AirKey.fromBytes key)) fields) =
      plain.mergedAt key (FlatHash.fieldBytes fields) := by
  rw [PlainStore.mergedAt, ← held.entryFields_get key] at fits ⊢
  exact OmegaDrive.hashFields_hmSetBuffer iter _ fields count sized fits

end Holds

end OmegaDrive
