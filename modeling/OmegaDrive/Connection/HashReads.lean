import OmegaDrive.Connection.ReadBack
import OmegaDrive.Connection.Replies

set_option autoImplicit false

namespace OmegaDrive

open RespValue FlatHash

def Request.hGetAll {F : Type} (key : Str) : Request F := .command (.hGetAll key) rfl

def RepliesMap (reply : Bytes) (written : List (Bytes × Bytes)) : Prop :=
  ∃ pairs, FieldMap.Lists pairs written ∧ reply = (mapReply pairs).text

theorem repliesMap_iff (buf : Bytes) (whole : Whole buf) (written : List (Bytes × Bytes)) :
    RepliesMap (deserializeIntoResp buf) written ↔ FieldMap.Lists (unpackFields buf) written := by
  rw [deserialize_text buf whole]
  constructor
  · rintro ⟨pairs, lists, same⟩
    rwa [mapReply_inj _ _ (text_unique _ _ same)]
  · intro lists
    exact ⟨_, lists, rfl⟩

theorem length_readFields (count : Nat) (buf : Bytes) : (readFields count buf).length ≤ count := by
  induction count generalizing buf with
  | zero => simp [readFields]
  | succ count ih =>
    rw [readFields]
    split
    next => simp
    next field used run =>
      have rest := ih (buf.drop used)
      simp only [List.length_cons]
      omega

theorem length_unpackFields (buf : Bytes) : (unpackFields buf).length < 2 ^ 32 := by
  rw [unpackFields]
  split
  next => simp
  next count used header =>
    have bound := (readU32_lt _ _ _ header).1
    have fewer := length_readFields count (buf.drop used)
    omega

theorem merge_lists (iter : IterOrder) (pairs written : List (Bytes × Bytes))
    (fields : List (Str × Bytes)) (packable : ∀ pair ∈ pairs, Packable pair)
    (count : pairs.length < 2 ^ 32) (sized : Sized fields)
    (same : ∀ name, FieldMap.lastValue name pairs = FieldMap.lastValue name written)
    (fits : (FieldMap.insertAll ∅ (written ++ fieldBytes fields)).keys.card < 2 ^ 32) :
    ∃ merged, merge iter (packFields pairs) fields = packFields merged ∧
      (∀ pair ∈ merged, Packable pair) ∧ merged.length < 2 ^ 32 ∧
      FieldMap.Lists merged (written ++ fieldBytes fields) := by
  obtain ⟨merged, result, small, lists⟩ := merge_packFields iter pairs count packable fields sized
  have all (name : Bytes) : FieldMap.lastValue name (pairs ++ fieldBytes fields) =
      FieldMap.lastValue name (written ++ fieldBytes fields) := by
    rw [FieldMap.lastValue_append, FieldMap.lastValue_append, same]
  refine ⟨merged, result, small, ?_, lists.1, fun name value => ?_⟩
  · rw [lists.length, FieldMap.insertAll_congr _ _ all]
    exact fits
  · rw [lists.2, all]

def Packed (buf : Bytes) (written : List (Bytes × Bytes)) : Prop :=
  ∃ pairs, buf = packFields pairs ∧ (∀ pair ∈ pairs, Packable pair) ∧ pairs.length < 2 ^ 32 ∧
    ∀ name, FieldMap.lastValue name pairs = FieldMap.lastValue name written

theorem packed_serialize (fields : List (Str × Bytes)) (count : fields.length < 2 ^ 32)
    (sized : Sized fields) : Packed (serialize fields) (fieldBytes fields) :=
  ⟨fieldBytes fields, rfl, packable_fieldBytes fields sized, by simpa [fieldBytes] using count,
    fun _ => rfl⟩

theorem lists_serialize (fields : List (Str × Bytes)) (count : fields.length < 2 ^ 32)
    (sized : Sized fields) :
    FieldMap.Lists (unpackFields (serialize fields)) (fieldBytes fields) ↔
      ((fieldBytes fields).map Prod.fst).Nodup ∧
        (FieldMap.insertAll ∅ (fieldBytes fields)).keys.card < 2 ^ 32 := by
  rw [unpack_serialize fields count sized, FieldMap.lists_self]
  refine (and_iff_left_of_imp fun distinct => ?_).symm
  rw [← ((FieldMap.lists_self _).mpr distinct).length]
  simpa [fieldBytes] using count

theorem card_keys_append (first second : List (Bytes × Bytes)) :
    (FieldMap.insertAll ∅ first).keys.card ≤ (FieldMap.insertAll ∅ (first ++ second)).keys.card := by
  rw [FieldMap.keys_insertAll, FieldMap.keys_insertAll, List.map_append, List.toFinset_append]
  exact Finset.card_le_card Finset.subset_union_left

namespace Server

variable {F : Type} [FloatArith F]

def entry (server : Server F) (key : Str) : Option NeuralValue :=
  server.db.get (AirKey.fromBytes key.bytes)

theorem entry_hmSet (env : Env) (server : Server F) (key : Str) (fields : List (Str × Bytes)) :
    (server.handle env (.hmSet key fields)).1.entry key =
      some (.flatHash (hmSetBuffer (env.iter server.maps) (server.entry key) fields)) := by
  simp only [entry, Request.hmSet, handle, db_send, insert, Db.get_insert, if_true]
  rfl

theorem hGetAll_entry (env : Env) (server : Server F) (key : Str) (buf : Bytes)
    (found : server.entry key = some (.flatHash buf)) :
    (server.handle env (.hGetAll key)).2 = some (deserializeIntoResp buf) := by
  rw [entry] at found
  simp only [Request.hGetAll, handle, hGetAllReply, found]

theorem hGetAll_lists (env : Env) (server : Server F) (key : Str) (buf : Bytes)
    (found : server.entry key = some (.flatHash buf)) (whole : Whole buf)
    (written : List (Bytes × Bytes)) :
    (∃ reply, (server.handle env (.hGetAll key)).2 = some reply ∧ RepliesMap reply written) ↔
      FieldMap.Lists (unpackFields buf) written := by
  rw [hGetAll_entry env server key buf found, ← repliesMap_iff buf whole]
  simp

theorem hGetAll_absent (env : Env) (server : Server F) (key : Str)
    (absent : server.entry key = none) :
    (server.handle env (.hGetAll key)).2 = some (mapReply []).text := by
  rw [entry] at absent
  simp only [Request.hGetAll, handle, hGetAllReply, absent]
  exact congrArg some text_noItems

theorem whole_hmSets (env : Env) (server : Server F) (key : Str)
    (updates : List (List (Str × Bytes))) (sized : ∀ fields ∈ updates, Sized fields) (buf : Bytes)
    (found : server.entry key = some (.flatHash buf)) (whole : Whole buf) :
    ∃ after, (server.run env (updates.map (.hmSet key))).entry key = some (.flatHash after) ∧
      Whole after := by
  induction updates generalizing server buf with
  | nil => exact ⟨buf, found, whole⟩
  | cons fields updates ih =>
    exact ih _ (fun other member => sized other (List.mem_cons_of_mem _ member)) _
      (entry_hmSet env server key fields)
      (whole_hmSetBuffer _ _ fields (sized fields List.mem_cons_self))

theorem merged_hmSets (env : Env) (server : Server F) (key : Str)
    (updates : List (List (Str × Bytes))) (sized : ∀ fields ∈ updates, Sized fields) (buf : Bytes)
    (written : List (Bytes × Bytes)) (found : server.entry key = some (.flatHash buf))
    (packed : Packed buf written)
    (fits : (FieldMap.insertAll ∅ (written ++ updates.flatMap fieldBytes)).keys.card < 2 ^ 32) :
    ∃ after, (server.run env (updates.map (.hmSet key))).entry key = some (.flatHash after) ∧
      (updates ≠ [] → FieldMap.Lists (unpackFields after) (written ++ updates.flatMap fieldBytes)) := by
  induction updates generalizing server buf written with
  | nil => exact ⟨buf, found, fun none => absurd rfl none⟩
  | cons fields updates ih =>
    obtain ⟨pairs, rfl, packable, count, same⟩ := packed
    rw [List.flatMap_cons, ← List.append_assoc] at fits ⊢
    have enough := Nat.lt_of_le_of_lt (card_keys_append _ _) fits
    obtain ⟨merged, result, small, fewer, lists⟩ := merge_lists (env.iter server.maps) pairs written
      fields packable count (sized fields List.mem_cons_self) same enough
    have stored := entry_hmSet env server key fields
    rw [found] at stored
    simp only [hmSetBuffer, result] at stored
    obtain ⟨after, reached, later⟩ := ih _
      (fun other member => sized other (List.mem_cons_of_mem _ member)) _ _ stored
      ⟨merged, rfl, small, fewer, lists.lastValue⟩ fits
    refine ⟨after, reached, fun _ => ?_⟩
    cases updates with
    | cons second updates => exact later (List.cons_ne_nil _ _)
    | nil =>
      obtain rfl := NeuralValue.flatHash.inj (Option.some.inj (stored.symm.trans reached))
      rw [unpack_pack merged fewer small, List.flatMap_nil, List.append_nil]
      exact lists

theorem hGetAll_map_iff (env : Env) (server : Server F) (key : Str)
    (updates : List (List (Str × Bytes))) (absent : server.entry key = none)
    (sized : ∀ fields ∈ updates, fields.length < 2 ^ 32 ∧ Sized fields) :
    (∃ reply,
        ((server.run env (updates.map (.hmSet key))).handle env (.hGetAll key)).2 = some reply ∧
          RepliesMap reply (updates.flatMap fieldBytes)) ↔
      (∀ fields, updates = [fields] → ((fieldBytes fields).map Prod.fst).Nodup) ∧
        (FieldMap.insertAll ∅ (updates.flatMap fieldBytes)).keys.card < 2 ^ 32 := by
  cases updates with
  | nil =>
    have empty : FieldMap.Lists [] ([] : List (Bytes × Bytes)) :=
      (FieldMap.lists_self []).mpr List.nodup_nil
    refine iff_of_true ⟨_, hGetAll_absent env server key absent, [], empty, rfl⟩ ⟨?_, by simp⟩
    intro fields none
    cases none
  | cons first rest =>
    obtain ⟨count, small⟩ := sized first List.mem_cons_self
    have later : ∀ fields ∈ rest, Sized fields := fun fields member =>
      (sized fields (List.mem_cons_of_mem _ member)).2
    have stored : (server.handle env (.hmSet key first)).1.entry key =
        some (.flatHash (serialize first)) := by
      rw [entry_hmSet, absent]
      rfl
    obtain ⟨buf, reached, whole⟩ := whole_hmSets env _ key rest later _ stored
      (whole_packFields _ (packable_fieldBytes first small))
    apply (hGetAll_lists env _ key buf reached whole _).trans
    cases rest with
    | nil =>
      obtain rfl := NeuralValue.flatHash.inj (Option.some.inj (stored.symm.trans reached))
      rw [List.flatMap_cons, List.flatMap_nil, List.append_nil, lists_serialize first count small]
      refine and_congr_left fun _ => ⟨fun distinct fields only => ?_, fun each => each first rfl⟩
      rwa [← (List.cons.inj only).1]
    | cons second rest =>
      constructor
      · intro lists
        refine ⟨fun fields only => (by cases only), ?_⟩
        rw [← lists.length]
        exact length_unpackFields buf
      · rintro ⟨_, fits⟩
        obtain ⟨after, same, lists⟩ := merged_hmSets env _ key (second :: rest) later _ _ stored
          (packed_serialize first count small) fits
        obtain rfl := NeuralValue.flatHash.inj (Option.some.inj (same.symm.trans reached))
        exact lists (List.cons_ne_nil _ _)

def oneField (value : Bytes) : List (Str × Bytes) := [(⟨ascii "k", validUtf8_k⟩, value)]

theorem hGetAll_map_merged :
    ∃ reply, (((Server.new (F := Int) 4).run (constantEnv 0)
        ([oneField (ascii "1"), oneField (ascii "2")].map
          (.hmSet ⟨ascii "v", validUtf8_v⟩))).handle (constantEnv 0)
            (.hGetAll ⟨ascii "v", validUtf8_v⟩)).2 = some reply ∧
      RepliesMap reply ([oneField (ascii "1"), oneField (ascii "2")].flatMap fieldBytes) :=
  (hGetAll_map_iff _ _ _ _ rfl (by simp only [Sized]; decide)).mpr ⟨by simp, by decide⟩

-- One HMSET that names a field twice is answered with both its values.
theorem field_listed_twice :
    ¬ ∃ reply, (((Server.new (F := Int) 4).run (constantEnv 0)
        ([oneField (ascii "1") ++ oneField (ascii "2")].map
          (.hmSet ⟨ascii "v", validUtf8_v⟩))).handle (constantEnv 0)
            (.hGetAll ⟨ascii "v", validUtf8_v⟩)).2 = some reply ∧
      RepliesMap reply ([oneField (ascii "1") ++ oneField (ascii "2")].flatMap fieldBytes) := by
  rintro ⟨reply, given, pairs, lists, rfl⟩
  have answered : mapReply (fieldBytes (oneField (ascii "1") ++ oneField (ascii "2"))) =
      mapReply pairs := text_unique _ _ (Option.some.inj (Eq.trans (by decide +kernel) given))
  rw [← mapReply_inj _ _ answered] at lists
  exact absurd lists.1 (by decide)

end Server

end OmegaDrive
