import OmegaDrive.Connection.Ordering

set_option autoImplicit false

namespace OmegaDrive

section Updates

variable {ι F : Type} [DecidableEq ι]

def hmSets (key : Str) (updates : ι → List (List (Str × Bytes))) (i : ι) : List (Request F) :=
  (updates i).map fun fields => .command (.hmSet key fields) rfl

/-- A buffer is inserted over the entry it was merged from, and its fields can be counted. -/
def Undisturbed (_ : ι) (threads : Threads ι (Observed ι F) (Action F)) : Action F → Prop
  | .insertBuffer key fields found _ =>
      threads.shared.server.db.get (AirKey.fromBytes key.bytes) = found ∧
        (FieldMap.insertAll (entryFields found) (FlatHash.fieldBytes fields)).keys.card < 2 ^ 32
  | _ => True

def Written (updates : ι → List (List (Str × Bytes))) (field value : Bytes) : Prop :=
  ∃ i, ∃ fields ∈ updates i, (field, value) ∈ FlatHash.fieldBytes fields

def Present (updates : ι → List (List (Str × Bytes))) (hash : HashFields)
    (fields : List (Str × Bytes)) : Prop :=
  ∀ field ∈ FlatHash.fieldBytes fields,
    ∃ value, hash.lookup field.1 = some value ∧ Written updates field.1 value

def Expected (key : Str) (updates : List (List (Str × Bytes))) : Action F → Prop
  | .merge name fields => name = key ∧ fields ∈ updates
  | .insertBuffer name fields found newBuf => name = key ∧ fields ∈ updates ∧
      ∃ iter, newBuf = hmSetBuffer iter found fields
  | .send _ => True
  | _ => False

def Underway (fields : List (Str × Bytes)) : Action F → Prop
  | .merge _ merging => merging = fields
  | .insertBuffer _ merging _ _ => merging = fields
  | _ => False

/-- The fields of every HMSET are in the stored hash, or the HMSET has still to insert them. -/
structure Kept (key : Str) (updates : ι → List (List (Str × Bytes)))
    (threads : Threads ι (Observed ι F) (Action F)) : Prop where
  expected : ∀ i, ∀ action ∈ threads.todo i, Expected key (updates i) action
  kept : ∀ i, ∀ fields ∈ updates i, (∃ action ∈ threads.todo i, Underway fields action) ∨
    Present updates (entryFields (threads.shared.server.db.get (AirKey.fromBytes key.bytes))) fields

omit [DecidableEq ι] in
theorem present_insertAll (updates : ι → List (List (Str × Bytes))) (hash : HashFields)
    (i : ι) (writing : List (Str × Bytes)) (member : writing ∈ updates i) :
    Present updates (FieldMap.insertAll hash (FlatHash.fieldBytes writing)) writing ∧
      ∀ fields, Present updates hash fields →
        Present updates (FieldMap.insertAll hash (FlatHash.fieldBytes writing)) fields := by
  have wrote (field value : Bytes)
      (last : FieldMap.lastValue field (FlatHash.fieldBytes writing) = some value) :
      Written updates field value :=
    ⟨i, writing, member, FieldMap.lastValue_mem _ _ _ last⟩
  constructor
  · intro field inside
    have some := (FieldMap.lastValue_isSome field.1 (FlatHash.fieldBytes writing)).mpr
      (List.mem_map_of_mem inside)
    obtain ⟨value, last⟩ := Option.isSome_iff_exists.mp some
    exact ⟨value, by rw [FieldMap.lookup_insertAll, last]; rfl, wrote _ _ last⟩
  · intro fields present field inside
    obtain ⟨old, held, written⟩ := present field inside
    cases last : FieldMap.lastValue field.1 (FlatHash.fieldBytes writing) with
    | none => exact ⟨old, by rw [FieldMap.lookup_insertAll, last, held]; rfl, written⟩
    | some value => exact ⟨value, by rw [FieldMap.lookup_insertAll, last]; rfl, wrote _ _ last⟩

variable [FloatArith F]

omit [DecidableEq ι] in
theorem fields_perform (env : Env) (key : Str) (mine : List (List (Str × Bytes)))
    (sized : ∀ fields ∈ mine, fields.length < 2 ^ 32 ∧ Sized fields) (i : ι)
    (threads : Threads ι (Observed ι F) (Action F)) (action : Action F)
    (expected : Expected key mine action) (undisturbed : Undisturbed i threads action) :
    let before := entryFields (threads.shared.server.db.get (AirKey.fromBytes key.bytes))
    let after := entryFields
      ((threads.shared.server.perform env action).1.db.get (AirKey.fromBytes key.bytes))
    (after = before ∧ ∀ name fields found newBuf, action ≠ .insertBuffer name fields found newBuf) ∨
      ∃ writing ∈ mine, (∀ fields, Underway fields action → writing = fields) ∧
        after = FieldMap.insertAll before (FlatHash.fieldBytes writing) := by
  intro before after
  cases action with
  | merge name fields => exact .inl ⟨rfl, by simp⟩
  | send record =>
    refine .inl ⟨?_, by simp⟩
    simp only [before, after, Server.perform, Server.db_send]
  | insertBuffer name fields found newBuf =>
    obtain ⟨rfl, member, iter, rfl⟩ := expected
    obtain ⟨rfl, fits⟩ := undisturbed
    obtain ⟨count, small⟩ := sized fields member
    refine .inr ⟨fields, member, fun other same => same, ?_⟩
    have merged := hashFields_hmSetBuffer iter _ fields count small fits
    simp only [after, Server.perform, Server.insert, Db.get_insert]
    exact merged
  | _ => exact expected.elim

omit [DecidableEq ι] in
theorem expected_perform (env : Env) (server : Server F) (key : Str)
    (mine : List (List (Str × Bytes))) (action : Action F)
    (expected : Expected key mine action) :
    ∀ more ∈ (server.perform env action).2, Expected key mine more := by
  intro more member
  cases action with
  | merge name fields =>
    obtain rfl := List.mem_singleton.mp member
    exact ⟨expected.1, expected.2, env.iter server.maps, rfl⟩
  | _ => cases member

theorem underway_perform (env : Env) (server : Server F) (action : Action F)
    (fields : List (Str × Bytes)) (underway : Underway fields action) :
    (∃ more ∈ (server.perform env action).2, Underway fields more) ∨
      ∃ name found newBuf, action = .insertBuffer name fields found newBuf := by
  cases action with
  | merge name merging => exact .inl ⟨_, List.mem_singleton_self _, underway⟩
  | insertBuffer name merging found newBuf =>
    obtain rfl : merging = fields := underway
    exact .inr ⟨name, found, newBuf, rfl⟩
  | _ => exact underway.elim

theorem kept_step (env : Env) (key : Str) (updates : ι → List (List (Str × Bytes)))
    (sized : ∀ i, ∀ fields ∈ updates i, fields.length < 2 ^ 32 ∧ Sized fields)
    (threads : Threads ι (Observed ι F) (Action F)) (i : ι) (action : Action F)
    (rest : List (Action F)) (kept : Kept key updates threads)
    (turn : threads.todo i = action :: rest) (undisturbed : Undisturbed i threads action) :
    Kept key updates (threads.step (observe env) i) := by
  have head := kept.expected i action (by rw [turn]; exact List.mem_cons_self)
  have change := fields_perform env key (updates i) (sized i) i threads action head undisturbed
  rw [Threads.step_cons threads i action rest turn]
  constructor
  case expected =>
    intro j more member
    by_cases same : j = i
    · subst same
      simp only [Function.update_self] at member
      rcases List.mem_append.mp member with left | right
      · exact expected_perform env _ key _ action head more left
      · exact kept.expected j more (by rw [turn]; exact List.mem_cons_of_mem _ right)
    · simp only [Function.update_of_ne same] at member
      exact kept.expected j more member
  case kept =>
    intro j fields member
    rcases kept.kept j fields member with ⟨doing, inside, underway⟩ | present
    · by_cases same : j = i
      · subst same
        simp only [Function.update_self]
        rw [turn] at inside
        rcases List.mem_cons.mp inside with rfl | later
        · rcases underway_perform env threads.shared.server doing fields underway with
            ⟨more, left, continues⟩ | ⟨name, found, newBuf, rfl⟩
          · exact .inl ⟨more, List.mem_append_left _ left, continues⟩
          · rcases change with ⟨_, other⟩ | ⟨writing, writes, own, after⟩
            · exact absurd rfl (other name fields found newBuf)
            · obtain rfl := own fields rfl
              refine .inr ?_
              have inserted := (present_insertAll updates (entryFields
                (threads.shared.server.db.get (AirKey.fromBytes key.bytes))) j writing writes).1
              exact after ▸ inserted
        · exact .inl ⟨doing, List.mem_append_right _ later, underway⟩
      · simp only [Function.update_of_ne same]
        exact .inl ⟨doing, inside, underway⟩
    · refine .inr ?_
      rcases change with ⟨after, _⟩ | ⟨writing, writes, _, after⟩
      · exact after ▸ present
      · have inserted := (present_insertAll updates _ i writing writes).2 fields present
        exact after ▸ inserted

omit [DecidableEq ι] [FloatArith F] in
theorem kept_start (server : Server F) (key : Str) (updates : ι → List (List (Str × Bytes))) :
    Kept key updates (connections server (hmSets key updates)) where
  expected i action member := by
    obtain ⟨request, present, inside⟩ := List.mem_flatMap.mp member
    obtain ⟨fields, update, rfl⟩ := List.mem_map.mp present
    simp only [Request.actions, List.mem_cons, List.not_mem_nil, or_false] at inside
    rcases inside with rfl | rfl
    · exact ⟨rfl, update⟩
    · trivial
  kept i fields member := by
    refine .inl ⟨.merge key fields, ?_, rfl⟩
    exact List.mem_flatMap.mpr ⟨_, List.mem_map_of_mem member, List.mem_cons_self⟩

theorem hmSets_kept (env : Env) (server : Server F) (key : Str)
    (updates : ι → List (List (Str × Bytes)))
    (sized : ∀ i, ∀ fields ∈ updates i, fields.length < 2 ^ 32 ∧ Sized fields)
    (schedule : List ι)
    (undisturbed : Threads.Along (observe env) Undisturbed
      (connections server (hmSets key updates)) schedule) :
    let final := (connections server (hmSets key updates)).run (observe env) schedule
    final.Idle → ∀ i, ∀ fields ∈ updates i,
      Present updates
        (entryFields (final.shared.server.db.get (AirKey.fromBytes key.bytes))) fields := by
  intro final idle i fields member
  have kept : Kept key updates final :=
    Threads.run_invariant (kept_step env key updates sized) _ schedule
      (kept_start server key updates) undisturbed
  rcases kept.kept i fields member with ⟨action, inside, _⟩ | present
  · rw [idle i] at inside
    cases inside
  · exact present

end Updates

def twoUpdates : Bool → List (List (Str × Bytes))
  | false => [[(⟨ascii "a", by decide⟩, ascii "1")]]
  | true => [[(⟨ascii "b", by decide⟩, ascii "2")]]

def afterUpdates (schedule : List Bool) : Threads Bool (Observed Bool Int) (Action Int) :=
  (connections (Server.new 4) (hmSets ⟨ascii "h", by decide⟩ twoUpdates)).run
    (observe (Server.constantEnv 0)) schedule

def hashAfter (schedule : List Bool) : HashFields :=
  entryFields ((afterUpdates schedule).shared.server.db.get (AirKey.fromBytes (ascii "h")))

theorem hmSets_kept_inTurn :
    Present twoUpdates (hashAfter [false, false, false, true, true, true])
      [(⟨ascii "a", by decide⟩, ascii "1")] := by
  refine hmSets_kept (Server.constantEnv 0) (Server.new 4) ⟨ascii "h", by decide⟩ twoUpdates ?_
    [false, false, false, true, true, true] ?_ ?_ false _ List.mem_cons_self
  · intro i fields member
    cases i <;> obtain rfl := List.mem_singleton.mp member <;> unfold Sized <;> decide
  · refine ⟨?_, ?_, ?_, ?_, ?_, ?_, trivial⟩
    all_goals
      intro action member
      obtain rfl := Option.some.inj member
    · trivial
    · exact ⟨rfl, by decide⟩
    · trivial
    · trivial
    · exact ⟨rfl, by decide +kernel⟩
    · trivial
  · intro i
    cases i <;> rfl

-- Both connections merge before either inserts, and the field of the first is lost.
theorem hmSets_lose :
    (afterUpdates [false, true, false, true, false, true]).Idle ∧
      ¬ Present twoUpdates (hashAfter [false, true, false, true, false, true])
        [(⟨ascii "a", by decide⟩, ascii "1")] := by
  refine ⟨fun i => by cases i <;> rfl, fun present => ?_⟩
  obtain ⟨value, held, _⟩ := present (ascii "a", ascii "1") (by decide)
  have lost : (hashAfter [false, true, false, true, false, true]).lookup (ascii "a") = none := by
    decide +kernel
  rw [lost] at held
  cases held

end OmegaDrive
