import Mathlib.Data.Finmap

set_option autoImplicit false

abbrev FieldMap (K V : Type) : Type := Finmap fun _ : K => V

namespace FieldMap

variable {K V : Type} [DecidableEq K]

def insertAll (map : FieldMap K V) (pairs : List (K × V)) : FieldMap K V :=
  pairs.foldl (fun map pair => map.insert pair.1 pair.2) map

@[simp] theorem insertAll_nil (map : FieldMap K V) : insertAll map [] = map := rfl

@[simp] theorem insertAll_cons (map : FieldMap K V) (pair : K × V) (pairs : List (K × V)) :
    insertAll map (pair :: pairs) = insertAll (map.insert pair.1 pair.2) pairs := rfl

theorem insertAll_append (map : FieldMap K V) (first second : List (K × V)) :
    insertAll map (first ++ second) = insertAll (insertAll map first) second :=
  List.foldl_append

def lastValue (key : K) : List (K × V) → Option V
  | [] => none
  | pair :: pairs => (lastValue key pairs).or (if pair.1 = key then some pair.2 else none)

theorem lookup_insertAll (map : FieldMap K V) (pairs : List (K × V)) (key : K) :
    (insertAll map pairs).lookup key = (lastValue key pairs).or (map.lookup key) := by
  induction pairs generalizing map with
  | nil => rfl
  | cons pair pairs ih =>
    rw [insertAll_cons, ih, lastValue]
    by_cases same : pair.1 = key
    · subst same
      simp
    · rw [Finmap.lookup_insert_of_ne _ (Ne.symm same)]
      simp [same]

theorem lastValue_isSome (key : K) (pairs : List (K × V)) :
    (lastValue key pairs).isSome ↔ key ∈ pairs.map Prod.fst := by
  induction pairs with
  | nil => simp [lastValue]
  | cons pair pairs ih =>
    rw [lastValue, List.map_cons, List.mem_cons, ← ih]
    by_cases same : pair.1 = key
    · simp [same]
    · simp [same, Ne.symm same]

theorem lastValue_mem (key : K) (value : V) (pairs : List (K × V))
    (last : lastValue key pairs = some value) : (key, value) ∈ pairs := by
  induction pairs with
  | nil => simp [lastValue] at last
  | cons pair pairs ih =>
    rw [lastValue, Option.or_eq_some_iff] at last
    rcases last with later | ⟨_, here⟩
    · exact List.mem_cons_of_mem _ (ih later)
    · split at here
      next same =>
        obtain rfl : pair.2 = value := by simpa using here
        exact List.mem_cons.mpr (.inl (by rw [← same]))
      next => simp at here

theorem lastValue_of_nodup (pairs : List (K × V)) (distinct : (pairs.map Prod.fst).Nodup)
    (key : K) (value : V) : lastValue key pairs = some value ↔ (key, value) ∈ pairs := by
  refine ⟨lastValue_mem key value pairs, fun member => ?_⟩
  induction pairs with
  | nil => simp at member
  | cons pair pairs ih =>
    rw [List.map_cons, List.nodup_cons] at distinct
    rw [lastValue]
    rcases List.mem_cons.mp member with rfl | later
    · have absent : lastValue key pairs = none := by
        rw [← Option.not_isSome_iff_eq_none, lastValue_isSome]
        exact distinct.1
      simp [absent]
    · rw [ih distinct.2 later]
      rfl

theorem lastValue_append (key : K) (first second : List (K × V)) :
    lastValue key (first ++ second) = (lastValue key second).or (lastValue key first) := by
  induction first with
  | nil => simp [lastValue]
  | cons pair first ih => rw [List.cons_append, lastValue, lastValue, ih, Option.or_assoc]

theorem mem_insertAll (map : FieldMap K V) (pairs : List (K × V)) (key : K) :
    key ∈ insertAll map pairs ↔ key ∈ pairs.map Prod.fst ∨ key ∈ map := by
  rw [← Finmap.lookup_isSome, lookup_insertAll, Option.isSome_or, Bool.or_eq_true,
    lastValue_isSome, Finmap.lookup_isSome]

def Values (property : V → Prop) (map : FieldMap K V) : Prop :=
  ∀ key value, map.lookup key = some value → property value

theorem values_empty (property : V → Prop) : Values property (∅ : FieldMap K V) := by
  intro key value found
  rw [Finmap.lookup_empty] at found
  cases found

theorem Values.mono {property other : V → Prop} {map : FieldMap K V}
    (values : Values property map) (weaker : ∀ value, property value → other value) :
    Values other map :=
  fun key value found => weaker value (values key value found)

theorem Values.insertAll {property : V → Prop} {map : FieldMap K V}
    (values : Values property map) (pairs : List (K × V))
    (each : ∀ pair ∈ pairs, property pair.2) : Values property (insertAll map pairs) := by
  intro key value found
  rw [lookup_insertAll, Option.or_eq_some_iff] at found
  rcases found with last | ⟨_, stored⟩
  · exact each _ (lastValue_mem key value pairs last)
  · exact values key value stored

theorem Values.insert {property : V → Prop} {map : FieldMap K V} (values : Values property map)
    (key : K) (value : V) (holds : property value) : Values property (map.insert key value) :=
  values.insertAll [(key, value)] fun pair member => by rwa [List.mem_singleton.mp member]

theorem Values.erase {property : V → Prop} {map : FieldMap K V} (values : Values property map)
    (key : K) : Values property (map.erase key) := by
  intro other value found
  by_cases same : other = key
  · rw [same, Finmap.lookup_erase] at found
    cases found
  · rw [Finmap.lookup_erase_ne same] at found
    exact values other value found

theorem insertAll_congr (first second : List (K × V))
    (same : ∀ key, lastValue key first = lastValue key second) :
    insertAll ∅ first = insertAll ∅ second :=
  Finmap.ext_lookup fun key => by rw [lookup_insertAll, lookup_insertAll, same]

theorem insertAll_eq_self_iff (map : FieldMap K V) (pairs : List (K × V)) :
    insertAll map pairs = map ↔
      ∀ key value, lastValue key pairs = some value → map.lookup key = some value := by
  constructor
  · intro same key value last
    rw [← same, lookup_insertAll, last, Option.some_or]
  · intro stored
    refine Finmap.ext_lookup fun key => ?_
    rw [lookup_insertAll]
    cases last : lastValue key pairs with
    | none => rfl
    | some value => rw [stored key value last, Option.some_or]

theorem keys_insertAll (pairs : List (K × V)) :
    (insertAll ∅ pairs).keys = (pairs.map Prod.fst).toFinset := by
  ext key
  rw [Finmap.mem_keys, ← Finmap.lookup_isSome, lookup_insertAll, Finmap.lookup_empty,
    Option.or_none, lastValue_isSome, List.mem_toFinset]

/-- These pairs are the map that writing others defines: each key once, with the last value written
for it. -/
def Lists (pairs written : List (K × V)) : Prop :=
  (pairs.map Prod.fst).Nodup ∧
    ∀ key value, (key, value) ∈ pairs ↔ lastValue key written = some value

theorem Lists.lastValue {pairs written : List (K × V)} (lists : Lists pairs written) (key : K) :
    lastValue key pairs = lastValue key written :=
  Option.ext fun value => (lastValue_of_nodup pairs lists.1 key value).trans (lists.2 key value)

theorem lists_self (pairs : List (K × V)) :
    Lists pairs pairs ↔ (pairs.map Prod.fst).Nodup :=
  ⟨fun lists => lists.1, fun distinct =>
    ⟨distinct, fun key value => (lastValue_of_nodup pairs distinct key value).symm⟩⟩

theorem Lists.length {pairs written : List (K × V)} (lists : Lists pairs written) :
    pairs.length = (insertAll ∅ written).keys.card := by
  rw [← insertAll_congr pairs written lists.lastValue, keys_insertAll,
    List.toFinset_card_of_nodup lists.1, List.length_map]

theorem lists_iff (pairs written : List (K × V)) :
    Lists pairs written ↔
      (pairs.map Prod.fst).Nodup ∧ insertAll ∅ pairs = insertAll ∅ written := by
  constructor
  · intro lists
    exact ⟨lists.1, insertAll_congr _ _ lists.lastValue⟩
  · rintro ⟨distinct, same⟩
    refine ⟨distinct, fun key value => ?_⟩
    have looked := congrArg (Finmap.lookup key) same
    simp only [lookup_insertAll, Finmap.lookup_empty, Option.or_none] at looked
    rw [← looked, lastValue_of_nodup pairs distinct]

def pairs (map : AList fun _ : K => V) : List (K × V) :=
  map.entries.map fun entry => (entry.1, entry.2)

omit [DecidableEq K] in
theorem keys_pairs (map : AList fun _ : K => V) : (pairs map).map Prod.fst = map.keys := by
  simp [pairs, AList.keys, List.keys, Function.comp_def]

theorem mem_pairs (map : AList fun _ : K => V) (key : K) (value : V) :
    (key, value) ∈ pairs map ↔ map.lookup key = some value := by
  rw [← Option.mem_def, AList.mem_lookup_iff]
  constructor
  · intro member
    obtain ⟨⟨entryKey, entryValue⟩, present, same⟩ := List.mem_map.mp member
    cases same
    exact present
  · intro member
    exact List.mem_map.mpr ⟨_, member, rfl⟩

theorem insertAll_pairs (map : AList fun _ : K => V) (ordered : List (K × V))
    (perm : ordered.Perm (pairs map)) : insertAll ∅ ordered = map.toFinmap := by
  have distinct : (ordered.map Prod.fst).Nodup := by
    rw [(perm.map Prod.fst).nodup_iff, keys_pairs]
    exact map.keys_nodup
  refine Finmap.ext_lookup fun key => Option.ext fun value => ?_
  rw [lookup_insertAll, Finmap.lookup_empty, Option.or_none,
    lastValue_of_nodup _ distinct, perm.mem_iff, mem_pairs, Finmap.lookup_toFinmap]

def Enumerates (entries : List (K × V)) (map : FieldMap K V) : Prop :=
  (entries.map Prod.fst).Nodup ∧ ∀ key value, (key, value) ∈ entries ↔ map.lookup key = some value

theorem Enumerates.keys_card {entries : List (K × V)} {map : FieldMap K V}
    (all : Enumerates entries map) : map.keys.card = entries.length := by
  have keys : map.keys = (entries.map Prod.fst).toFinset := by
    ext key
    rw [Finmap.mem_keys, Finmap.mem_iff, List.mem_toFinset, List.mem_map]
    constructor
    · rintro ⟨value, found⟩
      exact ⟨(key, value), (all.2 key value).mpr found, rfl⟩
    · rintro ⟨⟨_, value⟩, member, rfl⟩
      exact ⟨value, (all.2 _ value).mp member⟩
  rw [keys, List.toFinset_card_of_nodup all.1, List.length_map]

theorem Enumerates.perm {first second : List (K × V)} {map : FieldMap K V}
    (one : Enumerates first map) (other : Enumerates second map) : first.Perm second := by
  refine (List.perm_ext_iff_of_nodup one.1.of_map other.1.of_map).mpr fun entry => ?_
  rw [one.2 entry.1 entry.2, other.2 entry.1 entry.2]

theorem exists_enumerates (map : FieldMap K V) : ∃ entries, Enumerates entries map := by
  induction map using Finmap.induction_on with
  | H map =>
    refine ⟨pairs map, ?_, fun key value => ?_⟩
    · rw [keys_pairs]
      exact map.keys_nodup
    · rw [mem_pairs, Finmap.lookup_toFinmap]

omit [DecidableEq K] in
theorem length_pairs (map : AList fun _ : K => V) :
    (pairs map).length = map.toFinmap.keys.card := by
  rw [Finset.card_def, Finmap.keys_val, Multiset.coe_card, ← keys_pairs, List.length_map]

def insertEntries (map : AList fun _ : K => V) (pairs : List (K × V)) : AList fun _ : K => V :=
  pairs.foldl (fun map pair => map.insert pair.1 pair.2) map

theorem toFinmap_insertEntries (map : AList fun _ : K => V) (pairs : List (K × V)) :
    (insertEntries map pairs).toFinmap = insertAll map.toFinmap pairs := by
  induction pairs generalizing map with
  | nil => rfl
  | cons pair pairs ih =>
    rw [insertAll_cons, Finmap.insert_toFinmap]
    exact ih _

theorem insertEntries_append (map : AList fun _ : K => V) (first second : List (K × V)) :
    insertEntries map (first ++ second) = insertEntries (insertEntries map first) second :=
  List.foldl_append

theorem mem_pairs_insertEntries (written : List (K × V)) (key : K) (value : V) :
    (key, value) ∈ pairs (insertEntries ∅ written) ↔ lastValue key written = some value := by
  rw [mem_pairs, ← Finmap.lookup_toFinmap, toFinmap_insertEntries, lookup_insertAll]
  have empty : (∅ : AList fun _ : K => V).toFinmap.lookup key = none := Finmap.lookup_empty key
  rw [empty, Option.or_none]

theorem lists_pairs (written ordered : List (K × V))
    (perm : ordered.Perm (pairs (insertEntries ∅ written))) : Lists ordered written := by
  constructor
  · rw [(perm.map Prod.fst).nodup_iff, keys_pairs]
    exact (insertEntries ∅ written).keys_nodup
  · intro key value
    rw [perm.mem_iff]
    exact mem_pairs_insertEntries written key value

end FieldMap
