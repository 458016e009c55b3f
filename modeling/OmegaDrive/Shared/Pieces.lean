import OmegaDrive.Shared.Cursor

set_option autoImplicit false

namespace Cursor

variable {σ α β π : Type}

/-- The reader takes `count` pieces and answers what `decode` makes of them, whatever comes after;
and it takes nothing else. -/
structure Decodes (text : π → List σ) (reader : Cursor σ α) (count : Nat)
    (decode : List π → Option α) : Prop where
  reads : ∀ pieces, pieces.length = count → ∀ rest,
    reader (pieces.flatMap text ++ rest) =
      (decode pieces).map fun value => (value, (pieces.flatMap text).length)
  only : ∀ items value used, reader items = some (value, used) →
    ∃ pieces rest, pieces.length = count ∧ items = pieces.flatMap text ++ rest ∧
      decode pieces = some value

variable {text : π → List σ}

theorem Decodes.used {reader : Cursor σ α} {count : Nat} {decode : List π → Option α}
    (decodes : Decodes text reader count decode) (items : List σ) (value : α) (used : Nat)
    (run : reader items = some (value, used)) :
    ∃ pieces, pieces.length = count ∧ items = pieces.flatMap text ++ items.drop used ∧
      decode pieces = some value := by
  obtain ⟨pieces, rest, size, rfl, decoded⟩ := decodes.only items value used run
  have reads := decodes.reads pieces size rest
  rw [run, decoded] at reads
  obtain rfl : used = (pieces.flatMap text).length :=
    (Prod.mk.inj (Option.some.inj reads)).2
  exact ⟨pieces, size, by rw [List.drop_left], decoded⟩

theorem Decodes.congr {reader : Cursor σ α} {count : Nat} {decode other : List π → Option α}
    (decodes : Decodes text reader count decode)
    (same : ∀ pieces, pieces.length = count → decode pieces = other pieces) :
    Decodes text reader count other := by
  constructor
  · intro pieces size rest
    rw [decodes.reads pieces size rest, same pieces size]
  · intro items value used run
    obtain ⟨pieces, rest, size, split, decoded⟩ := decodes.only items value used run
    exact ⟨pieces, rest, size, split, by rw [← same pieces size, decoded]⟩

theorem decodes_lift (value : Option α) : Decodes text (lift value) 0 fun _ => value := by
  constructor
  · intro pieces size rest
    obtain rfl := List.eq_nil_of_length_eq_zero size
    rfl
  · intro items result used run
    obtain ⟨_, found, same⟩ := Option.map_eq_some_iff.mp run
    exact ⟨[], items, rfl, rfl, by rw [found, (Prod.mk.inj same).1]⟩

theorem decodes_pure (value : α) : Decodes text (pure value) 0 fun _ => some value :=
  decodes_lift (some value)

theorem Decodes.bind {reader : Cursor σ α} {next : α → Cursor σ β} {count more : Nat}
    {decode : List π → Option α} {later : α → List π → Option β}
    (first : Decodes text reader count decode)
    (second : ∀ value, Decodes text (next value) more (later value)) :
    Decodes text (reader >>= next) (count + more) fun pieces =>
      (decode (pieces.take count)).bind fun value => later value (pieces.drop count) := by
  constructor
  · intro pieces size rest
    have split : pieces.flatMap text ++ rest =
        (pieces.take count).flatMap text ++ ((pieces.drop count).flatMap text ++ rest) := by
      rw [← List.append_assoc, ← List.flatMap_append, List.take_append_drop]
    have length : (pieces.flatMap text).length =
        ((pieces.take count).flatMap text).length + ((pieces.drop count).flatMap text).length := by
      rw [← List.length_append, ← List.flatMap_append, List.take_append_drop]
    have front := first.reads (pieces.take count) (by rw [List.length_take]; omega)
      ((pieces.drop count).flatMap text ++ rest)
    rw [split]
    cases decoded : decode (pieces.take count) with
    | none =>
      rw [decoded] at front
      exact bind_none _ _ _ front
    | some value =>
      rw [decoded] at front
      rw [bind_some _ _ _ _ _ front, List.drop_left,
        (second value).reads _ (by rw [List.length_drop]; omega), length]
      simp only [Option.bind_some, Option.map_map]
      rfl
  · intro items result total run
    obtain ⟨value, used, moreUsed, head, tail, rfl⟩ := bind_eq_some _ _ _ _ _ run
    obtain ⟨front, frontSize, frontSplit, decoded⟩ := first.used items value used head
    obtain ⟨back, rest, backSize, backSplit, laterDecoded⟩ :=
      (second value).only _ result moreUsed tail
    refine ⟨front ++ back, rest, by simp [frontSize, backSize], ?_, ?_⟩
    · rw [List.flatMap_append, List.append_assoc, ← backSplit]
      exact frontSplit
    · rw [← frontSize, List.take_left, List.drop_left, decoded]
      exact laterDecoded

def decodeTimes (decode : List π → Option α) (each : Nat) : Nat → List π → Option (List α)
  | 0, _ => some []
  | count + 1, pieces =>
    (decode (pieces.take each)).bind fun value =>
      (decodeTimes decode each count (pieces.drop each)).map fun values => value :: values

theorem Decodes.times {reader : Cursor σ α} {each : Nat} {decode : List π → Option α}
    (one : Decodes text reader each decode) (count : Nat) :
    Decodes text (times reader count) (count * each) (decodeTimes decode each count) := by
  induction count with
  | zero =>
    rw [Nat.zero_mul]
    exact decodes_pure []
  | succ count ih =>
    have total : (count + 1) * each = each + (count * each + 0) := by
      rw [Nat.succ_mul, Nat.add_zero, Nat.add_comm]
    rw [total]
    refine (one.bind fun value => ih.bind fun values => decodes_pure (value :: values)).congr ?_
    intro pieces size
    have rest : (pieces.drop each).take (count * each) = pieces.drop each :=
      List.take_of_length_le (by rw [List.length_drop]; omega)
    rw [decodeTimes, rest]
    cases decode (pieces.take each) with
    | none => rfl
    | some value => cases decodeTimes decode each count (pieces.drop each) <;> rfl

end Cursor
