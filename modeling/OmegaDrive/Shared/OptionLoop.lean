import Mathlib.Data.List.Forall2

set_option autoImplicit false

namespace OptionLoop

variable {α β : Type}

theorem mapM_total (step : α → Option β) (total : α → β) (items : List α)
    (each : ∀ item ∈ items, step item = some (total item)) :
    items.mapM step = some (items.map total) := by
  induction items with
  | nil => rfl
  | cons item items ih =>
    rw [List.mapM_cons, each item List.mem_cons_self,
      ih fun other member => each other (List.mem_cons_of_mem _ member)]
    rfl

theorem mapM_image {γ : Type} (step : α → Option β) (image : γ → β) (related : α → γ → Prop)
    (items : List α)
    (each : ∀ item ∈ items, ∃ value, step item = some (image value) ∧ related item value) :
    ∃ values, items.mapM step = some (values.map image) ∧ List.Forall₂ related items values := by
  induction items with
  | nil => exact ⟨[], rfl, .nil⟩
  | cons item items ih =>
    obtain ⟨value, done, head⟩ := each item List.mem_cons_self
    obtain ⟨values, rest, tail⟩ := ih fun other member => each other (List.mem_cons_of_mem _ member)
    refine ⟨value :: values, ?_, .cons head tail⟩
    rw [List.mapM_cons, done, rest]
    rfl

theorem mapM_related (step : α → Option β) (related : α → β → Prop) (items : List α)
    (each : ∀ item ∈ items, ∃ value, step item = some value ∧ related item value) :
    ∃ values, items.mapM step = some values ∧ List.Forall₂ related items values := by
  simpa using mapM_image step id related items each

theorem mapM_along {γ δ : Type} (step : β → Option δ) (image : γ → δ) (related : α → γ → Prop)
    {held : α → β → Prop} {items : List α} {values : List β}
    (all : List.Forall₂ held items values)
    (each : ∀ item value, held item value →
      ∃ result, step value = some (image result) ∧ related item result) :
    ∃ results, values.mapM step = some (results.map image) ∧
      List.Forall₂ related items results := by
  induction all with
  | nil => exact ⟨[], rfl, .nil⟩
  | cons head tail ih =>
    obtain ⟨result, taken, here⟩ := each _ _ head
    obtain ⟨results, rest, later⟩ := ih
    exact ⟨result :: results, by simp [taken, rest], .cons here later⟩

theorem related_getElem? {related : α → β → Prop} {items : List α} {values : List β}
    (all : List.Forall₂ related items values) (i : Nat) (value : β)
    (found : values[i]? = some value) : ∃ item, items[i]? = some item ∧ related item value := by
  induction all generalizing i with
  | nil => cases found
  | @cons item first items values head tail ih =>
    cases i with
    | zero =>
      obtain rfl : first = value := by simpa using found
      exact ⟨item, rfl, head⟩
    | succ i => exact ih i (by simpa using found)

theorem related_mem {related : α → β → Prop} {items : List α} {values : List β}
    (all : List.Forall₂ related items values) (value : β) (member : value ∈ values) :
    ∃ item ∈ items, related item value := by
  obtain ⟨i, found⟩ := List.mem_iff_getElem?.mp member
  obtain ⟨item, here, holds⟩ := related_getElem? all i value found
  exact ⟨item, List.mem_of_getElem? here, holds⟩

theorem related_inside {related : α → β → Prop} {items : List α} {values : List β}
    (all : List.Forall₂ related items values) :
    List.Forall₂ (fun item value => item ∈ items ∧ related item value) items values := by
  induction all with
  | nil => exact .nil
  | cons head tail ih =>
    exact .cons ⟨List.mem_cons_self, head⟩
      (ih.imp fun _ _ both => ⟨List.mem_cons_of_mem _ both.1, both.2⟩)

theorem related_zipIdx {related : α → β → Prop} {items : List α} {values : List β}
    (all : List.Forall₂ related items values) (start : Nat) :
    List.Forall₂ (fun item value => item.2 = value.2 ∧ related item.1 value.1)
      (items.zipIdx start) (values.zipIdx start) := by
  induction all generalizing start with
  | nil => exact .nil
  | cons head tail ih => exact .cons ⟨rfl, head⟩ (ih (start + 1))

theorem related_zip {related : α → β → Prop} {items : List α} {values : List β}
    (all : List.Forall₂ related items values) (item : α) (member : item ∈ items) :
    ∃ value, (item, value) ∈ items.zip values ∧ related item value := by
  induction all with
  | nil => cases member
  | @cons first value items values head tail ih =>
    rw [List.zip_cons_cons]
    rcases List.mem_cons.mp member with rfl | later
    · exact ⟨value, List.mem_cons_self, head⟩
    · obtain ⟨other, inside, same⟩ := ih later
      exact ⟨other, List.mem_cons_of_mem _ inside, same⟩

theorem related_zips {γ δ : Type} {held : α → β → Prop} {chosen : α → γ → Prop}
    {items : List α} {values : List β} {choices : List γ} (image : γ → δ)
    (first : List.Forall₂ held items values) (second : List.Forall₂ chosen items choices) :
    List.Forall₂ (fun item value => held item.1 value.1 ∧ chosen item.1 item.2 ∧
      value.2 = image item.2) (items.zip choices) (values.zip (choices.map image)) := by
  induction first generalizing choices with
  | nil => exact .nil
  | cons head tail ih =>
    cases second with
    | cons here later => exact .cons ⟨head, here, rfl⟩ (ih later)

theorem mapM_steps (step : α → Option β) (items : List α) (values : List β)
    (taken : items.mapM step = some values) :
    List.Forall₂ (fun item value => step item = some value) items values := by
  induction items generalizing values with
  | nil =>
    obtain rfl := Option.some.inj taken
    exact .nil
  | cons item items ih =>
    rw [List.mapM_cons] at taken
    obtain ⟨value, head, later⟩ := Option.bind_eq_some_iff.mp taken
    obtain ⟨rest, tail, whole⟩ := Option.bind_eq_some_iff.mp later
    obtain rfl := Option.some.inj whole
    exact .cons head (ih rest tail)

theorem length_mapM (step : α → Option β) (items : List α) (values : List β)
    (taken : items.mapM step = some values) : values.length = items.length :=
  (mapM_steps step items values taken).length_eq.symm

theorem mapM_then {γ : Type} (step : α → Option β) (image : β → γ) (items : List α) :
    (items.mapM fun item => (step item).map image) =
      (items.mapM step).map fun values => values.map image := by
  induction items with
  | nil => rfl
  | cons item items ih =>
    rw [List.mapM_cons, List.mapM_cons, ih]
    cases step item with
    | none => rfl
    | some value => cases items.mapM step <;> rfl

theorem mapM_none (step : α → Option β) (items : List α) (item : α) (member : item ∈ items)
    (fails : step item = none) : items.mapM step = none := by
  induction items with
  | nil => cases member
  | cons first items ih =>
    rw [List.mapM_cons]
    rcases List.mem_cons.mp member with rfl | later
    · rw [fails]
      rfl
    · rw [ih later]
      cases step first <;> rfl

theorem foldlM_none (step : β → α → Option β) (items : List α) (item : α) (member : item ∈ items)
    (fails : ∀ acc, step acc item = none) (start : β) : items.foldlM step start = none := by
  induction items generalizing start with
  | nil => cases member
  | cons head tail ih =>
    rw [List.foldlM_cons]
    rcases List.mem_cons.mp member with rfl | later
    · rw [fails]
      rfl
    · cases step start head with
      | none => rfl
      | some next => exact ih later next

theorem foldlM_congr (step other : β → α → Option β) (items : List α)
    (same : ∀ item ∈ items, ∀ value, step value item = other value item) (value : β) :
    items.foldlM step value = items.foldlM other value := by
  induction items generalizing value with
  | nil => rfl
  | cons item items ih =>
    rw [List.foldlM_cons, List.foldlM_cons, same item List.mem_cons_self]
    congr 1
    funext next
    exact ih (fun item member => same item (List.mem_cons_of_mem _ member)) next

theorem foldlM_total (step : β → α → Option β) (total : β → α → β) (items : List α)
    (each : ∀ item ∈ items, ∀ value, step value item = some (total value item)) (value : β) :
    items.foldlM step value = some (items.foldl total value) :=
  (foldlM_congr step (fun value item => some (total value item)) items each value).trans
    List.foldlM_pure

theorem map_of_related {γ : Type} (left : α → γ) (right : β → γ) (items : List α)
    (values : List β)
    (related : List.Forall₂ (fun item value => right value = left item) items values) :
    values.map right = items.map left := by
  induction related with
  | nil => rfl
  | cons head tail ih => rw [List.map_cons, List.map_cons, head, ih]

end OptionLoop
