import OmegaDrive.Shared.TopK
import OmegaDrive.Shared.OptionLoop
import Mathlib.Data.List.Sort
import Mathlib.Data.Prod.Lex

set_option autoImplicit false

/-- What `BinaryHeap` documents: a bag of items that gives up a greatest one. Which of several
greatest items it gives, and the order it lists its items in, is left open. -/
structure BinaryHeap {α κ : Type} [LE κ] (key : α → κ) where
  Heap : Type
  intoIter : Heap → List α
  empty : Heap
  push : Heap → α → Heap
  pop : Heap → Option (α × Heap)
  intoIter_empty : intoIter empty = []
  intoIter_push : ∀ heap item, (intoIter (push heap item)).Perm (item :: intoIter heap)
  pop_none : ∀ heap, pop heap = none → intoIter heap = []
  pop_some : ∀ heap top rest, pop heap = some (top, rest) →
    (intoIter heap).Perm (top :: intoIter rest) ∧ ∀ item ∈ intoIter heap, key item ≤ key top

namespace BinaryHeap

open TopK

variable {α κ D : Type} [LE κ] {key : α → κ} (bh : BinaryHeap key)

def len (heap : bh.Heap) : Nat := (bh.intoIter heap).length

def peek (heap : bh.Heap) : Option α := (bh.pop heap).map Prod.fst

/-- Room for `capacity` items of `size` bytes each. `none` is the panic `capacity overflow`: more
bytes than an `isize` counts. -/
def withCapacity (size capacity : Nat) : Option bh.Heap :=
  if size * capacity < 2 ^ 63 then some bh.empty else none

-- `pop`, with its answer thrown away.
def dropMax (heap : bh.Heap) : bh.Heap :=
  match bh.pop heap with
  | none => heap
  | some (_, rest) => rest

variable [LinearOrder D] (dist : α → D)

-- Insert while there are fewer than `k`, otherwise replace the maximum when strictly nearer.
-- `none` is an `unwrap` of the empty heap's `peek`.
def offer (k : Nat) (heap : bh.Heap) (item : α) : Option bh.Heap :=
  if bh.len heap < k then some (bh.push heap item)
  else
    match bh.peek heap with
    | none => none
    | some top =>
      if dist item < dist top then some (bh.dropMax (bh.push heap item)) else some heap

def pushPop (k : Nat) (heap : bh.Heap) (item : α) : bh.Heap :=
  let heap := bh.push heap item
  if k < bh.len heap then bh.dropMax heap else heap

theorem withCapacity_room {size capacity : Nat} (room : size * capacity < 2 ^ 63) :
    bh.withCapacity size capacity = some bh.empty :=
  if_pos room

theorem withCapacity_over {size capacity : Nat} (beyond : ¬ size * capacity < 2 ^ 63) :
    bh.withCapacity size capacity = none :=
  if_neg beyond

theorem len_push (heap : bh.Heap) (item : α) : bh.len (bh.push heap item) = bh.len heap + 1 :=
  (bh.intoIter_push heap item).length_eq

theorem peek_some (heap : bh.Heap) (positive : 0 < bh.len heap) :
    ∃ top, bh.peek heap = some top := by
  cases popped : bh.pop heap with
  | none => simp [len, bh.pop_none heap popped] at positive
  | some pair => exact ⟨pair.1, by simp [peek, popped]⟩

theorem peek_none (heap : bh.Heap) (nothing : bh.intoIter heap = []) : bh.peek heap = none := by
  cases popped : bh.pop heap with
  | none => simp [peek, popped]
  | some pair =>
    have perm := (bh.pop_some heap pair.1 pair.2 popped).1
    rw [nothing] at perm
    cases perm.nil_eq

theorem peek_spec (heap : bh.Heap) (top : α) (peeked : bh.peek heap = some top) :
    top ∈ bh.intoIter heap ∧ ∀ item ∈ bh.intoIter heap, key item ≤ key top := by
  obtain ⟨⟨_, rest⟩, popped, rfl⟩ := Option.map_eq_some_iff.mp peeked
  obtain ⟨perm, greatest⟩ := bh.pop_some heap _ rest popped
  exact ⟨perm.mem_iff.mpr List.mem_cons_self, greatest⟩

theorem push_smallest (k : Nat) (seen : List α) (heap : bh.Heap) (item : α)
    (small : Smallest dist k seen (bh.intoIter heap)) (room : bh.len heap < k) :
    Smallest dist k (seen ++ [item]) (bh.intoIter (bh.push heap item)) := by
  obtain ⟨rest, split, size, _⟩ := small
  have total := split.length_eq
  rw [List.length_append] at total
  have none_left : rest = [] :=
    List.eq_nil_of_length_eq_zero (by simp only [len] at room; omega)
  subst none_left
  have pushed := bh.intoIter_push heap item
  refine ⟨[], ?_, ?_, by simp⟩
  · rw [List.append_nil] at split ⊢
    exact List.perm_append_comm.trans ((split.cons item).trans pushed.symm)
  · rw [pushed.length_eq]
    simp only [len, List.length_append, List.length_cons, List.length_nil] at room total ⊢
    omega

variable (mono : ∀ first second : α, key first ≤ key second → dist first ≤ dist second)

include mono in
-- A full choice that takes one more item and gives up its maximum is the choice again.
theorem dropMax_smallest (k : Nat) (seen : List α) (heap : bh.Heap) (item : α)
    (small : Smallest dist k seen (bh.intoIter heap)) (full : k ≤ bh.len heap) :
    Smallest dist k (seen ++ [item]) (bh.intoIter (bh.dropMax (bh.push heap item))) := by
  obtain ⟨rest, split, size, near⟩ := small
  have pushed := bh.intoIter_push heap item
  have total := split.length_eq
  rw [List.length_append] at total
  cases popped : bh.pop (bh.push heap item) with
  | none =>
    have len := pushed.length_eq
    simp [bh.pop_none _ popped] at len
  | some pair =>
    obtain ⟨top, left⟩ := pair
    obtain ⟨perm, greatest⟩ := bh.pop_some _ top left popped
    have dropped : bh.dropMax (bh.push heap item) = left := by rw [dropMax, popped]
    have same : (item :: bh.intoIter heap).Perm (top :: bh.intoIter left) := pushed.symm.trans perm
    have count := same.length_eq
    simp only [len, List.length_cons] at full count
    rw [dropped]
    refine ⟨top :: rest, ?_, ?_, ?_⟩
    · exact List.perm_append_comm.trans ((split.cons item).trans
        ((same.append_right rest).trans List.perm_middle.symm))
    · simp only [List.length_append, List.length_cons, List.length_nil]
      omega
    · intro candidate inside other outside
      have present : candidate ∈ item :: bh.intoIter heap :=
        same.mem_iff.mpr (List.mem_cons_of_mem _ inside)
      have below : dist candidate ≤ dist top :=
        mono _ _ (greatest candidate (pushed.mem_iff.mpr present))
      rcases List.mem_cons.mp outside with rfl | later
      · exact below
      · -- Either the maximum was there before, or it is the new item and nothing else changed.
        rcases List.mem_cons.mp (same.mem_iff.mpr List.mem_cons_self) with rfl | old
        · exact near candidate (same.cons_inv.mem_iff.mpr inside) other later
        · exact le_trans below (near top old other later)

include mono in
theorem offer_smallest (k : Nat) (positive : 0 < k) (seen : List α) (heap : bh.Heap) (item : α)
    (small : Smallest dist k seen (bh.intoIter heap)) :
    ∃ next, bh.offer dist k heap item = some next ∧
      Smallest dist k (seen ++ [item]) (bh.intoIter next) := by
  unfold offer
  split
  next room => exact ⟨_, rfl, bh.push_smallest dist k seen heap item small room⟩
  next full =>
    obtain ⟨top, peeked⟩ := bh.peek_some heap (by omega)
    obtain ⟨_, greatest⟩ := bh.peek_spec heap top peeked
    rw [peeked]
    dsimp only
    split
    next => exact ⟨_, rfl, bh.dropMax_smallest dist mono k seen heap item small (by omega)⟩
    next further =>
      obtain ⟨rest, split, size, near⟩ := small
      refine ⟨_, rfl, item :: rest, ?_, ?_, ?_⟩
      · exact List.perm_append_comm.trans ((split.cons item).trans List.perm_middle.symm)
      · simp only [len, List.length_append, List.length_cons, List.length_nil] at full ⊢
        omega
      · intro candidate inside other outside
        rcases List.mem_cons.mp outside with rfl | later
        · exact le_trans (mono _ _ (greatest candidate inside)) (not_lt.mp further)
        · exact near candidate inside other later

include mono in
theorem pushPop_smallest (k : Nat) (seen : List α) (heap : bh.Heap) (item : α)
    (small : Smallest dist k seen (bh.intoIter heap)) :
    Smallest dist k (seen ++ [item]) (bh.intoIter (bh.pushPop k heap item)) := by
  have size := bh.len_push heap item
  unfold pushPop
  dsimp only
  split
  next => exact bh.dropMax_smallest dist mono k seen heap item small (by omega)
  next => exact bh.push_smallest dist k seen heap item small (by omega)

theorem offer_congr {E : Type} [LinearOrder E] (other : α → E) (k : Nat) (heap : bh.Heap) (item : α)
    (same : ∀ top, dist item < dist top ↔ other item < other top) :
    bh.offer dist k heap item = bh.offer other k heap item := by
  unfold offer
  split
  next => rfl
  next => cases bh.peek heap with
    | none => rfl
    | some top => simp only [same]

def offers (k : Nat) (heap : bh.Heap) (items : List α) : Option bh.Heap :=
  items.foldlM (bh.offer dist k) heap

theorem offers_append (k : Nat) (heap : bh.Heap) (first second : List α) :
    bh.offers dist k heap (first ++ second) =
      (bh.offers dist k heap first).bind fun next => bh.offers dist k next second :=
  List.foldlM_append

def pushPops (k : Nat) (heap : bh.Heap) (items : List α) : bh.Heap :=
  items.foldl (bh.pushPop k) heap

include mono in
theorem offers_smallest (k : Nat) (positive : 0 < k) (seen items : List α) (heap : bh.Heap)
    (small : Smallest dist k seen (bh.intoIter heap)) :
    ∃ next, bh.offers dist k heap items = some next ∧
      Smallest dist k (seen ++ items) (bh.intoIter next) := by
  induction items generalizing seen heap with
  | nil => exact ⟨heap, rfl, by simpa using small⟩
  | cons item items ih =>
    obtain ⟨middle, offered, chosen⟩ := bh.offer_smallest dist mono k positive seen heap item small
    obtain ⟨next, run, final⟩ := ih (seen ++ [item]) middle chosen
    refine ⟨next, ?_, by simpa using final⟩
    rw [offers, List.foldlM_cons, offered]
    exact run

include mono in
theorem pushPops_smallest (k : Nat) (seen items : List α) (heap : bh.Heap)
    (small : Smallest dist k seen (bh.intoIter heap)) :
    Smallest dist k (seen ++ items) (bh.intoIter (bh.pushPops k heap items)) := by
  induction items generalizing seen heap with
  | nil => simpa [pushPops] using small
  | cons item items ih =>
    have final := ih (seen ++ [item]) _ (bh.pushPop_smallest dist mono k seen heap item small)
    simpa [pushPops] using final

theorem smallest_empty (k : Nat) : Smallest dist k [] (bh.intoIter bh.empty) := by
  rw [bh.intoIter_empty]
  exact smallest_nil _ _

include mono in
theorem offers_empty (k : Nat) (positive : 0 < k) (items : List α) :
    ∃ heap, bh.offers dist k bh.empty items = some heap ∧
      Smallest dist k items (bh.intoIter heap) :=
  bh.offers_smallest dist mono k positive [] items bh.empty (bh.smallest_empty dist k)

include mono in
theorem pushPops_empty (k : Nat) (items : List α) :
    Smallest dist k items (bh.intoIter (bh.pushPops k bh.empty items)) :=
  bh.pushPops_smallest dist mono k [] items bh.empty (bh.smallest_empty dist k)

section Distinct

variable {α κ D : Type} [LinearOrder κ] {key : α → κ} (bh : BinaryHeap key) [LinearOrder D]
  (dist : α → D)

theorem offer_full (mono : ∀ first second : α, key first ≤ key second → dist first ≤ dist second)
    (distinct : Function.Injective key) (k : Nat) (heap : bh.Heap) (item top : α)
    (full : bh.len heap = k) (member : top ∈ bh.intoIter heap)
    (greatest : ∀ other ∈ bh.intoIter heap, key other ≤ key top) :
    ∃ next, bh.offer dist k heap item = some next ∧
      ((if dist item < dist top then top else item) :: bh.intoIter next).Perm
        (item :: bh.intoIter heap) := by
  obtain ⟨peeked, peek⟩ := bh.peek_some heap (List.length_pos_of_mem member)
  obtain ⟨peekedIn, peekedGreatest⟩ := bh.peek_spec heap peeked peek
  obtain rfl : peeked = top :=
    distinct (le_antisymm (greatest peeked peekedIn) (peekedGreatest top member))
  unfold offer
  rw [if_neg (by omega), peek]
  dsimp only
  split
  next nearer =>
    refine ⟨_, rfl, ?_⟩
    have pushed := bh.intoIter_push heap item
    cases popped : bh.pop (bh.push heap item) with
    | none =>
      have len := pushed.length_eq
      simp [bh.pop_none _ popped] at len
    | some pair =>
      obtain ⟨gone, left⟩ := pair
      obtain ⟨perm, above⟩ := bh.pop_some _ gone left popped
      have present : peeked ∈ bh.intoIter (bh.push heap item) :=
        pushed.mem_iff.mpr (List.mem_cons_of_mem _ member)
      have same : gone = peeked := by
        rcases List.mem_cons.mp (pushed.mem_iff.mp (perm.mem_iff.mpr List.mem_cons_self)) with
          rfl | old
        · exact absurd (mono _ _ (above peeked present)) (not_le.mpr nearer)
        · exact distinct (le_antisymm (greatest gone old) (above peeked present))
      rw [dropMax, popped, ← same]
      exact perm.symm.trans pushed
  next => exact ⟨heap, rfl, List.Perm.refl _⟩

end Distinct

end BinaryHeap

-- `sort_unstable_by_key`: in ascending order of the key, ties in any order.
structure UnstableSort {α κ : Type} [LE κ] (key : α → κ) where
  sort : List α → List α
  perm : ∀ items, (sort items).Perm items
  sorted : ∀ items, (sort items).Pairwise fun first second => key first ≤ key second

-- `select_nth_unstable_by_key`: the item at the index is the one that sorting would put there, with
-- no greater one before it and no smaller one behind it.
structure UnstableSelect {α κ : Type} [LE κ] (key : α → κ) where
  select : Nat → List α → List α
  perm : ∀ nth items, (select nth items).Perm items
  placed : ∀ nth items, nth < items.length → ∃ before item after,
    select nth items = before ++ item :: after ∧ before.length = nth ∧
      (∀ other ∈ before, key other ≤ key item) ∧ ∀ other ∈ after, key item ≤ key other

theorem UnstableSelect.take_smallest {α κ : Type} [LinearOrder κ] {key : α → κ}
    (us : UnstableSelect key) (nth : Nat) (items : List α) (inside : nth < items.length) :
    TopK.Smallest key (nth + 1) items ((us.select nth items).take (nth + 1)) := by
  obtain ⟨before, item, after, selected, position, below, above⟩ := us.placed nth items inside
  have perm := us.perm nth items
  have split : before ++ item :: after = (before ++ [item]) ++ after := by simp
  rw [selected, split] at perm
  rw [selected, split, List.take_left' (by simp [position])]
  refine ⟨after, perm.symm, by simp [position]; omega, fun near nearIn far farIn => ?_⟩
  rcases List.mem_append.mp nearIn with here | last
  · exact le_trans (below near here) (above far farIn)
  · rw [List.mem_singleton.mp last]
    exact above far farIn

structure StdChoices where
  heap : {α κ : Type} → [LinearOrder κ] → (key : α → κ) → BinaryHeap key
  sort : {α κ : Type} → [LinearOrder κ] → (key : α → κ) → UnstableSort key

section Lists

variable {α κ : Type} [LinearOrder κ] (key : α → κ)

def takeMax : α → List α → α × List α
  | best, [] => (best, [])
  | best, item :: items =>
    if key best ≤ key item then ((takeMax item items).1, best :: (takeMax item items).2)
    else ((takeMax best items).1, item :: (takeMax best items).2)

theorem takeMax_perm (best : α) (items : List α) :
    (best :: items).Perm ((takeMax key best items).1 :: (takeMax key best items).2) := by
  induction items generalizing best with
  | nil => exact List.Perm.refl _
  | cons item items ih =>
    rw [takeMax]
    split
    next => exact ((ih item).cons best).trans (List.Perm.swap _ _ _)
    next => exact (List.Perm.swap _ _ _).trans (((ih best).cons item).trans (List.Perm.swap _ _ _))

theorem takeMax_greatest (best : α) (items : List α) :
    ∀ item ∈ best :: items, key item ≤ key (takeMax key best items).1 := by
  induction items generalizing best with
  | nil => simp [takeMax]
  | cons item items ih =>
    rw [takeMax]
    intro other member
    split
    next below =>
      rcases List.mem_cons.mp member with rfl | later
      · exact le_trans below (ih item item List.mem_cons_self)
      · exact ih item other later
    next above =>
      rcases List.mem_cons.mp member with rfl | later
      · exact ih other other List.mem_cons_self
      · rcases List.mem_cons.mp later with rfl | rest
        · exact le_trans (le_of_lt (not_le.mp above)) (ih best best List.mem_cons_self)
        · exact ih best other (List.mem_cons_of_mem _ rest)

def BinaryHeap.ofLists : BinaryHeap key where
  Heap := List α
  intoIter := id
  empty := []
  push := fun heap item => item :: heap
  pop := fun heap => match heap with
    | [] => none
    | item :: items => some (takeMax key item items)
  intoIter_empty := rfl
  intoIter_push := fun _ _ => List.Perm.refl _
  pop_none := by
    intro heap popped
    cases heap with
    | nil => rfl
    | cons item items => simp at popped
  pop_some := by
    intro heap top rest popped
    cases heap with
    | nil => simp at popped
    | cons item items =>
      obtain ⟨rfl, rfl⟩ := Prod.mk.inj (Option.some.inj popped)
      exact ⟨takeMax_perm key item items, takeMax_greatest key item items⟩

def UnstableSort.ofInsertion : UnstableSort key where
  sort := List.insertionSort fun first second => key first ≤ key second
  perm := List.perm_insertionSort _
  sorted := by
    have total : Std.Total fun first second : α => key first ≤ key second :=
      ⟨fun first second => le_total (key first) (key second)⟩
    have trans : IsTrans α fun first second => key first ≤ key second :=
      ⟨fun _ _ _ => le_trans⟩
    exact List.pairwise_insertionSort _

end Lists

-- Sorting everything also puts the item at its place.
def UnstableSelect.ofSort {α κ : Type} [LinearOrder κ] {key : α → κ} (us : UnstableSort key) :
    UnstableSelect key where
  select := fun _ items => us.sort items
  perm := fun _ items => us.perm items
  placed := by
    intro nth items inside
    have size : nth < (us.sort items).length := by rwa [(us.perm items).length_eq]
    have split : us.sort items =
        (us.sort items).take nth ++ (us.sort items)[nth] :: (us.sort items).drop (nth + 1) := by
      rw [← List.drop_eq_getElem_cons size, List.take_append_drop]
    have sorted := us.sorted items
    rw [split] at sorted
    obtain ⟨_, later, across⟩ := List.pairwise_append.mp sorted
    refine ⟨_, _, _, split, by rw [List.length_take]; omega, ?_, (List.pairwise_cons.mp later).1⟩
    exact fun other member => across other member _ List.mem_cons_self

def StdChoices.lists : StdChoices where
  heap := BinaryHeap.ofLists
  sort := UnstableSort.ofInsertion

section Favouring

variable {α κ ρ : Type} [LE κ] [LE ρ] {fine : α → ρ} (key : α → κ)
  (mono : ∀ first second, fine first ≤ fine second → key first ≤ key second)

def BinaryHeap.coarsen (bh : BinaryHeap fine) : BinaryHeap key where
  Heap := bh.Heap
  intoIter := bh.intoIter
  empty := bh.empty
  push := bh.push
  pop := bh.pop
  intoIter_empty := bh.intoIter_empty
  intoIter_push := bh.intoIter_push
  pop_none := bh.pop_none
  pop_some := fun heap top rest popped =>
    have ⟨perm, greatest⟩ := bh.pop_some heap top rest popped
    ⟨perm, fun item member => mono item top (greatest item member)⟩

def UnstableSort.coarsen (us : UnstableSort fine) : UnstableSort key where
  sort := us.sort
  perm := us.perm
  sorted := fun items => (us.sorted items).imp fun below => mono _ _ below

end Favouring

section Rank

variable {β κ : Type} [LinearOrder κ] (rank : β → Nat)

open Classical in
-- Items of other types are all alike.
noncomputable def rankOf (α : Type) (item : α) : Nat :=
  if same : α = β then rank (cast same item) else 0

theorem rankOf_self (item : β) : rankOf rank β item = rank item := by
  simp [rankOf]

-- The key first; among equal keys the item of lower rank comes before.
noncomputable def ranked {α : Type} (key : α → κ) (item : α) : κ ×ₗ Nat :=
  toLex (key item, rankOf rank α item)

theorem ranked_le {α : Type} (key : α → κ) (first second : α)
    (below : ranked rank key first ≤ ranked rank key second) : key first ≤ key second := by
  rcases Prod.Lex.toLex_le_toLex.mp below with less | ⟨same, _⟩
  · exact le_of_lt less
  · exact le_of_eq same

theorem ranked_le_iff (key : β → κ) (first second : β) :
    ranked rank key first ≤ ranked rank key second ↔
      key first < key second ∨ key first = key second ∧ rank first ≤ rank second := by
  unfold ranked
  rw [rankOf_self, rankOf_self, Prod.Lex.toLex_le_toLex]

noncomputable def StdChoices.favouring : StdChoices where
  heap := fun key => (BinaryHeap.ofLists (ranked rank key)).coarsen key (ranked_le rank key)
  sort := fun key => (UnstableSort.ofInsertion (ranked rank key)).coarsen key (ranked_le rank key)

open TopK

variable (key : β → κ) (k : Nat)

theorem favouring_pushPops (items : List β) :
    let heap := (StdChoices.favouring rank).heap key
    Smallest (ranked rank key) k items (heap.intoIter (heap.pushPops k heap.empty items)) :=
  (BinaryHeap.ofLists (ranked rank key)).pushPops_empty (ranked rank key)
    (fun _ _ below => below) k items

theorem favouring_sort (items : List β) :
    (((StdChoices.favouring rank).sort key).sort items).Pairwise fun first second =>
      ranked rank key first ≤ ranked rank key second :=
  (UnstableSort.ofInsertion (ranked rank key)).sorted items

-- A heap that only takes strictly better items once it is full takes them by rank as well, when the
-- unranked ones come last.
theorem favouring_offers (positive : 0 < k) (first : β) (items : List β)
    (last : ∀ item ∈ items, ∀ other, rank other ≤ rank item) :
    let heap := (StdChoices.favouring rank).heap key
    ∃ final, heap.offers key k heap.empty (first :: items) = some final ∧
      Smallest (ranked rank key) k (first :: items) (heap.intoIter final) := by
  intro heap
  let fine := BinaryHeap.ofLists (ranked rank key)
  have same (item : β) (member : item ∈ items) (top : β) :
      key item < key top ↔ ranked rank key item < ranked rank key top := by
    have above := last item member top
    rw [← not_le, ← not_le, not_iff_not, ranked_le_iff, le_iff_lt_or_eq]
    exact or_congr_right ⟨fun equal => ⟨equal, above⟩, fun both => both.1⟩
  have begun : heap.offer key k heap.empty first = some (heap.push heap.empty first) :=
    if_pos positive
  have pushed := fine.push_smallest (ranked rank key) k [] fine.empty first (smallest_nil _ _)
    positive
  obtain ⟨final, ran, small⟩ := fine.offers_smallest (ranked rank key) (fun _ _ below => below) k
    positive [first] items (fine.push fine.empty first) pushed
  refine ⟨final, ?_, small⟩
  have after : heap.offers key k heap.empty (first :: items) =
      fine.offers key k (fine.push fine.empty first) items := by
    rw [BinaryHeap.offers, List.foldlM_cons, begun]
    rfl
  have alike : fine.offers key k (fine.push fine.empty first) items =
      fine.offers (ranked rank key) k (fine.push fine.empty first) items :=
    OptionLoop.foldlM_congr _ _ items (fun item member top =>
      fine.offer_congr key (ranked rank key) k top item (same item member)) _
  exact after.trans (alike.trans ran)

end Rank
