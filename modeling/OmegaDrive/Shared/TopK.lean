import Mathlib.Algebra.Ring.Nat
import Mathlib.Data.List.Basic
import Mathlib.Order.Lattice
import Mathlib.Data.List.Flatten
import Mathlib.Data.List.Sort

set_option autoImplicit false

namespace TopK

variable {α D : Type} [LinearOrder D]

-- `kept` holds `k` of the items, or all of them, and no other item is closer than one of these.
def Smallest (dist : α → D) (k : Nat) (all kept : List α) : Prop :=
  ∃ rest, all.Perm (kept ++ rest) ∧ kept.length = min k all.length ∧
    ∀ near ∈ kept, ∀ far ∈ rest, dist near ≤ dist far

def within (dist : α → D) (bound : D) (items : List α) : Nat :=
  items.countP fun item => decide (dist item ≤ bound)

theorem within_append (dist : α → D) (bound : D) (first second : List α) :
    within dist bound (first ++ second) = within dist bound first + within dist bound second :=
  List.countP_append

theorem within_perm (dist : α → D) (bound : D) {first second : List α}
    (perm : first.Perm second) : within dist bound first = within dist bound second :=
  perm.countP_eq _

theorem within_le_length (dist : α → D) (bound : D) (items : List α) :
    within dist bound items ≤ items.length :=
  List.countP_le_length

theorem within_all (dist : α → D) (bound : D) (items : List α)
    (near : ∀ item ∈ items, dist item ≤ bound) : within dist bound items = items.length :=
  List.countP_eq_length.mpr fun item member => by simpa using near item member

theorem within_positive (dist : α → D) (items : List α) (item : α) (member : item ∈ items) :
    0 < within dist (dist item) items :=
  List.countP_pos_iff.mpr ⟨item, member, by simp⟩

theorem within_le_succ (dist : α → D) (closer : α → Bool) {items : List α}
    (distinct : items.Nodup) (item : α) (member : item ∈ items)
    (only : ∀ other, other ≠ item → dist other ≤ dist item → closer other = true) :
    within dist (dist item) items ≤ items.countP closer + 1 := by
  obtain ⟨before, after, rfl⟩ := List.append_of_mem member
  have apart := List.perm_middle.nodup_iff.mp distinct
  have others (part : List α) (absent : item ∉ part) :
      part.countP (fun other => decide (dist other ≤ dist item)) ≤ part.countP closer :=
    List.countP_mono_left fun other inside near =>
      only other (fun same => absent (same ▸ inside)) (of_decide_eq_true near)
  have absent := (List.nodup_cons.mp apart).1
  have left := others before fun inside => absent (List.mem_append_left _ inside)
  have right := others after fun inside => absent (List.mem_append_right _ inside)
  have head : (if decide (dist item ≤ dist item) = true then 1 else 0) ≤ 1 := by split <;> omega
  rw [within, List.countP_append, List.countP_append, List.countP_cons, List.countP_cons]
  omega

theorem smallest_nil (dist : α → D) (k : Nat) : Smallest dist k [] [] :=
  ⟨[], by simp, by simp, by simp⟩

theorem Smallest.perm {dist : α → D} {k : Nat} {all other kept : List α}
    (small : Smallest dist k all kept) (perm : other.Perm all) : Smallest dist k other kept := by
  obtain ⟨rest, split, size, near⟩ := small
  exact ⟨rest, perm.trans split, by rw [size, perm.length_eq], near⟩

theorem Smallest.kept_perm {dist : α → D} {k : Nat} {all kept other : List α}
    (small : Smallest dist k all kept) (perm : other.Perm kept) : Smallest dist k all other := by
  obtain ⟨rest, split, size, near⟩ := small
  refine ⟨rest, split.trans (perm.symm.append_right rest), by rw [perm.length_eq, size], ?_⟩
  intro item member
  exact near item (perm.mem_iff.mp member)

theorem Smallest.subset {dist : α → D} {k : Nat} {all kept : List α}
    (small : Smallest dist k all kept) (item : α) (member : item ∈ kept) : item ∈ all := by
  obtain ⟨rest, split, _, _⟩ := small
  exact split.mem_iff.mpr (List.mem_append_left _ member)

theorem Smallest.length {dist : α → D} {k : Nat} {all kept : List α}
    (small : Smallest dist k all kept) : kept.length = min k all.length := by
  obtain ⟨_, _, size, _⟩ := small
  exact size

theorem Smallest.nodup_map {β : Type} {dist : α → D} {k : Nat} {all kept : List α}
    (small : Smallest dist k all kept) (place : α → β) (distinct : (all.map place).Nodup) :
    (kept.map place).Nodup := by
  obtain ⟨rest, split, _, _⟩ := small
  have whole := (split.map place).nodup_iff.mp distinct
  rw [List.map_append] at whole
  exact (List.nodup_append.mp whole).1

theorem Smallest.all {dist : α → D} {k : Nat} {all kept : List α}
    (small : Smallest dist k all kept) (room : all.length ≤ k) : kept.Perm all := by
  obtain ⟨rest, split, size, _⟩ := small
  have total := split.length_eq
  rw [List.length_append] at total
  have nothing : rest = [] := List.eq_nil_of_length_eq_zero (by omega)
  rw [nothing, List.append_nil] at split
  exact split.symm

theorem smallest_all (dist : α → D) {k : Nat} {all kept : List α} (perm : kept.Perm all)
    (room : all.length ≤ k) : Smallest dist k all kept :=
  ⟨[], by simpa using perm.symm, by rw [perm.length_eq]; omega, by simp⟩

theorem smallest_take (dist : α → D) (k : Nat) {all sorted : List α} (perm : sorted.Perm all)
    (ordered : sorted.Pairwise fun first second => dist first ≤ dist second) :
    Smallest dist k all (sorted.take k) := by
  refine ⟨sorted.drop k, ?_, ?_, ?_⟩
  · rw [List.take_append_drop]
    exact perm.symm
  · rw [List.length_take, perm.length_eq]
  · rw [← List.take_append_drop k sorted] at ordered
    exact (List.pairwise_append.mp ordered).2.2

theorem Smallest.map_on {β E : Type} [LinearOrder E] {dist : α → D} {k : Nat}
    {all kept : List α} (small : Smallest dist k all kept) (image : α → β) (measure : β → E)
    (mono : ∀ first ∈ all, ∀ second ∈ all, dist first ≤ dist second →
      measure (image first) ≤ measure (image second)) :
    Smallest measure k (all.map image) (kept.map image) := by
  obtain ⟨rest, split, size, near⟩ := small
  refine ⟨rest.map image, by simpa using split.map image, by simpa using size, ?_⟩
  intro low lowMember high highMember
  obtain ⟨item, member, rfl⟩ := List.mem_map.mp lowMember
  obtain ⟨other, otherMember, rfl⟩ := List.mem_map.mp highMember
  exact mono item (split.mem_iff.mpr (List.mem_append_left _ member)) other
    (split.mem_iff.mpr (List.mem_append_right _ otherMember)) (near item member other otherMember)

theorem Smallest.map_mono {β E : Type} [LinearOrder E] {dist : α → D} {k : Nat}
    {all kept : List α} (small : Smallest dist k all kept) (image : α → β) (measure : β → E)
    (mono : ∀ first second, dist first ≤ dist second →
      measure (image first) ≤ measure (image second)) :
    Smallest measure k (all.map image) (kept.map image) :=
  small.map_on image measure fun first _ second _ => mono first second

theorem Smallest.map_of {β : Type} {dist : α → D} {k : Nat} {all kept : List α}
    (small : Smallest dist k all kept) (image : α → β) (measure : β → D)
    (same : ∀ item, measure (image item) = dist item) :
    Smallest measure k (all.map image) (kept.map image) :=
  small.map_mono image measure fun first second below => by rwa [same, same]

theorem Smallest.unmap {β : Type} {measure : β → D} {k : Nat} {all : List α} {kept : List β}
    (image : α → β) (back : β → α) (inverse : ∀ item, back (image item) = item)
    (small : Smallest measure k (all.map image) kept) :
    (kept.map back).map image = kept ∧
      Smallest (fun item => measure (image item)) k all (kept.map back) := by
  have forth (item : β) (member : item ∈ all.map image) : image (back item) = item := by
    obtain ⟨source, _, rfl⟩ := List.mem_map.mp member
    rw [inverse]
  have inside := small.subset
  obtain ⟨rest, split, size, near⟩ := small
  constructor
  · rw [List.map_map]
    exact (List.map_congr_left fun item member => forth item (inside item member)).trans
      (List.map_id _)
  · refine ⟨rest.map back, ?_, by simpa using size, ?_⟩
    · have whole := split.map back
      have same : back ∘ image = id := funext inverse
      rwa [List.map_map, List.map_append, same, List.map_id] at whole
    · intro low lowMember high highMember
      obtain ⟨item, member, rfl⟩ := List.mem_map.mp lowMember
      obtain ⟨other, otherMember, rfl⟩ := List.mem_map.mp highMember
      beta_reduce
      rw [forth item (inside item member),
        forth other (split.mem_iff.mpr (List.mem_append_right _ otherMember))]
      exact near item member other otherMember

theorem Smallest.map {dist : α → D} {k : Nat} {all kept : List α}
    (small : Smallest dist k all kept) : Smallest id k (all.map dist) (kept.map dist) :=
  small.map_of dist id fun _ => rfl

theorem Smallest.sorted {k : Nat} {all kept : List D} (small : Smallest id k all kept) :
    kept.Perm ((all.insertionSort (· ≤ ·)).take k) := by
  obtain ⟨rest, split, size, near⟩ := small
  have front := List.perm_insertionSort (· ≤ ·) kept
  have back := List.perm_insertionSort (· ≤ ·) rest
  have ordered : (kept.insertionSort (· ≤ ·) ++ rest.insertionSort (· ≤ ·)).Pairwise (· ≤ ·) := by
    refine List.pairwise_append.mpr
      ⟨List.pairwise_insertionSort _ kept, List.pairwise_insertionSort _ rest, ?_⟩
    intro low lowMember high highMember
    exact near low (front.mem_iff.mp lowMember) high (back.mem_iff.mp highMember)
  have same : all.insertionSort (· ≤ ·) =
      kept.insertionSort (· ≤ ·) ++ rest.insertionSort (· ≤ ·) :=
    ((List.perm_insertionSort (· ≤ ·) all).trans
      (split.trans (front.symm.append back.symm))).eq_of_pairwise'
        (List.pairwise_insertionSort _ all) ordered
  have total := split.length_eq
  have length := front.length_eq
  rw [List.length_append] at total
  rw [same]
  -- Either `k` items are kept, or nothing is left out.
  by_cases full : kept.length = k
  · rw [List.take_left' (by omega)]
    exact front.symm
  · have nothing : rest = [] := List.eq_nil_of_length_eq_zero (by omega)
    rw [nothing, List.insertionSort_nil, List.append_nil, List.take_of_length_le (by omega)]
    exact front.symm

theorem Smallest.within_eq {dist : α → D} {k : Nat} {all kept : List α}
    (small : Smallest dist k all kept) (bound : D) :
    within dist bound kept = min k (within dist bound all) := by
  obtain ⟨rest, split, size, near⟩ := small
  have total := within_perm dist bound split
  rw [within_append] at total
  have length := split.length_eq
  rw [List.length_append] at length
  have keptBound := within_le_length dist bound kept
  by_cases outside : within dist bound rest = 0
  · omega
  · obtain ⟨far, member, inside⟩ := List.countP_pos_iff.mp (Nat.pos_of_ne_zero outside)
    have whole := within_all dist bound kept fun item present =>
      le_trans (near item present far member) (by simpa using inside)
    have restBound := within_le_length dist bound rest
    omega

theorem Smallest.unique {k : Nat} {all kept other : List D} (first : Smallest id k all kept)
    (second : Smallest id k all other) : kept.Perm other :=
  first.sorted.trans second.sorted.symm

-- Of two sorted lists, the one that is ahead at every bound is ahead at every place.
theorem forall₂_of_within {near far : List D} (nearSorted : near.Pairwise (· ≤ ·))
    (farSorted : far.Pairwise (· ≤ ·)) (same : near.length = far.length)
    (ahead : ∀ bound, within id bound far ≤ within id bound near) :
    List.Forall₂ (· ≤ ·) near far := by
  induction far generalizing near with
  | nil =>
    rw [List.eq_nil_of_length_eq_zero same]
    exact .nil
  | cons last far ih =>
    cases near with
    | nil => cases same
    | cons first near =>
      obtain ⟨firstLeast, nearRest⟩ := List.pairwise_cons.mp nearSorted
      obtain ⟨lastLeast, farRest⟩ := List.pairwise_cons.mp farSorted
      have least : ∀ item ∈ first :: near, first ≤ item := by simpa using firstLeast
      have head : first ≤ last := by
        have present := within_positive id (last :: far) last List.mem_cons_self
        obtain ⟨item, member, below⟩ :=
          List.countP_pos_iff.mp (Nat.lt_of_lt_of_le present (ahead last))
        exact le_trans (least item member) (of_decide_eq_true below)
      refine .cons head (ih nearRest farRest (Nat.succ_inj.mp same) fun bound => ?_)
      have whole := ahead bound
      by_cases reached : last ≤ bound
      · have both := le_trans head reached
        simpa [within, List.countP_cons, reached, both] using whole
      · -- Nothing of the far list is within the bound.
        have absent : within id bound far = 0 := List.countP_eq_zero.mpr fun item member => by
          simpa using lt_of_lt_of_le (not_le.mp reached) (lastLeast item member)
        rw [absent]
        exact Nat.zero_le _

theorem Smallest.ahead {k : Nat} {all part kept few : List D} (whole : Smallest id k all kept)
    (fewer : Smallest id k part few) (inside : ∀ bound, within id bound part ≤ within id bound all)
    (same : kept.length = few.length) (keptSorted : kept.Pairwise (· ≤ ·))
    (fewSorted : few.Pairwise (· ≤ ·)) : List.Forall₂ (· ≤ ·) kept few := by
  apply forall₂_of_within keptSorted fewSorted same
  intro bound
  have more := inside bound
  rw [whole.within_eq, fewer.within_eq]
  omega

theorem Smallest.mem_of_lt {dist : α → D} {k : Nat} {all kept : List α}
    (small : Smallest dist k all kept) (near far : α) (member : near ∈ all) (inside : far ∈ kept)
    (closer : dist near < dist far) : near ∈ kept := by
  obtain ⟨rest, split, _, nearer⟩ := small
  rcases List.mem_append.mp (split.mem_iff.mp member) with here | outside
  · exact here
  · exact absurd (nearer far inside near outside) (not_le.mpr closer)

theorem Smallest.few_closer {dist : α → D} {k : Nat} {all kept : List α}
    (small : Smallest dist k all kept) (item : α) (inside : item ∈ kept) :
    all.countP (fun other => decide (dist other < dist item)) < k := by
  obtain ⟨rest, split, size, nearer⟩ := small
  have none_left : rest.countP (fun other => decide (dist other < dist item)) = 0 :=
    List.countP_eq_zero.mpr fun other outside => by
      simpa using nearer item inside other outside
  have fewer : kept.countP (fun other => decide (dist other < dist item)) < kept.length := by
    apply lt_of_le_of_ne List.countP_le_length
    intro whole
    simpa using List.countP_eq_length.mp whole item inside
  have total := split.countP_eq fun other => decide (dist other < dist item)
  rw [List.countP_append] at total
  omega

theorem sublist_of_sorted (dist : α → D) {items : List α}
    (sorted : items.Pairwise fun first second => dist first ≤ dist second) (near far : α)
    (nearIn : near ∈ items) (farIn : far ∈ items) (closer : dist near < dist far) :
    [near, far].Sublist items := by
  obtain ⟨before, after, rfl⟩ := List.append_of_mem farIn
  obtain ⟨_, later, _⟩ := List.pairwise_append.mp sorted
  have earlier : near ∈ before := by
    rcases List.mem_append.mp nearIn with here | there
    · exact here
    · rcases List.mem_cons.mp there with rfl | behind
      · exact absurd closer (lt_irrefl _)
      · exact absurd ((List.pairwise_cons.mp later).1 near behind) (not_le.mpr closer)
  exact (List.singleton_sublist.mpr earlier).append
    (List.singleton_sublist.mpr List.mem_cons_self)

theorem Smallest.mem_of_within {dist : α → D} {k : Nat} {all kept : List α}
    (small : Smallest dist k all kept) (item : α) (member : item ∈ all)
    (few : within dist (dist item) all ≤ k) : item ∈ kept := by
  have all_kept := small.within_eq (dist item)
  obtain ⟨rest, split, _, _⟩ := small
  rcases List.mem_append.mp (split.mem_iff.mp member) with here | outside
  · exact here
  · have total := within_perm dist (dist item) split
    have present := within_positive dist rest item outside
    rw [within_append] at total
    omega

theorem Smallest.mem_iff {dist : α → D} {k : Nat} {all part rest chosen kept : List α}
    (split : all.Perm (part ++ rest)) (distinct : all.Nodup)
    (apart : ∀ item ∈ all, ∀ other ∈ all, dist other = dist item → other = item)
    (whole : Smallest dist k all chosen) (fewer : Smallest dist k part kept) (item : α)
    (member : item ∈ chosen) : item ∈ kept ↔ item ∈ part := by
  classical
  refine ⟨fewer.subset item, fun present => ?_⟩
  apply fewer.mem_of_within item present
  have inside := whole.subset item member
  have parts := within_perm dist (dist item) split
  rw [within_append] at parts
  -- Outside the list, anything counts as closer.
  let closer (other : α) : Bool := decide (other ∈ all → dist other < dist item)
  have most := within_le_succ dist closer distinct item inside fun other different below =>
    decide_eq_true fun otherIn =>
      lt_of_le_of_ne below fun same => different (apart item inside other otherIn same)
  have few := whole.few_closer item member
  have same : all.countP closer = all.countP fun other => decide (dist other < dist item) :=
    List.countP_congr fun other otherIn => by simp [closer, otherIn]
  omega

theorem Smallest.shared [BEq α] [LawfulBEq α] {dist : α → D} {k : Nat}
    {all part rest chosen kept : List α} (split : all.Perm (part ++ rest)) (distinct : all.Nodup)
    (apart : ∀ item ∈ all, ∀ other ∈ all, dist other = dist item → other = item)
    (whole : Smallest dist k all chosen) (fewer : Smallest dist k part kept) :
    (kept.filter chosen.contains).Perm (chosen.filter part.contains) := by
  have once {items chosen : List α} (small : Smallest dist k items chosen)
      (distinct : items.Nodup) : chosen.Nodup := by
    have images := small.nodup_map id (by simpa using distinct)
    rwa [List.map_id] at images
  have partOnce := (List.nodup_append.mp (split.nodup_iff.mp distinct)).1
  apply (List.perm_ext_iff_of_nodup ((once fewer partOnce).filter _)
    ((once whole distinct).filter _)).mpr
  intro item
  rw [List.mem_filter, List.mem_filter, List.contains_iff_mem, List.contains_iff_mem, and_comm]
  exact and_congr_right (Smallest.mem_iff split distinct apart whole fewer item)

theorem Smallest.flatten {dist : α → D} {k : Nat} {parts chosen : List (List α)}
    {kept : List α} (each : List.Forall₂ (Smallest dist k) parts chosen)
    (small : Smallest dist k chosen.flatten kept) : Smallest dist k parts.flatten kept := by
  obtain ⟨rests, split, count, far⟩ : ∃ rests, parts.flatten.Perm (chosen.flatten ++ rests) ∧
      min k chosen.flatten.length = min k parts.flatten.length ∧
      ∀ item ∈ rests, k ≤ within dist (dist item) chosen.flatten := by
    clear small
    induction each with
    | nil => exact ⟨[], by simp, rfl, by simp⟩
    | @cons part choice parts chosen head tail ih =>
      obtain ⟨rests, split, count, far⟩ := ih
      obtain ⟨rest, headSplit, headSize, headNear⟩ := head
      refine ⟨rest ++ rests, ?_, ?_, ?_⟩
      · rw [List.flatten_cons, List.flatten_cons]
        apply (headSplit.append split).trans
        simp only [List.append_assoc]
        apply List.Perm.append_left choice
        rw [← List.append_assoc, ← List.append_assoc]
        exact List.perm_append_comm.append_right rests
      · simp only [List.flatten_cons, List.length_append]
        omega
      · intro item member
        rw [List.flatten_cons, within_append]
        rcases List.mem_append.mp member with here | later
        · -- Something was left out here, so the choice is full and all of it is nearer.
          have whole := within_all dist (dist item) choice fun other present =>
            headNear other present item here
          have lengths := headSplit.length_eq
          have left : 0 < rest.length := List.length_pos_of_mem here
          rw [List.length_append] at lengths
          omega
        · have := far item later
          omega
  obtain ⟨rest, keptSplit, keptSize, near⟩ := id small
  refine ⟨rest ++ rests, ?_, by rw [keptSize, count], ?_⟩
  · rw [← List.append_assoc]
    exact split.trans (keptSplit.append_right rests)
  · intro item member other outside
    rcases List.mem_append.mp outside with here | later
    · exact near item member other here
    · have full := small.within_eq (dist other)
      have bound := within_le_length dist (dist other) kept
      have enough := far other later
      have all : within dist (dist other) kept = kept.length := by omega
      have inside := List.countP_eq_length.mp all item member
      simpa using inside

theorem covered_of_smallest {dist : α → D} {k : Nat} {looked skipped kept : List α}
    (small : Smallest dist k looked kept)
    (whole : Smallest id k ((looked ++ skipped).map dist) (kept.map dist)) :
    ∀ item ∈ skipped, k ≤ within dist (dist item) looked := by
  intro item member
  have chosen := whole.within_eq (dist item)
  have partly := small.map.within_eq (dist item)
  have positive := within_positive dist skipped item member
  rw [partly] at chosen
  simp only [within, List.map_append, List.countP_append, List.countP_map,
    Function.comp_def, id_eq] at chosen positive ⊢
  omega

theorem smallest_of_covered {dist : α → D} {k : Nat} {looked skipped kept : List α}
    (small : Smallest dist k looked kept)
    (covered : ∀ item ∈ skipped, k ≤ within dist (dist item) looked) :
    Smallest dist k (looked ++ skipped) kept := by
  obtain ⟨rest, split, size, near⟩ := id small
  refine ⟨rest ++ skipped, by simpa using split.append_right skipped, ?_, ?_⟩
  · rw [size, List.length_append]
    cases skipped with
    | nil => simp
    | cons item skipped =>
      have full := covered item List.mem_cons_self
      have bound := within_le_length dist (dist item) looked
      omega
  · intro item member other outside
    rcases List.mem_append.mp outside with here | later
    · exact near item member other here
    · have enough := covered other later
      have full := small.within_eq (dist other)
      have bound := within_le_length dist (dist other) kept
      have all : within dist (dist other) kept = kept.length := by omega
      have inside := List.countP_eq_length.mp all item member
      simpa using inside

theorem smallest_without {dist : α → D} {k : Nat} {looked skipped kept : List α}
    (small : Smallest dist k looked kept) :
    Smallest id k ((looked ++ skipped).map dist) (kept.map dist) ↔
      ∀ item ∈ skipped, k ≤ within dist (dist item) looked :=
  ⟨covered_of_smallest small, fun covered => (smallest_of_covered small covered).map⟩

theorem smallest_with_iff {dist : α → D} {k : Nat} {looked kept : List α} (skipped : List α)
    (small : Smallest dist k looked kept) :
    Smallest dist k (looked ++ skipped) kept ↔
      ∀ item ∈ skipped, k ≤ within dist (dist item) looked :=
  ⟨fun whole => covered_of_smallest small whole.map, smallest_of_covered small⟩

end TopK
