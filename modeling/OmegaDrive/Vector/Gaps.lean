import OmegaDrive.Vector.Exact

set_option autoImplicit false

namespace OmegaDrive

open TopK OptionLoop

def RerankCandidate.place (c : RerankCandidate) : Nat × Nat := (c.shardIdx, c.localIdx)

namespace SharedVectorStore

variable (store : SharedVectorStore ℚ) (queryFloat : List ℚ)

def placesOf (shardCandidates : List (List Candidate)) : List (Nat × Nat) :=
  (shardCandidates.zipIdx.map fun (candidates, shardIdx) =>
    candidates.map fun candidate => (shardIdx, candidate.2)).flatten

def innerProduct (place : Nat × Nat) : ℚ :=
  match store.shards[place.1]? with
  | some shard =>
    ∑ c ∈ Finset.range store.dim, product queryFloat (floatRow store.dim shard place.2) c
  | none => 0

def scored (place : Nat × Nat) : RerankCandidate :=
  ⟨toFixed (innerProduct store queryFloat place), place.1, place.2⟩

/-- Candidates as the coarse stage draws them: for each shard, different vectors of its own. -/
def Drawn (shardCandidates : List (List Candidate)) : Prop :=
  List.Forall₂ (fun (shard : CoreShard ℚ) (candidates : List Candidate) =>
    (candidates.map Prod.snd).Nodup ∧ ∀ candidate ∈ candidates, candidate.2 < shard.keys.length)
    store.shards shardCandidates

variable {store queryFloat}

theorem scoreAt_innerProduct (formed : WellFormed store) (full : queryFloat.length = store.dim)
    (whole : 8 ∣ store.dim) (s i : Nat) (shard : CoreShard ℚ)
    (present : store.shards[s]? = some shard) (inside : i < shard.keys.length) :
    scoreAt store.dim queryFloat shard i = toFixed (innerProduct store queryFloat (s, i)) := by
  have laid := formed.shards shard (List.mem_of_getElem? present)
  have length := length_sliceAt _ _ _ _ (sliceAt_floatRow laid i inside)
  have used : min (queryFloat.length / 8) ((floatRow store.dim shard i).length / 8) * 8 =
      store.dim := by omega
  rw [scoreAt, dotProduct_eq, used, innerProduct, present]

theorem placesOf_eq (shardCandidates : List (List Candidate)) :
    placesOf shardCandidates = shardCandidates.zipIdx.flatMap fun entry =>
      entry.1.map fun candidate => (entry.2, candidate.2) := by
  rw [placesOf, List.flatMap_def]

theorem Drawn.nodup {shardCandidates : List (List Candidate)}
    (drawn : Drawn store shardCandidates) : (placesOf shardCandidates).Nodup := by
  rw [placesOf_eq]
  apply nodup_slots id Prod.snd shardCandidates 0
  intro candidates member
  obtain ⟨_, _, distinct, _⟩ := related_mem drawn candidates member
  exact distinct

section Measured

variable (std : StdChoices) (store : SharedVectorStore ℚ) (queryFloat : List ℚ) (k : Nat)
  (shardCandidates : List (List Candidate)) {D : Type} [LinearOrder D]
  (measure : RerankCandidate → D)

structure RanksBy : Prop where
  taken : ∀ pair ∈ store.shards.zip shardCandidates,
    let heap := std.heap RerankCandidate.order
    let items := pair.2.map fun candidate => scoredAt store.dim queryFloat pair.1 candidate.2
    ∃ final, heap.offers RerankCandidate.order k heap.empty items = some final ∧
      Smallest measure k items (heap.intoIter final)
  moved : ∀ (s : Nat) (first second : RerankCandidate), measure first ≤ measure second →
    measure { first with shardIdx := s } ≤ measure { second with shardIdx := s }
  merged : ∀ items, let heap := std.heap RerankCandidate.order
    Smallest measure k items (heap.intoIter (heap.pushPops k heap.empty items))
  ordered : ∀ items, ((std.sort RerankCandidate.order).sort items).Pairwise
    fun first second => measure first ≤ measure second

structure Ranking (returned : List (Nat × Nat)) : Prop where
  chosen : Smallest (fun place => measure (scored store queryFloat place)) k
    (placesOf shardCandidates) returned
  sorted : returned.Pairwise fun first second =>
    measure (scored store queryFloat first) ≤ measure (scored store queryFloat second)

end Measured

section Measured

variable {std : StdChoices} {k : Nat} {shardCandidates : List (List Candidate)} {D : Type}
  [LinearOrder D] {measure : RerankCandidate → D}

theorem handedOver_smallest (formed : WellFormed store) (full : queryFloat.length = store.dim)
    (whole : 8 ∣ store.dim) (s : Nat) (shard : CoreShard ℚ) (present : store.shards[s]? = some shard)
    (candidates : List Candidate)
    (inside : ∀ candidate ∈ candidates, candidate.2 < shard.keys.length)
    (best : List RerankCandidate)
    (moved : ∀ first second, measure first ≤ measure second →
      measure { first with shardIdx := s } ≤ measure { second with shardIdx := s })
    (small : Smallest measure k
      (candidates.map fun candidate => scoredAt store.dim queryFloat shard candidate.2) best) :
    Smallest measure k
      (candidates.map fun candidate => scored store queryFloat (s, candidate.2))
      (best.map (handedOver ℚ s)) := by
  have located := small.map_mono (fun c => { c with shardIdx := s }) measure moved
  rw [List.map_map] at located
  have sources : candidates.map ((fun c : RerankCandidate => { c with shardIdx := s }) ∘
      fun candidate => scoredAt store.dim queryFloat shard candidate.2) =
      candidates.map fun candidate => scored store queryFloat (s, candidate.2) := by
    apply List.map_congr_left
    intro candidate here
    have score := scoreAt_innerProduct formed full whole s candidate.2 shard present
      (inside candidate here)
    simp only [Function.comp_apply, scoredAt, scored, score]
  have images : best.map (fun c : RerankCandidate => { c with shardIdx := s }) =
      best.map (handedOver ℚ s) := by
    apply List.map_congr_left
    intro c here
    obtain ⟨candidate, _, rfl⟩ := List.mem_map.mp (small.subset c here)
    have range := toFixed_range (dotProduct queryFloat (floatRow store.dim shard candidate.2))
    rw [handedOver, scoredAt, scoreAt, toFixed_ofFixed _ range.1 range.2]
  rw [sources, images] at located
  exact located

theorem offered_smallest (formed : WellFormed store) (full : queryFloat.length = store.dim)
    (whole : 8 ∣ store.dim) (drawn : Drawn store shardCandidates)
    (ranks : RanksBy std store queryFloat k shardCandidates measure)
    (shardReranked : List (List RerankCandidate))
    (related : List.Forall₂ (fun (pair : CoreShard ℚ × List Candidate) best =>
        Smallest measure k
          (pair.2.map fun candidate => scoredAt store.dim queryFloat pair.1 candidate.2) best)
      (store.shards.zip shardCandidates) shardReranked)
    (kept : List RerankCandidate) (small : Smallest measure k (offered ℚ shardReranked) kept) :
    Smallest measure k ((placesOf shardCandidates).map (scored store queryFloat)) kept := by
  have parts : List.Forall₂ (Smallest measure k)
      (shardCandidates.zipIdx.map fun entry =>
        entry.1.map fun candidate => scored store queryFloat (entry.2, candidate.2))
      (shardReranked.zipIdx.map fun part => part.1.map (handedOver ℚ part.2)) := by
    have drawnPairs : (store.shards.zip shardCandidates).map Prod.snd = shardCandidates :=
      List.map_snd_zip (Nat.le_of_eq drawn.length_eq.symm)
    rw [← drawnPairs, List.zipIdx_map, List.map_map, List.forall₂_map_left_iff,
      List.forall₂_map_right_iff]
    apply (related_inside (related_zipIdx related 0)).imp
    rintro ⟨⟨shard, candidates⟩, s⟩ ⟨best, _⟩ ⟨member, rfl, few⟩
    have found := List.mem_zipIdx_iff_getElem?.mp member
    have inside := ((List.forall₂_iff_zip.mp drawn).2 (List.mem_of_getElem? found)).2
    exact handedOver_smallest formed full whole s shard (List.getElem?_zip_eq_some.mp found).1
      candidates inside best (ranks.moved s) few
  have images : (shardCandidates.zipIdx.map fun entry =>
      entry.1.map fun candidate => scored store queryFloat (entry.2, candidate.2)).flatten =
      (placesOf shardCandidates).map (scored store queryFloat) := by
    simp [placesOf, List.map_flatten, Function.comp_def]
  rw [← images]
  exact Smallest.flatten parts small

theorem rerankCandidates_by (formed : WellFormed store) (full : queryFloat.length = store.dim)
    (whole : 8 ∣ store.dim) (drawn : Drawn store shardCandidates)
    (ranks : RanksBy std store queryFloat k shardCandidates measure) :
    ∃ returned, rerankCandidates std store queryFloat k shardCandidates =
        some (returned.map (scored store queryFloat)) ∧
      Ranking store queryFloat k shardCandidates measure returned := by
  obtain ⟨shardReranked, related, reranked⟩ := rerankCandidates_stages std store queryFloat k
    formed shardCandidates (fun _ member => ((List.forall₂_iff_zip.mp drawn).2 member).2) measure
    ranks.taken
  have all := offered_smallest formed full whole drawn ranks shardReranked related _
    ((ranks.merged (offered ℚ shardReranked)).kept_perm
      ((std.sort RerankCandidate.order).perm _))
  obtain ⟨same, chosen⟩ := all.unmap (scored store queryFloat) RerankCandidate.place fun _ => rfl
  have sorted := ranks.ordered ((std.heap RerankCandidate.order).intoIter
    ((std.heap RerankCandidate.order).pushPops k (std.heap RerankCandidate.order).empty
      (offered ℚ shardReranked)))
  refine ⟨_, ?_, chosen, ?_⟩
  · rw [reranked, same, ← offered_scored]
    rfl
  · rw [← same] at sorted
    exact (List.pairwise_map (R := fun first second => measure first ≤ measure second)).mp sorted

end Measured

theorem ranksBy_score (std : StdChoices) (k : Nat) (positive : 0 < k)
    (shardCandidates : List (List Candidate)) :
    RanksBy std store queryFloat k shardCandidates RerankCandidate.order := by
  constructor
  case taken =>
    intro pair _
    exact offers_score std k positive _
  case moved =>
    intro _ _ _ below
    exact below
  case merged =>
    intro items
    exact (std.heap RerankCandidate.order).pushPops_empty RerankCandidate.order
      (fun _ _ below => below) k items
  case ordered => exact (std.sort RerankCandidate.order).sorted

def rankFor (place : Nat × Nat) (c : RerankCandidate) : Nat :=
  if c.localIdx = place.2 then if c.shardIdx = place.1 then 0 else 1 else 2

theorem rankFor_le (place : Nat × Nat) (c : RerankCandidate) : rankFor place c ≤ 2 := by
  unfold rankFor
  split
  next => split <;> omega
  next => exact Nat.le_refl 2

theorem rankFor_zero (place : Nat × Nat) (c : RerankCandidate) :
    rankFor place c = 0 ↔ c.place = place := by
  unfold rankFor
  rw [RerankCandidate.place, Prod.ext_iff]
  split
  next here => simp [here]
  next elsewhere => simp [elsewhere]

-- Which shard the candidates are said to be in does not turn them round.
theorem rankFor_moved (place : Nat × Nat) (s : Nat) (first second : RerankCandidate)
    (lower : rankFor place first ≤ rankFor place second) :
    rankFor place { first with shardIdx := s } ≤ rankFor place { second with shardIdx := s } := by
  unfold rankFor at lower ⊢
  by_cases one : first.localIdx = place.2 <;> by_cases other : second.localIdx = place.2
  · simp [one, other]
  · simp only [one, other, if_true, if_false]
    split <;> omega
  · simp only [one, other, if_true, if_false] at lower
    split at lower <;> omega
  · simp [one, other]

def putFirst (localIdx : Nat) (candidates : List Candidate) : List Candidate :=
  (candidates.filter fun candidate => candidate.2 = localIdx) ++
    candidates.filter fun candidate => ¬candidate.2 = localIdx

theorem putFirst_perm (localIdx : Nat) (candidates : List Candidate) :
    (putFirst localIdx candidates).Perm candidates := by
  simpa [putFirst] using List.filter_append_perm (fun candidate => candidate.2 = localIdx) candidates

theorem putFirst_rest (localIdx : Nat) (candidates : List Candidate)
    (distinct : (candidates.map Prod.snd).Nodup) (first : Candidate) (rest : List Candidate)
    (shape : putFirst localIdx candidates = first :: rest) :
    ∀ candidate ∈ rest, candidate.2 ≠ localIdx := by
  intro candidate member same
  have nodup : ((first :: rest).map Prod.snd).Nodup := by
    rw [← shape, ((putFirst_perm localIdx candidates).map Prod.snd).nodup_iff]
    exact distinct
  have here : candidate ∈ candidates.filter fun candidate => candidate.2 = localIdx := by
    have present : candidate ∈ putFirst localIdx candidates := by
      rw [shape]
      exact List.mem_cons_of_mem _ member
    rw [(putFirst_perm localIdx candidates).mem_iff] at present
    exact List.mem_filter.mpr ⟨present, decide_eq_true same⟩
  obtain ⟨front, tail, found⟩ := List.exists_cons_of_ne_nil (List.ne_nil_of_mem here)
  rw [putFirst, found] at shape
  obtain ⟨rfl, _⟩ := List.cons.inj shape
  have matched : front ∈ candidates.filter fun candidate => candidate.2 = localIdx := by
    rw [found]
    exact List.mem_cons_self
  have equal : front.2 = localIdx := of_decide_eq_true (List.mem_filter.mp matched).2
  apply (List.nodup_cons.mp nodup).1
  rw [equal, ← same]
  exact List.mem_map_of_mem member

theorem Drawn.putFirst {shardCandidates : List (List Candidate)}
    (drawn : Drawn store shardCandidates) (localIdx : Nat) :
    Drawn store (shardCandidates.map (putFirst localIdx)) := by
  rw [Drawn, List.forall₂_map_right_iff]
  refine drawn.imp fun shard candidates ⟨distinct, inside⟩ => ?_
  have perm := putFirst_perm localIdx candidates
  exact ⟨(perm.map Prod.snd).nodup_iff.mpr distinct,
    fun candidate member => inside candidate (perm.mem_iff.mp member)⟩

theorem placesOf_putFirst (localIdx : Nat) (shardCandidates : List (List Candidate)) :
    (placesOf (shardCandidates.map (putFirst localIdx))).Perm (placesOf shardCandidates) := by
  rw [placesOf_eq, placesOf_eq, List.zipIdx_map, List.flatMap_map]
  exact List.Perm.flatMap_left _ fun entry _ => (putFirst_perm localIdx entry.1).map _

theorem ranksBy_favouring (b : Nat × Nat) (k : Nat) (positive : 0 < k)
    (shardCandidates : List (List Candidate))
    (distinct : ∀ candidates ∈ shardCandidates, (candidates.map Prod.snd).Nodup) :
    RanksBy (StdChoices.favouring (rankFor b)) store queryFloat k
      (shardCandidates.map (putFirst b.2)) (ranked (rankFor b) RerankCandidate.order) := by
  constructor
  case taken =>
    intro pair member
    obtain ⟨candidates, inside, same⟩ := List.mem_map.mp (List.of_mem_zip member).2
    cases shape : pair.2 with
    | nil => exact ⟨_, rfl, smallest_nil _ _⟩
    | cons first rest =>
      apply favouring_offers (rankFor b) RerankCandidate.order k positive
      intro item last other
      obtain ⟨candidate, later, rfl⟩ := List.mem_map.mp last
      have differs := putFirst_rest b.2 candidates (distinct candidates inside) first rest
        (same.trans shape) candidate later
      have greatest : rankFor b (scoredAt store.dim queryFloat pair.1 candidate.2) = 2 :=
        if_neg differs
      rw [greatest]
      exact rankFor_le b other
  case moved =>
    intro s first second below
    apply (ranked_le_iff (rankFor b) RerankCandidate.order _ _).mpr
    exact ((ranked_le_iff (rankFor b) RerankCandidate.order _ _).mp below).imp id
      fun both => ⟨both.1, rankFor_moved b s first second both.2⟩
  case merged => exact favouring_pushPops (rankFor b) RerankCandidate.order k
  case ordered => exact favouring_sort (rankFor b) RerankCandidate.order

-- Whenever one candidate's inner product is larger by two units of the fixed-point scale, the other
-- is not returned without it, nor before it; whatever order the candidates come in and whatever the
-- standard library does with equal scores.
def GapsKept (store : SharedVectorStore ℚ) (queryFloat : List ℚ) (k : Nat)
    (shardCandidates : List (List Candidate)) : Prop :=
  ∀ (std : StdChoices) (ordered : List (List Candidate)), Drawn store ordered →
    (placesOf ordered).Perm (placesOf shardCandidates) →
    ∃ finalResults, rerankCandidates std store queryFloat k ordered = some finalResults ∧
      ∀ a ∈ placesOf shardCandidates, ∀ b ∈ placesOf shardCandidates,
        innerProduct store queryFloat b + 2 / 10000000 ≤ innerProduct store queryFloat a →
        b ∈ finalResults.map RerankCandidate.place →
        [a, b].Sublist (finalResults.map RerankCandidate.place)

def fixedScore (store : SharedVectorStore ℚ) (queryFloat : List ℚ) (place : Nat × Nat) : Int :=
  toFixed (innerProduct store queryFloat place)

theorem order_scored (place : Nat × Nat) :
    (scored store queryFloat place).order = -fixedScore store queryFloat place := rfl

def higher (store : SharedVectorStore ℚ) (queryFloat : List ℚ) (place : Nat × Nat)
    (places : List (Nat × Nat)) : Nat :=
  places.countP fun other =>
    decide (fixedScore store queryFloat place < fixedScore store queryFloat other)

theorem map_place (returned : List (Nat × Nat)) :
    (returned.map (scored store queryFloat)).map RerankCandidate.place = returned := by
  rw [List.map_map]
  exact List.map_id _

theorem gapsKept_of_scores (k : Nat) (positive : 0 < k) (shardCandidates : List (List Candidate))
    (formed : WellFormed store) (full : queryFloat.length = store.dim) (whole : 8 ∣ store.dim)
    (told : ∀ a ∈ placesOf shardCandidates, ∀ b ∈ placesOf shardCandidates,
      innerProduct store queryFloat b + 2 / 10000000 ≤ innerProduct store queryFloat a →
      fixedScore store queryFloat b < fixedScore store queryFloat a ∨
        k ≤ higher store queryFloat b (placesOf shardCandidates)) :
    GapsKept store queryFloat k shardCandidates := by
  intro std ordered drawn same
  obtain ⟨returned, found, small, sorted⟩ :=
    rerankCandidates_by formed full whole drawn (ranksBy_score std k positive ordered)
  refine ⟨_, found, fun a aIn b bIn gap bBack => ?_⟩
  rw [map_place] at bBack ⊢
  replace small := small.perm same.symm
  rcases told a aIn b bIn gap with above | many
  · have closer : (scored store queryFloat a).order < (scored store queryFloat b).order :=
      Int.neg_lt_neg above
    have aBack := small.mem_of_lt a b aIn bBack closer
    exact sublist_of_sorted (fun place => (scored store queryFloat place).order) sorted a b aBack
      bBack closer
  · have few := small.few_closer b bBack
    simp only [order_scored, neg_lt_neg_iff] at few
    exact absurd many (Nat.not_le.mpr few)

theorem scores_of_gapsKept (k : Nat) (positive : 0 < k) (shardCandidates : List (List Candidate))
    (formed : WellFormed store) (full : queryFloat.length = store.dim) (whole : 8 ∣ store.dim)
    (drawn : Drawn store shardCandidates) (kept : GapsKept store queryFloat k shardCandidates)
    (a b : Nat × Nat) (aIn : a ∈ placesOf shardCandidates) (bIn : b ∈ placesOf shardCandidates)
    (gap : innerProduct store queryFloat b + 2 / 10000000 ≤ innerProduct store queryFloat a)
    (below : fixedScore store queryFloat a ≤ fixedScore store queryFloat b) :
    k ≤ higher store queryFloat b (placesOf shardCandidates) := by
  by_contra few
  have distinct : ∀ candidates ∈ shardCandidates, (candidates.map Prod.snd).Nodup := by
    intro candidates member
    obtain ⟨_, _, nodup, _⟩ := related_mem drawn candidates member
    exact nodup
  have same := placesOf_putFirst b.2 shardCandidates
  have front := drawn.putFirst b.2
  obtain ⟨returned, found, small, sorted⟩ := rerankCandidates_by formed full whole front
    (ranksBy_favouring b k positive shardCandidates distinct)
  obtain ⟨final, ran, gaps⟩ := kept _ _ front same
  obtain rfl := Option.some.inj (ran.symm.trans found)
  have apart := gaps a aIn b bIn gap
  rw [map_place] at apart
  have favoured (other : Nat × Nat) (differs : other ≠ b)
      (near : ranked (rankFor b) RerankCandidate.order (scored store queryFloat other) ≤
        ranked (rankFor b) RerankCandidate.order (scored store queryFloat b)) :
      fixedScore store queryFloat b < fixedScore store queryFloat other := by
    rcases (ranked_le_iff _ _ _ _).mp near with closer | ⟨_, lower⟩
    · exact Int.neg_lt_neg_iff.mp closer
    · have zero := (rankFor_zero b (scored store queryFloat b)).mpr rfl
      exact absurd ((rankFor_zero b (scored store queryFloat other)).mp (by omega)) differs
  have bBack : b ∈ returned := by
    apply (small.perm same.symm).mem_of_within b bIn
    refine (within_le_succ _ _ drawn.nodup b bIn fun other differs near =>
      decide_eq_true (favoured other differs near)).trans ?_
    rw [higher] at few
    omega
  have between := (List.pairwise_cons.mp (sorted.sublist (apart bBack))).1 b List.mem_cons_self
  have differs : a ≠ b := by
    rintro rfl
    linarith
  exact absurd (favoured a differs between) (not_lt.mpr below)

theorem higher_of_lowest (place : Nat × Nat) (places : List (Nat × Nat))
    (lowest : innerProduct store queryFloat place * 10000000 ≤ -2147483648) :
    higher store queryFloat place places = places.countP fun other =>
      decide (-2147483648 < innerProduct store queryFloat other * 10000000) := by
  have least : fixedScore store queryFloat place = -2147483648 := by
    have range := toFixed_range (innerProduct store queryFloat place)
    have bottom := mt (toFixed_lowest (innerProduct store queryFloat place)).mp (not_lt.mpr lowest)
    rw [fixedScore]
    omega
  apply List.countP_congr
  intro other _
  rw [least, decide_eq_true_eq, decide_eq_true_eq]
  exact toFixed_lowest _

theorem gapsKept_iff (dim numCpus : Nat) (aligned : dim % 64 = 0) (ops : List (StoreOp ℚ))
    (queryFloat : List ℚ) (full : queryFloat.length = dim) (k : Nat) (positive : 0 < k)
    (shardCandidates : List (List Candidate)) :
    let store := (new dim numCpus aligned).run ops
    Drawn store shardCandidates →
      (GapsKept store queryFloat k shardCandidates ↔
        ∀ a ∈ placesOf shardCandidates, ∀ b ∈ placesOf shardCandidates,
          innerProduct store queryFloat b + 2 / 10000000 ≤ innerProduct store queryFloat a →
          innerProduct store queryFloat b * 10000000 < 2147483647 ∧
            (innerProduct store queryFloat a * 10000000 ≤ -2147483648 →
              k ≤ (placesOf shardCandidates).countP fun c =>
                decide (-2147483648 < innerProduct store queryFloat c * 10000000))) := by
  intro store drawn
  have formed : WellFormed store := wellFormed_run _ ops (wellFormed_new dim numCpus aligned)
  have size : store.dim = dim := dim_run _ ops
  rw [← size] at full
  have whole : 8 ∣ store.dim := by omega
  constructor
  · intro kept a aIn b bIn gap
    by_cases above : fixedScore store queryFloat b < fixedScore store queryFloat a
    · obtain ⟨top, bottom⟩ := (toFixed_lt_iff _ _ gap).mp above
      exact ⟨top, fun lowest => absurd bottom (not_lt.mpr lowest)⟩
    · have many := scores_of_gapsKept k positive shardCandidates formed full whole drawn kept a b
        aIn bIn gap (not_lt.mp above)
      constructor
      · obtain ⟨c, _, greater⟩ := List.countP_pos_iff.mp (Nat.lt_of_lt_of_le positive many)
        exact (toFixed_highest _).mp
          (lt_of_lt_of_le (of_decide_eq_true greater) (toFixed_range _).2)
      · intro lowest
        rwa [higher_of_lowest b _ (by linarith)] at many
  · intro told
    refine gapsKept_of_scores k positive shardCandidates formed full whole
      fun a aIn b bIn gap => ?_
    obtain ⟨top, rooms⟩ := told a aIn b bIn gap
    by_cases bottom : -2147483648 < innerProduct store queryFloat a * 10000000
    · exact .inl ((toFixed_lt_iff _ _ gap).mpr ⟨top, bottom⟩)
    · have lowest := not_lt.mp bottom
      rw [higher_of_lowest b _ (by linarith)]
      exact .inr (rooms lowest)

def firstUnit : List ℚ := 1 :: List.replicate 63 0

def twoAdds (x y : ℚ) : List (StoreOp ℚ) :=
  [.add (AirKey.fromBytes (ascii "a")) [1] [x], .add (AirKey.fromBytes (ascii "b")) [1] [y]]

def twoVectors (x y : ℚ) : SharedVectorStore ℚ := (new 64 4 aligned_word).run (twoAdds x y)

def bothCandidates : List (List Candidate) := [[(0, 0)], [(0, 0)], [], []]

theorem drawn_both (x y : ℚ) : Drawn (twoVectors x y) bothCandidates := by
  have one (shard : CoreShard ℚ) (single : shard.keys.length = 1) :
      ([((0 : Nat), (0 : Nat))].map Prod.snd).Nodup ∧
        ∀ candidate ∈ [((0 : Nat), (0 : Nat))], candidate.2 < shard.keys.length := by
    simp [single]
  exact .cons (one _ rfl) (.cons (one _ rfl) (.cons (by simp) (.cons (by simp) .nil)))

theorem sum_firstUnit (x : ℚ) :
    ∑ c ∈ Finset.range 64, product firstUnit (x :: List.replicate 63 0) c = x := by
  rw [Finset.sum_eq_single 0]
  · simp [product, firstUnit]
  · intro c _ nonzero
    obtain ⟨n, rfl⟩ := Nat.exists_eq_succ_of_ne_zero nonzero
    have rest : firstUnit.getD (n + 1) 0 = 0 := by
      rw [firstUnit, List.getD_cons_succ]
      grind
    rw [product, rest, zero_mul]
  · simp

theorem innerProduct_both (x y : ℚ) : innerProduct (twoVectors x y) firstUnit (0, 0) = x ∧
    innerProduct (twoVectors x y) firstUnit (1, 0) = y :=
  ⟨sum_firstUnit x, sum_firstUnit y⟩

theorem gapsKept_apart : GapsKept (twoVectors 2 (-3)) firstUnit 1 bothCandidates :=
  (gapsKept_iff 64 4 aligned_word (twoAdds 2 (-3)) firstUnit rfl 1 Nat.one_pos bothCandidates
    (drawn_both 2 (-3))).mpr fun a aIn b bIn _ => by
      have bounded (place : Nat × Nat) (member : place ∈ placesOf bothCandidates) :
          -200 < innerProduct (twoVectors 2 (-3)) firstUnit place ∧
            innerProduct (twoVectors 2 (-3)) firstUnit place < 200 := by
        obtain ⟨first, second⟩ := innerProduct_both 2 (-3)
        obtain rfl | rfl : place = (0, 0) ∨ place = (1, 0) := by
          simpa [placesOf, bothCandidates] using member
        · rw [first]
          norm_num
        · rw [second]
          norm_num
      have top := (bounded b bIn).2
      have bottom := (bounded a aIn).1
      constructor
      · change innerProduct (twoVectors 2 (-3)) firstUnit b * 10000000 < 2147483647
        linarith
      · intro lowest
        change innerProduct (twoVectors 2 (-3)) firstUnit a * 10000000 ≤ -2147483648 at lowest
        linarith

-- Two scores above the range of `i32`: the lower one is returned, alone.
theorem gapsKept_saturated : ¬∀ (dim numCpus : Nat) (aligned : dim % 64 = 0)
    (ops : List (StoreOp ℚ)) (queryFloat : List ℚ) (k : Nat)
    (shardCandidates : List (List Candidate)), queryFloat.length = dim → 0 < k →
    Drawn ((new dim numCpus aligned).run ops) shardCandidates →
    GapsKept ((new dim numCpus aligned).run ops) queryFloat k shardCandidates := by
  intro kept
  obtain ⟨final, ran, gaps⟩ := kept 64 4 aligned_word (twoAdds 400 300) firstUnit 1 bothCandidates rfl
    Nat.one_pos (drawn_both 400 300) StdChoices.lists bothCandidates (drawn_both 400 300)
    (List.Perm.refl _)
  have alone : (rerankCandidates StdChoices.lists (twoVectors 400 300) firstUnit 1
      bothCandidates).map (fun final => final.map RerankCandidate.place) = some [(1, 0)] := by
    decide +kernel
  have places : final.map RerankCandidate.place = [(1, 0)] := by
    have both := congrArg (Option.map fun final => final.map RerankCandidate.place) ran
    exact Option.some.inj (both.symm.trans alone)
  obtain ⟨higher, lower⟩ := innerProduct_both 400 300
  have gap := gaps (0, 0) (by decide) (1, 0) (by decide) (by
    change innerProduct (twoVectors 400 300) firstUnit (1, 0) + 2 / 10000000 ≤
      innerProduct (twoVectors 400 300) firstUnit (0, 0)
    rw [higher, lower]
    norm_num) (by rw [places]; exact List.mem_cons_self)
  rw [places] at gap
  exact absurd gap.length_le (by decide)

end SharedVectorStore

end OmegaDrive
