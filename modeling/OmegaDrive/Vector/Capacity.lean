import OmegaDrive.Vector.Search
import Mathlib.Order.MinMax

set_option autoImplicit false

namespace OmegaDrive

open OptionLoop

-- `with_capacity(k + 1)` is granted to items of so many bytes. In a release build `k + 1` wraps.
def Reserves (size k : Nat) : Prop := size * ((k + 1) % 2 ^ 64) < 2 ^ 63

instance (size k : Nat) : Decidable (Reserves size k) := Nat.decLt _ _

theorem Reserves.smaller {k : Nat} (room : Reserves 24 k) : Reserves 16 k := by
  unfold Reserves at *
  omega

theorem reserves_of_lt {size k : Nat} (room : size * (k + 1) < 2 ^ 63) : Reserves size k :=
  Nat.lt_of_le_of_lt (Nat.mul_le_mul_left size (Nat.mod_le _ _)) room

theorem reserves_max {r k : Nat} (few : r < 2 ^ 58) (room : Reserves 24 k) :
    Reserves 16 (max r k) := by
  rcases max_choice r k with budget | budget
  · rw [budget]
    exact reserves_of_lt (by omega)
  · rw [budget]
    exact room.smaller

namespace SharedVectorStore

variable {F : Type} (std : StdChoices)

/-- The heaps of `search_reranked` are granted, those of the coarse stage and the others. -/
structure Reserved (store : SharedVectorStore F) (k : Nat) : Prop where
  heaps : Reserves 24 k
  coarse : Reserves 16 (store.rPerShard k)

theorem reserved_of_heaps (store : SharedVectorStore F) (k : Nat) (few : store.len < 2 ^ 64)
    (room : Reserves 24 k) : Reserved store k := by
  have below := Nat.div_le_self (min (max (store.len / 500) 1000) store.len) store.shards.length
  exact ⟨room, reserves_max (by omega) room⟩

section Granted

variable {k : Nat}

theorem scanShard_room (numBlocks : Nat) (query : List Word) (room : Reserves 16 k) :
    (scanShard std numBlocks query k : CoreShard F → Option (List Candidate)) =
      scanReserved std numBlocks query k := by
  funext shard
  rw [scanShard, (std.heap Candidate.order).withCapacity_room room]
  rfl

theorem rerankShard_room [FloatArith F] (dim : Nat) (queryFloat : List F) (room : Reserves 24 k) :
    rerankShard std dim queryFloat k = rerankReserved std dim queryFloat k := by
  funext shard candidates
  rw [rerankShard, (std.heap RerankCandidate.order).withCapacity_room room]
  rfl

end Granted

section Refused

variable (store : SharedVectorStore F) (k : Nat)

theorem search_refused (query : List Word) (beyond : ¬ Reserves 24 k) :
    store.search std query k = none := by
  simp only [search, (std.heap Located.order).withCapacity_over beyond]
  cases store.shards.mapM (scanShard std store.numBlocks query k) <;> rfl

theorem searchReranked_refused [FloatArith F] (queryBin : List Word) (queryFloat : List F)
    (stored : store.len ≠ 0) (beyond : ¬ Reserved store k) :
    store.searchReranked std queryBin queryFloat k = none := by
  rw [searchReranked, if_neg stored]
  by_cases coarse : Reserves 16 (store.rPerShard k)
  · have heaps : ¬ Reserves 24 k := fun room => beyond ⟨room, coarse⟩
    simp only [(std.heap RerankCandidate.order).withCapacity_over heaps]
    cases store.shards.mapM (scanShard std store.numBlocks queryBin (store.rPerShard k)) with
    | none => rfl
    | some shardCandidates =>
      simp only [Option.bind_eq_bind, Option.bind_some, Option.bind_none]
      exact Option.bind_fun_none _
  · obtain ⟨shard, rest, shards⟩ := List.exists_cons_of_ne_nil (l := store.shards) (by
      intro nothing
      simp [len, nothing] at stored)
    have scanned := mapM_none (scanShard std store.numBlocks queryBin (store.rPerShard k))
      store.shards shard (by simp [shards]) (by
        rw [scanShard, (std.heap Candidate.order).withCapacity_over coarse]
        rfl)
    rw [scanned]
    rfl

end Refused

end SharedVectorStore

end OmegaDrive
