import OmegaDrive.Connection.Logged
import OmegaDrive.Vector.Quantize

set_option autoImplicit false

namespace OmegaDrive

namespace Request

variable {F : Type}

/-- VADD quantizes the floats it stores. -/
def vectorOps : Request F → List (StoreOp F)
  | .command (.vAdd key floats) _ => [.add (AirKey.fromBytes key.bytes) floats floats]
  | .command .flushDb _ => [.clear]
  | _ => []

def vectors (requests : List (Request F)) : List (Added F) :=
  SharedVectorStore.added (requests.flatMap vectorOps)

theorem length_vectors_le (requests : List (Request F)) :
    (vectors requests).length ≤ requests.length := by
  have each (request : Request F) : request.vectorOps.length ≤ 1 := by
    cases request with
    | mset batch => exact Nat.zero_le _
    | mget keys => exact Nat.zero_le _
    | command command whole => cases command <;> simp [vectorOps]
  have ops : (requests.flatMap vectorOps).length ≤ requests.length := by
    induction requests with
    | nil => exact Nat.le_refl _
    | cons request requests ih =>
      have first := each request
      rw [List.flatMap_cons, List.length_append, List.length_cons]
      omega
  exact Nat.le_trans (SharedVectorStore.length_added_le _) ops

def vAdd (key : Str) (floats : List F) : Request F := .command (.vAdd key floats) rfl

end Request

namespace Server

variable {F : Type} [FloatArith F]

theorem vectorOps_sent (request : Request F) (store : SharedVectorStore F) :
    request.sent.foldl vectorStep store = store.run request.vectorOps := by
  cases request with
  | mset batch => exact vectors_msets store batch
  | mget keys => rfl
  | command command whole => cases command <;> rfl

theorem vectorDb_ops (env : Env) (server : Server F) (requests : List (Request F)) :
    (server.run env requests).vectorDb =
      server.vectorDb.run (requests.flatMap Request.vectorOps) := by
  induction requests generalizing server with
  | nil => rfl
  | cons request requests ih =>
    have step := ih (server.handle env request).1
    rw [vectorDb_handle, vectorOps_sent] at step
    rw [List.flatMap_cons, SharedVectorStore.run, List.foldl_append]
    exact step

theorem placed_requests (env : Env) (dim numCpus : Nat) (aligned : dim % 64 = 0) (first : Server F)
    (fresh : first.vectorDb = .new dim numCpus aligned) (requests : List (Request F)) :
    SharedVectorStore.Placed (max numCpus 4) dim (first.run env requests).vectorDb
      (Request.vectors requests) := by
  rw [vectorDb_ops, fresh, SharedVectorStore.new_eq]
  exact SharedVectorStore.placed_run _ dim _

omit [FloatArith F] in
theorem vectors_own (requests : List (Request F)) (vector : Added F)
    (member : vector ∈ Request.vectors requests) : vector.quantized = vector.floats := by
  obtain ⟨request, _, sent⟩ := List.mem_flatMap.mp (SharedVectorStore.mem_added _ _ member)
  cases request with
  | mset batch => cases sent
  | mget keys => cases sent
  | command command whole =>
    cases command with
    | vAdd key floats =>
      have same := List.mem_singleton.mp sent
      injection same with _ quantized stored
      rw [quantized, stored]
    | flushDb => cases List.mem_singleton.mp sent
    | _ => cases sent

theorem bitsAgree_run (env : Env) (dim numCpus : Nat) (aligned : dim % 64 = 0) (first : Server F)
    (fresh : first.vectorDb = .new dim numCpus aligned)
    (nonneg : FloatArith.isNonneg (FloatArith.zero : F) = true) (requests : List (Request F)) :
    (first.run env requests).vectorDb.BitsAgree ↔
      ∀ vector ∈ Request.vectors requests, dim ≤ vector.floats.length :=
  SharedVectorStore.bitsAgree_placed _ dim (by omega) aligned nonneg _ _
    (placed_requests env dim numCpus aligned first fresh requests) (vectors_own requests)

-- A vector of both signs and one with a coordinate too many.
theorem bitsAgree_run_full :
    let first : Server Int := { Server.new 4 with vectorDb := .new 64 4 rfl }
    (first.run (constantEnv 0)
      [.vAdd ⟨ascii "k", validUtf8_k⟩ (List.replicate 32 5 ++ List.replicate 32 (-1)),
        .vAdd ⟨ascii "k", validUtf8_k⟩ (-3 :: List.replicate 64 2)]).vectorDb.BitsAgree :=
  (bitsAgree_run (constantEnv 0) 64 4 rfl { Server.new 4 with vectorDb := .new 64 4 rfl } rfl rfl
    _).mpr (by
      intro vector member
      rcases List.mem_cons.mp member with rfl | later
      · decide
      · rw [List.mem_singleton.mp later]
        decide)

-- A vector of one coordinate: the padding is stored as zeros whose bits are not set.
theorem bits_disagree_short :
    ¬∀ (env : Env) (numCpus : Nat) (requests : List (Request Int)),
      ((Server.new numCpus).run env requests).vectorDb.BitsAgree := by
  intro agree
  have placed := placed_requests (constantEnv 0) 1536 4 rfl (Server.new 4) rfl
    [.vAdd ⟨ascii "k", validUtf8_k⟩ [(1 : Int)]]
  have long := (SharedVectorStore.bitsAgree_placed _ 1536 (by decide) rfl rfl _ _ placed
    (vectors_own _)).mp (agree _ _ _)
  have short := long ⟨AirKey.fromBytes (ascii "k"), [1], [1]⟩ List.mem_cons_self
  exact absurd short (by decide)

end Server

end OmegaDrive
