import OmegaDrive.Connection.ReadBack
import OmegaDrive.Connection.Replies

set_option autoImplicit false

namespace OmegaDrive

namespace Server

variable {F : Type} [FloatArith F]

/-- MGET answers with one element for each key, in the order of the keys, and the element is nil
when the key holds no string. -/
def MGetAnswers (env : Env) (server : Server F) (plain : PlainStore) (keys : List Bytes) : Prop :=
  ∃ element : Bytes → RespValue,
    (server.handle env (.mget keys)).2 = some (RespValue.array (keys.map element)).text ∧
      ∀ key ∈ keys, element key = .null ↔ ∀ value, plain key ≠ some (.str value)

theorem mgetAnswers_nonempty (env : Env) (server : Server F) (plain : PlainStore)
    {content : Bytes → HashFields → Prop} (held : Holds env.model content server.db plain)
    (keys : List Bytes) :
    MGetAnswers env server plain keys ↔ ∀ key ∈ keys, plain key ≠ some (.str []) := by
  obtain ⟨element, null, written⟩ := mgetReply_value env server plain held
  constructor
  · rintro ⟨other, replied, missing⟩ key member empty
    -- The reply can be read in one way only, so its elements are the code's own.
    have same := RespValue.text_unique _ _ ((written keys).symm.trans (Option.some.inj replied))
    have equal : element key = other key :=
      List.map_inj_left.mp (RespValue.array.inj same) key member
    have nil : element key = .null := by
      apply (null key).mpr
      intro s stored
      rw [empty] at stored
      cases stored
      rfl
    exact (missing key member).mp (equal ▸ nil) [] empty
  · intro nonempty
    refine ⟨element, congrArg some (written keys), fun key member => ?_⟩
    rw [null]
    constructor
    · intro onlyEmpty value stored
      obtain rfl := onlyEmpty value stored
      exact nonempty key member stored
    · intro nothing s stored
      exact absurd stored (nothing s)

theorem mgetAnswers_iff (env : Env) (numCpus : Nat) (requests : List (Request F))
    (keys : List Bytes) :
    MGetAnswers env ((Server.new numCpus).run env requests)
        (Request.plainRun PlainStore.empty requests) keys ↔
      ∀ key ∈ keys, Request.plainRun PlainStore.empty requests key ≠ some (.str []) :=
  mgetAnswers_nonempty env _ _ (strings_run env numCpus requests) keys

-- SET k "" and MGET k: the reply is the one for a key that was never written.
theorem mget_empty_string :
    ¬∀ (env : Env) (numCpus : Nat) (requests : List (Request Int)) (keys : List Bytes),
      MGetAnswers env ((Server.new numCpus).run env requests)
        (Request.plainRun PlainStore.empty requests) keys := by
  intro answers
  have written := strings_run (F := Int) (constantEnv 0) 4 [.set ⟨ascii "k", validUtf8_k⟩ []]
  have nonempty := (mgetAnswers_nonempty _ _ _ written [ascii "k"]).mp (answers _ _ _ _)
  exact nonempty (ascii "k") List.mem_cons_self rfl

end Server

end OmegaDrive
