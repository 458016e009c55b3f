import OmegaDrive.Connection.ReadBack
import OmegaDrive.Connection.Replies
import OmegaDrive.Connection.Socket
import OmegaDrive.Connection.Vectors

set_option autoImplicit false

namespace OmegaDrive

open RespValue

structure View (F : Type) where
  plain : PlainStore
  codec : Bytes → Codec
  vectors : SharedVectorStore F

section View

variable {F : Type}

def View.new (numCpus : Nat) : View F where
  plain := PlainStore.empty
  codec _ := .cascade
  vectors := (Server.new numCpus).vectorDb

/-- SET writes with one codec, MSET with the other. -/
def Request.codecs (codec : Bytes → Codec) : Request F → Bytes → Codec
  | .command (.set key _) _ => Function.update codec key.bytes .cascade
  | .mset batch => batch.foldl (fun codec pair => Function.update codec pair.1 .raw) codec
  | _ => codec

def View.present (view : View F) (key : Bytes) : Int := if (view.plain key).isSome then 1 else 0

variable [FloatArith F]

def View.apply (view : View F) (request : Request F) : View F where
  plain := view.plain.writeAll request.writes
  codec := request.codecs view.codec
  vectors := view.vectors.run request.vectorOps

theorem Holds.imp {model : McnnModel} {content other : Bytes → HashFields → Prop} {db : Db}
    {plain : PlainStore} (held : Holds model content db plain)
    (weaker : ∀ buf fields, content buf fields → other buf fields) : Holds model other db plain where
  absent := held.absent
  string := held.string
  hash key fields stored := by
    obtain ⟨buf, entry, same⟩ := held.hash key fields stored
    exact ⟨buf, entry, weaker buf fields same⟩

end View

namespace Connection

variable {F : Type} [FloatText F] [FloatArith F]

def Parsed (conn : Connection F) : Prop := ∀ request ∈ conn.requests, request.Sized

end Connection

end OmegaDrive
