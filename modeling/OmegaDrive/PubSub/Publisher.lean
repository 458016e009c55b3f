import OmegaDrive.Connection.Conversation
import OmegaDrive.PubSub.StressTest
import OmegaDrive.PubSub.System

set_option autoImplicit false

namespace OmegaDrive

namespace WsBench

open Cursor

section Stream

variable {F : Type} [FloatText F]

variable [FloatArith F]

end Stream

end WsBench

namespace Process

variable {ι F : Type} [DecidableEq ι] [FloatArith F]

end Process

namespace WsBench

section Stamps

variable {ι F : Type} [DecidableEq ι] [FloatText F] [FloatArith F]

end Stamps

end WsBench

end OmegaDrive
