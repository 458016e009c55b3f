import OmegaDrive.Connection.Loop

set_option autoImplicit false

namespace OmegaDrive

variable {F : Type}

structure Socket (F : Type) where
  conn : Connection F
  writeBuffer : Bytes
  written : Bytes

namespace Socket

def new (server : Server F) : Socket F := ⟨.new server, [], []⟩

def flush (socket : Socket F) : Socket F :=
  { socket with writeBuffer := [], written := socket.written ++ socket.writeBuffer }

section Loop

variable [FloatArith F]

/-- A handler that panics takes the write buffer with it. -/
def step (env : Env) (socket : Socket F) (item : Option (Request F)) (used : Nat) :
    Socket F ⊕ Socket F :=
  match socket.conn.step env item used with
  | .inl conn =>
    let reply := conn.appended.drop socket.conn.appended.length
    let socket := { socket with conn, writeBuffer := socket.writeBuffer ++ reply }
    .inl (if 524288 < socket.writeBuffer.length then socket.flush else socket)
  | .inr conn => .inr { socket with conn }

-- What the commands of one read have appended is written behind the last of them.
def receive [FloatText F] (env : Env) (progress : Incremental.Progress (Socket F) Byte)
    (chunk : Bytes) : Incremental.Progress (Socket F) Byte :=
  match Incremental.receive next (step env) progress chunk with
  | .waiting socket rest => .waiting socket.flush rest
  | .ended socket => .ended socket

def Accounted (socket : Socket F) : Prop :=
  socket.written ++ socket.writeBuffer = socket.conn.appended

def Drained (socket : Socket F) : Prop := socket.Accounted ∧ socket.writeBuffer = []

omit [FloatArith F] in
theorem Accounted.flush {socket : Socket F} (accounted : socket.Accounted) :
    socket.flush.Drained := by
  refine ⟨?_, rfl⟩
  rw [Accounted, Socket.flush, List.append_nil]
  exact accounted

omit [FloatArith F] in
theorem Drained.written {socket : Socket F} (drained : socket.Drained) :
    socket.written = socket.conn.appended := by
  rw [← drained.1, drained.2, List.append_nil]

end Loop

end Socket

end OmegaDrive
