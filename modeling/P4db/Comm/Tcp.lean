import P4db.Algorithm.Pieces
import P4db.Algorithm.Transition

/-!
# Receiving packets

`TCPCommunicator::receive` of `comm/tcp.cpp`, and the loop of the thread that calls it and hands
over the packets.

One step is one call of `recv`, with what it returned.  When the bytes end at the border of a
message, the step goes on with the rest of `receive`: the messages are copied into the buffers,
`realloc_bufs` allocates new ones, the handler gets the packets, and the next `receive` starts.

Buffers are named by addresses, and `malloc` returns addresses that were not returned before.
`none` is an access to a buffer that does not exist.  Time stamps and counters are left out.
-/

namespace P4db

/-- `MSG_SIZE`. -/
def msgSize : ℕ := 72

/-- `N_RECV_BUFFERS`. -/
def nRecvBuffers : ℕ := 10

/-- What `recv` returned: an error, or some bytes. -/
inductive RecvResult
  | error
  | bytes (chunk : List UInt8)
  deriving DecidableEq, Repr

namespace RecvResult

/-- The bytes that were written. -/
def chunk : RecvResult → List UInt8
  | error => []
  | bytes chunk => chunk

/-- What `recv` can return when it was asked for `size` bytes. -/
def Fits (size : ℕ) : RecvResult → Prop
  | error => True
  | bytes chunk => 1 ≤ chunk.length ∧ chunk.length ≤ size

instance (size : ℕ) : (r : RecvResult) → Decidable (r.Fits size)
  | error => isTrue trivial
  | bytes chunk => inferInstanceAs (Decidable (1 ≤ chunk.length ∧ chunk.length ≤ size))

end RecvResult

/-- `TCPCommunicator` and the variables of the receiving thread: the memory of the buffers, the next
address that `malloc` returns, and the first `len` bytes of `buf`.  The last field records the
packets that the handler got, with what was in them. -/
structure TcpCommunicator where
  memory : ℕ → List UInt8
  nextBuffer : ℕ
  recvBuffers : List ℕ
  buf : List UInt8
  handled : List (List UInt8)

namespace TcpCommunicator

variable (c : TcpCommunicator)

/-- `realloc_bufs`. -/
def reallocBufs : TcpCommunicator :=
  { c with
    recvBuffers := (List.range nRecvBuffers).map (c.nextBuffer + ·)
    nextBuffer := c.nextBuffer + nRecvBuffers }

/-- The communicator after the constructor, at the start of the first `receive`. -/
def init (memory : ℕ → List UInt8) : TcpCommunicator := reallocBufs ⟨memory, 0, [], [], []⟩

/-- The size that `recv` is called with. -/
def request : ℕ := nRecvBuffers * msgSize - c.buf.length

/-- One iteration of the loop that copies messages into buffers. -/
def copyMsg (st : (ℕ → List UInt8) × List ℕ) (i : ℕ) : Option ((ℕ → List UInt8) × List ℕ) := do
  let addr ← c.recvBuffers[i]?
  some (Function.update st.1 addr (Pieces.piece msgSize c.buf i), st.2 ++ [addr])

/-- The rest of `receive` after the loop, and the calls of the handler. -/
def finish : Option TcpCommunicator := do
  let st ← (List.range (c.buf.length / msgSize)).foldlM c.copyMsg (c.memory, [])
  some { reallocBufs { c with memory := st.1 } with
    buf := [], handled := c.handled ++ st.2.map st.1 }

/-- One iteration of the loop in `receive`. -/
def recv : RecvResult → Option TcpCommunicator
  | .error => some c
  | .bytes chunk =>
    let c := { c with buf := c.buf ++ chunk }
    if c.buf.length % msgSize = 0 then c.finish else some c

end TcpCommunicator

end P4db
