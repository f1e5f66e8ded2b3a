import Mathlib.Data.Int.Notation
import Mathlib.Data.Nat.Notation

/-!
# The slots of the socket server

`struct socket` of `socket_server.c`, its send lists and the tests that several
functions make on it.  A send list is the list of its nodes.  The kernel keeps
two things for a slot: whether its fd is in the poll set, with or without
write interest, and the bytes written to its fd.

Packages are plain buffers (`sz >= 0`).  A package carries the worker that
sent it, so that the orders of sending and of arrival can be compared.
-/

namespace SkynetServer.SocketServer

/-- The `int` by which a socket is known to the services. -/
abbrev Id := BitVec 32

/-- `MAX_SOCKET` -/
def maxSocket : ℕ := 65536

/-- `HASH_ID` -/
def hashId (id : Id) : ℕ := id.toNat % 65536

/-- `ID_TAG16` -/
def idTag16 (id : Id) : ℕ := id.toNat / 65536 % 65536

/-- `SOCKET_TYPE_*` -/
inductive SocketType where
  | invalid
  | reserve
  | plisten
  | listen
  | connecting
  | connected
  | halfclose
  | paccept
  | bind
  deriving DecidableEq, Repr

/-- `PROTOCOL_*` -/
inductive Protocol where
  | tcp
  | udp
  | udpv6
  | unknown
  deriving DecidableEq, Repr

/-- The byte that stands for the protocol. -/
def Protocol.code : Protocol → UInt8
  | .tcp => 0
  | .udp => 1
  | .udpv6 => 2
  | .unknown => 255

/-- `uint8_t udp_address[UDP_ADDRESS_SIZE]`: the type, then port and ip. -/
structure Address where
  type : UInt8
  rest : List UInt8
  deriving DecidableEq, Repr

/-- Which function a package was sent with. -/
inductive SendKind where
  /-- `socket_server_send` -/
  | send
  /-- `socket_server_send_lowpriority` -/
  | lowpriority
  /-- `socket_server_udp_send` -/
  | udp (address : Address)
  deriving DecidableEq, Repr

def SendKind.address : SendKind → Option Address
  | .udp a => some a
  | _ => none

/-- A buffer handed to one of the send functions by the worker `sender`. -/
structure Package (τ : Type*) where
  sender : τ
  kind : SendKind
  data : List UInt8
  deriving DecidableEq, Repr

/-- `struct write_buffer`; `offset` is `ptr - buffer`.  A node of
`SIZEOF_TCPBUFFER` has no address. -/
structure WriteBuffer (τ : Type*) where
  package : Package τ
  offset : ℕ
  address : Option Address
  deriving DecidableEq, Repr

/-- `wb->sz`: the bytes still to send. -/
def WriteBuffer.sz {τ : Type*} (b : WriteBuffer τ) : ℕ :=
  b.package.data.length - b.offset

/-- `struct socket`, with what the kernel knows about its fd. -/
structure Socket (τ : Type*) where
  id : Id := 0
  type : SocketType := .invalid
  protocol : Protocol := .tcp
  sending : ℕ := 0
  high : List (WriteBuffer τ) := []
  low : List (WriteBuffer τ) := []
  wbSize : ℤ := 0
  warnSize : ℤ := 0
  udpconnecting : ℕ := 0
  /-- `p.udp_address` -/
  peer : Address := ⟨0, []⟩
  /-- `dw_lock` -/
  lock : Bool := false
  /-- `dw_buffer`, with `dw_size` and `dw_offset`. -/
  dw : Option (WriteBuffer τ) := none
  /-- Membership in the poll set, with the write interest. -/
  poll : Option Bool := none
  /-- The bytes written to the fd so far. -/
  wire : List UInt8 := []
  /-- The packages accepted for the socket so far. -/
  accepted : List (Package τ) := []

/-- A test of `can_direct_write`, each of which reads one field. -/
inductive Test where
  | id
  | high
  | low
  | dw
  | sending
  | type
  | udpconnecting
  deriving DecidableEq, Repr

/-- The test that `can_direct_write` makes next. -/
def Test.next : Test → Option Test
  | .id => some .high
  | .high => some .low
  | .low => some .dw
  | .dw => some .sending
  | .sending => some .type
  | .type => some .udpconnecting
  | .udpconnecting => none

/-- A test of `nomore_sending_data`. -/
inductive DataTest where
  | high
  | low
  | dw
  | sending
  deriving DecidableEq, Repr

/-- The test that `nomore_sending_data` makes next. -/
def DataTest.next : DataTest → Option DataTest
  | .high => some .low
  | .low => some .dw
  | .dw => some .sending
  | .sending => none

/-- `WARNING_SIZE` -/
def warningSize : ℤ := 1024 * 1024

namespace Socket

variable {τ : Type*}

/-- The outcome of one test of `can_direct_write(s, id)`. -/
def passes (k : Socket τ) (id : Id) : Test → Bool
  | .id => k.id = id
  | .high => k.high.isEmpty
  | .low => k.low.isEmpty
  | .dw => k.dw.isNone
  | .sending => k.sending % 65536 = 0
  | .type => k.type = .connected
  | .udpconnecting => k.udpconnecting = 0

/-- The outcome of one test of `nomore_sending_data`. -/
def noData (k : Socket τ) : DataTest → Bool
  | .high => k.high.isEmpty
  | .low => k.low.isEmpty
  | .dw => k.dw.isNone
  | .sending => k.sending % 65536 = 0

/-- `send_buffer_empty` -/
def sendBufferEmpty (k : Socket τ) : Bool := k.high.isEmpty && k.low.isEmpty

/-- `nomore_sending_data` -/
def nomoreSendingData (k : Socket τ) : Bool :=
  k.sendBufferEmpty && k.dw.isNone && k.sending % 65536 = 0

/-- `can_direct_write` -/
def canDirectWrite (k : Socket τ) (id : Id) : Bool :=
  k.id = id && k.nomoreSendingData && k.type = .connected &&
    k.udpconnecting = 0

/-- `udp_socket_address(...) != 0` -/
def udpSocketAddress (k : Socket τ) (a : Address) : Bool :=
  a.type = k.protocol.code && (k.protocol = .udp || k.protocol = .udpv6)

/-- `sp_write`, which changes nothing unless the fd is in the poll set. -/
def spWrite (k : Socket τ) (enable : Bool) : Socket τ :=
  { k with poll := k.poll.map fun _ => enable }

/-- `append_sendbuffer`, `append_sendbuffer_low` and `append_sendbuffer_udp` -/
def append (k : Socket τ) (low : Bool) (b : WriteBuffer τ) : Socket τ :=
  if low then
    { k with low := k.low ++ [b], wbSize := k.wbSize + b.sz }
  else
    { k with high := k.high ++ [b], wbSize := k.wbSize + b.sz }

/-- Whether `send_socket` reports a long send list. -/
def warns (k : Socket τ) : Bool :=
  k.wbSize ≥ warningSize && k.wbSize ≥ k.warnSize

/-- The end of `send_socket`. -/
def warn (k : Socket τ) : Socket τ :=
  if k.warns then
    { k with
      warnSize := if k.warnSize = 0 then warningSize * 2 else k.warnSize * 2 }
  else k

/-- `wb_size` in kilobytes, rounded up. -/
def kilobytes (k : Socket τ) : ℤ :=
  if k.wbSize % 1024 = 0 then k.wbSize / 1024 else k.wbSize / 1024 + 1

/-- The bytes of a direct write that are left become the first node of the
high list. -/
def takeDw (k : Socket τ) : Socket τ :=
  match k.dw with
  | none => k
  | some b =>
    { k with high := b :: k.high, wbSize := k.wbSize + b.sz, dw := none }

/-- `list_uncomplete(&s->low)` -/
def lowUncomplete (k : Socket τ) : Bool :=
  match k.low with
  | [] => false
  | b :: _ => b.offset ≠ 0

/-- The send list with the given priority. -/
def list (k : Socket τ) (low : Bool) : List (WriteBuffer τ) :=
  if low then k.low else k.high

/-- Store the nodes of a send list, after `n` bytes have left it. -/
def setList (k : Socket τ) (low : Bool) (l : List (WriteBuffer τ)) (n : ℕ) :
    Socket τ :=
  if low then { k with low := l, wbSize := k.wbSize - n }
  else { k with high := l, wbSize := k.wbSize - n }

/-- `new_fd` after `sp_add`.  The store of `p.size = MIN_READ_BUFFER` goes to
the first bytes of `p.udp_address`. -/
def newFd (k : Socket τ) (id : Id) (protocol : Protocol) (add : Bool) :
    Socket τ :=
  { k with
    id
    protocol
    sending := idTag16 id * 65536
    wbSize := 0
    warnSize := 0
    peer := ⟨64, []⟩
    dw := none
    poll := if add then some false else k.poll
    wire := []
    accepted := [] }

end Socket

end SkynetServer.SocketServer
