import SkynetServer.Support.Transition
import Mathlib.Data.Int.Notation

/-!
# The harbor service, `service_harbor.c`

The harbor sends the messages of its node to the services of other nodes.  A
message to a global name waits for the handle of the name, and a message to a
handle waits for the link to the harbor of the handle.

A node of the hash map that was not inserted yet is the same as one that has
neither a value nor a queue, so the map is a function.  The packages received
behind a handshake are forwarded to local services and touch nothing of what
is modelled here, except that a package which is too long closes the link.
The texts for `skynet_error` are left out.
-/

namespace SkynetServer.Harbor

open Transition

/-- The handle of a service, with the id of its harbor in the high byte. -/
abbrev Handle := BitVec 32

/-- A global name, without the zero bytes behind it. -/
abbrev Name := List UInt8

/-- `HANDLE_MASK` -/
def handleMask : Handle := 0xffffff#32

/-- `handle >> HANDLE_REMOTE_SHIFT` -/
def harborId (handle : Handle) : ℕ := (handle >>> 24).toNat

/-- `type << HANDLE_REMOTE_SHIFT` -/
def typeBits (type : BitVec 8) : BitVec 32 := type.setWidth 32 <<< 24

/-- `destination >> HANDLE_REMOTE_SHIFT`, of a header -/
def typeOf (destination : BitVec 32) : BitVec 8 :=
  (destination >>> 24).setWidth 8

/-- `struct remote_message_header` -/
structure RemoteMessageHeader where
  source : Handle
  destination : BitVec 32
  session : BitVec 32
  deriving DecidableEq, Repr

/-- `struct harbor_msg`.  The ticket is the number of the request; it is not
in the source. -/
structure HarborMsg where
  header : RemoteMessageHeader
  buffer : List UInt8
  ticket : ℕ
  deriving DecidableEq, Repr

/-- `struct keyvalue` of a name; the value 0 is no handle. -/
structure KeyValue where
  value : Handle
  queue : Option (List HarborMsg)

/-- `STATUS_WAIT`, `STATUS_HANDSHAKE` and so on. -/
inductive Status where
  | wait
  | handshake
  | header
  | content
  | down
  deriving DecidableEq, Repr

/-- `struct slave`, less what it is receiving. -/
structure Slave where
  fd : ℤ
  queue : Option (List HarborMsg)
  status : Status

/-- What the harbor sends. -/
inductive Output where
  /-- `skynet_socket_send` of a package, in `send_remote`. -/
  | remote (fd : ℤ) (m : HarborMsg)
  /-- The id of this harbor, from `handshake`. -/
  | handshake (fd : ℤ)
  /-- `skynet_send` of a message to a local service. -/
  | send (destination : Handle) (type : BitVec 8) (m : HarborMsg)
  /-- `skynet_send` of `PTYPE_ERROR` to the source of a message. -/
  | dead (destination source : Handle)
  /-- `Q name`, to the slave. -/
  | query (name : Name)
  /-- `D id`, to the slave. -/
  | down (id : ℕ)
  /-- `skynet_socket_close` -/
  | close (fd : ℤ)

/-- A message that was accepted, with the name it was sent to, if any, and
its handle, once that is known. -/
structure Request where
  source : Handle
  name : Option Name
  handle : Option Handle
  type : BitVec 8
  session : BitVec 32
  msg : List UInt8
  deriving DecidableEq, Repr

/-- A request that waits for a name gets its handle. -/
def Request.bind (name : Name) (handle : Handle) (r : Request) : Request :=
  if r.name = some name ∧ r.handle = none then
    { r with handle := some handle }
  else r

/-- `struct harbor`, with its outputs and the requests it has accepted. -/
structure State where
  id : ℕ
  slave : Handle
  map : Name → KeyValue
  s : ℕ → Slave
  out : List Output
  requests : List Request

namespace State

section Operations

variable (h : State)

def emit (os : List Output) : State := { h with out := h.out ++ os }

def setSlave (k : ℕ) (s : Slave) : State :=
  { h with s := Function.update h.s k s }

def setNode (name : Name) (node : KeyValue) : State :=
  { h with map := Function.update h.map name node }

/-- `push_queue`, to a queue that is created when there is none. -/
def pushQueue (queue : Option (List HarborMsg)) (m : HarborMsg) :
    Option (List HarborMsg) :=
  some (queue.getD [] ++ [m])

/-- `close_harbor` -/
def closeHarbor (k : ℕ) : State :=
  let s := h.s k
  let h := if s.fd ≠ 0 then h.emit [.close s.fd] else h
  h.setSlave k { s with status := .down, queue := none }

/-- `send_remote` -/
def sendRemote (fd : ℤ) (m : HarborMsg) : List Output :=
  if m.buffer.length + 12 > 0xffffffff then [] else [.remote fd m]

/-- The handle of a name is put in the destination of a message. -/
def fillHandle (handle : Handle) (m : HarborMsg) : HarborMsg :=
  { m with header :=
    { m.header with
      destination := m.header.destination ||| (handle &&& handleMask) } }

/-- `dispatch_name_queue`, for a node with the handle and the queue. -/
def dispatchNameQueue (handle : Handle) (queue : List HarborMsg) : State :=
  let k := harborId handle
  let s := h.s k
  if s.fd = 0 then
    if s.status = .down then h
    else
      let queue :=
        match s.queue with
        | none => queue
        | some q => q ++ queue
      if k = harborId h.slave then
        -- the harbor_id is local
        let h := h.emit (queue.map fun m =>
          .send handle (typeOf m.header.destination) m)
        h.setSlave k { s with queue := none }
      else h.setSlave k { s with queue := some queue }
  else
    h.emit (queue.flatMap fun m => sendRemote s.fd (fillHandle handle m))

/-- `dispatch_queue` -/
def dispatchQueue (k : ℕ) : State :=
  let s := h.s k
  match s.queue with
  | none => h
  | some queue =>
    (h.emit (queue.flatMap (sendRemote s.fd))).setSlave k
      { s with queue := none }

/-- `update_name` -/
def updateName (name : Name) (handle : Handle) : State :=
  let node := h.map name
  let h := { h with requests := h.requests.map (Request.bind name handle) }
  let h := h.setNode name ⟨handle, none⟩
  match node.queue with
  | none => h
  | some queue => h.dispatchNameQueue handle queue

/-- `remote_send_handle` -/
def remoteSendHandle (source destination : Handle) (type : BitVec 8)
    (session : BitVec 32) (msg : List UInt8) (ticket : ℕ) : State :=
  let k := harborId destination
  let header : RemoteMessageHeader :=
    ⟨source, typeBits type ||| (destination &&& handleMask), session⟩
  let m : HarborMsg := ⟨header, msg, ticket⟩
  let s := h.s k
  if k = h.id then
    -- local message
    h.emit [.send destination type m]
  else if s.fd = 0 ∨ s.status = .handshake then
    if s.status = .down then h.emit [.dead destination source]
    else h.setSlave k { s with queue := pushQueue s.queue m }
  else h.emit (sendRemote s.fd m)

/-- `remote_send_name` -/
def remoteSendName (source : Handle) (name : Name) (type : BitVec 8)
    (session : BitVec 32) (msg : List UInt8) (ticket : ℕ) : State :=
  let node := h.map name
  if node.value = 0 then
    let m : HarborMsg := ⟨⟨source, typeBits type, session⟩, msg, ticket⟩
    (h.setNode name { node with queue := pushQueue node.queue m }).emit
      [.query name]
  else h.remoteSendHandle source node.value type session msg ticket

/-- The command `S` or `A` of `harbor_command`. -/
def link (accept : Bool) (fd id : ℤ) : State :=
  if fd = 0 ∨ id ≤ 0 ∨ id ≥ 256 then h
  else
    let k := id.toNat
    if (h.s k).fd ≠ 0 then h
    else
      let h := h.emit [.handshake fd]
      if accept then
        (h.setSlave k { h.s k with fd, status := .header }).dispatchQueue k
      else h.setSlave k { h.s k with fd, status := .handshake }

/-- `harbor_id`: the slave with an fd; the search starts at 1. -/
def slaveOf (fd : ℤ) : Option ℕ :=
  ((List.range 255).map (· + 1)).find? fun k => (h.s k).fd = fd

end Operations

/-- Where `push_socket_data` is at the end of the bytes behind a handshake;
`tooLong` is a package with a length of more than three bytes. -/
inductive Received where
  | header
  | content
  | tooLong
  deriving DecidableEq, Repr

/-- The rest of `push_socket_data`, behind a handshake. -/
def receive (h : State) (k : ℕ) : Received → State
  | .header => h.setSlave k { h.s k with status := .header }
  | .content => h.setSlave k { h.s k with status := .content }
  | .tooLong => h.closeHarbor k

/-- `push_socket_data` of bytes which start with `first`. -/
def pushSocketData (h : State) (fd : ℤ) (first : UInt8)
    (received : Received) : State :=
  match h.slaveOf fd with
  | none => h
  | some k =>
    match (h.s k).status with
    | .handshake =>
      -- check id
      if first.toNat ≠ k then h.closeHarbor k
      else
        let h := h.setSlave k { h.s k with status := .header }
        (h.dispatchQueue k).receive k received
    | .header | .content => h.receive k received
    | .wait | .down => h

/-- A message to the harbor. -/
inductive Label where
  /-- `PTYPE_SYSTEM`: a message to a handle or, if that is 0, to a name. -/
  | system (source handle : Handle) (name : Name) (type : BitVec 8)
      (session : BitVec 32) (msg : List UInt8)
  /-- `N name`; the source of the command is the handle. -/
  | name (name : Name) (handle : Handle)
  /-- `S fd id`, or `A fd id` -/
  | link (accept : Bool) (fd id : ℤ)
  /-- Data of a socket. -/
  | data (fd : ℤ) (first : UInt8) (received : Received)
  /-- The end of a socket. -/
  | close (fd : ℤ)

/-- The request of a message. -/
def request (h : State) (source handle : Handle) (name : Name)
    (type : BitVec 8) (session : BitVec 32) (msg : List UInt8) : Request where
  source := source
  name := if handle = 0 then some name else none
  handle :=
    if handle ≠ 0 then some handle
    else if (h.map name).value ≠ 0 then some (h.map name).value
    else none
  type := type
  session := session
  msg := msg

/-- `mainloop`.  A service has a handle that is not 0, so such a handle has
no name. -/
def step (h : State) : Label → Outcome Empty State
  | .system source handle name type session msg =>
    let ticket := h.requests.length
    let r := h.request source handle name type session msg
    let h := { h with requests := h.requests ++ [r] }
    if handle = 0 then
      .next (h.remoteSendName source name type session msg ticket)
    else .next (h.remoteSendHandle source handle type session msg ticket)
  | .name name handle =>
    if handle = 0 then .blocked
    else if name.length = 0 ∨ name.length ≥ 16 then .next h
    else .next (h.updateName name handle)
  | .link accept fd id => .next (h.link accept fd id)
  | .data fd first received => .next (h.pushSocketData fd first received)
  | .close fd =>
    match h.slaveOf fd with
    | some k => .next (h.emit [.down k])
    | none => .next h

/-- `harbor_init`.  The slave service is on this node. -/
def init (slave : Handle) : State where
  id := harborId slave
  slave := slave
  map := fun _ => ⟨0, none⟩
  s := fun _ => ⟨0, none, .wait⟩
  out := []
  requests := []

end State

end SkynetServer.Harbor
