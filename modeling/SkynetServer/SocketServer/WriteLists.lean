import SkynetServer.SocketServer.Server
import SkynetServer.Support.Chains

/-!
# The send lists in memory

The functions of `socket_server.c` that work on the send lists of a socket, on
the lists as they lie in memory: a list is a pair of pointers, and its nodes
are allocated, linked and freed one by one.  A function returns the socket and
its result, or faults: an assertion fails, or a pointer is followed that is
null or whose node has been freed.

The functions belong to the socket thread, and no other thread uses the lists.
A worker takes and releases `dw_lock`, leaves the rest of a direct write in
`dw_buffer`, and counts the commands it sends in `sending`.

What the kernel returns is given by a list of `Act`s, one for each call of
`write` or `sendto`.  `malloc` returns any address that is not in use.
-/

namespace SkynetServer.SocketServer

open Transition Chains

variable {τ : Type*}

/-- A failed assertion, or a wrong pointer. -/
inductive ListFault where
  /-- A pointer is null, or its node has been freed. -/
  | dangling
  /-- `assert(!list_uncomplete(&s->low))` -/
  | lowUncomplete
  /-- `assert(high->head == NULL)` of `raise_uncomplete` -/
  | highInUse
  /-- `assert(send_buffer_empty(s) && s->wb_size == 0)` -/
  | unsentData
  /-- `assert(s->tail != NULL)` -/
  | noTail
  /-- `assert(s->tail->next == NULL)` -/
  | tailLinked
  /-- `assert(s->type != SOCKET_TYPE_RESERVE)` of `force_close` -/
  | closeReserved
  deriving DecidableEq, Repr

/-- `struct socket`, and the heap with the nodes of its send lists. -/
structure RawSocket (τ : Type*) where
  heap : Heap (WriteBuffer τ)
  id : Id
  type : SocketType
  protocol : Protocol
  sending : ℕ
  high : Ends
  low : Ends
  wbSize : ℤ
  warnSize : ℤ
  /-- `p.udp_address` -/
  peer : Address
  /-- `dw_lock` is held by a worker. -/
  lock : Bool
  /-- `dw_buffer`, with `dw_size` and `dw_offset`. -/
  dw : Option (WriteBuffer τ)
  /-- Membership in the poll set, with the write interest. -/
  poll : Option Bool

/-- The node at an address. -/
def fetch (h : Heap (WriteBuffer τ)) (a : ℕ) :
    Outcome ListFault (Node (WriteBuffer τ)) :=
  match h.lookup a with
  | some n => .next n
  | none => .fault .dangling

/-- The nodes from `p` on are freed, as in `free_wb_list`. -/
def freeFrom (h : Heap (WriteBuffer τ)) (p : Option ℕ) :
    Outcome ListFault (Heap (WriteBuffer τ)) :=
  match p with
  | none => .next h
  | some a =>
    if ha : a ∈ h then
      match h.lookup a with
      | some n => freeFrom (h.erase a) n.next
      | none => .fault .dangling
    else .fault .dangling
termination_by h.keys.length
decreasing_by
  rw [AList.keys_erase, List.length_erase_of_mem (AList.mem_keys.mp ha)]
  exact Nat.sub_lt (List.length_pos_of_mem (AList.mem_keys.mp ha)) Nat.one_pos

/-- `list_uncomplete` -/
def listUncomplete (h : Heap (WriteBuffer τ)) (e : Ends) :
    Outcome ListFault Bool :=
  match e.head with
  | none => .next false
  | some a => (fetch h a).bind fun n => .next (n.value.offset ≠ 0)

/-- `append_sendbuffer_`, with the new node at `a`. -/
def appendSendbuffer_ (h : Heap (WriteBuffer τ)) (e : Ends) (a : ℕ)
    (b : WriteBuffer τ) : Outcome ListFault (Heap (WriteBuffer τ) × Ends) :=
  if a ∈ h then .blocked
  else
    let h := h.insert a ⟨b, none⟩
    match e.head with
    | none => .next (h, ⟨some a, some a⟩)
    | some _ =>
      match e.tail with
      | none => .fault .noTail
      | some t =>
        (fetch h t).bind fun n =>
          if n.next ≠ none then .fault .tailLinked
          else .next (h.insert t ⟨n.value, some a⟩, { e with tail := some a })

namespace RawSocket

section Functions

variable (m : RawSocket τ)

/-- The send list with the given priority. -/
def list (low : Bool) : Ends := if low then m.low else m.high

def setList (low : Bool) (e : Ends) : RawSocket τ :=
  if low then { m with low := e } else { m with high := e }

/-- `send_buffer_empty` -/
def sendBufferEmpty : Bool := m.high.head.isNone && m.low.head.isNone

/-- `nomore_sending_data` -/
def nomoreSendingData : Bool :=
  m.sendBufferEmpty && m.dw.isNone && m.sending % 65536 = 0

/-- `udp_socket_address(...) != 0` -/
def udpSocketAddress (a : Address) : Bool :=
  a.type = m.protocol.code && (m.protocol = .udp || m.protocol = .udpv6)

/-- `sp_write` -/
def spWrite (enable : Bool) : RawSocket τ :=
  { m with poll := m.poll.map fun _ => enable }

/-- `force_close`; `held` if the caller holds `dw_lock`. -/
def forceClose (held : Bool) : Outcome ListFault (RawSocket τ) :=
  if m.type = .invalid then .next m
  else if m.type = .reserve then .fault .closeReserved
  else
    (freeFrom m.heap m.high.head).bind fun h =>
    (freeFrom h m.low.head).bind fun h =>
    if !held && m.lock then .blocked
    else
      .next { m with
        heap := h
        high := {}
        low := {}
        poll := if m.type = .paccept ∨ m.type = .plisten then m.poll else none
        type := .invalid
        dw := none }

/-- The result of `send_list_tcp` or `send_buffer_` after `force_close`. -/
def closed : Outcome ListFault (RawSocket τ × Option Report) :=
  (m.forceClose true).bind fun k => .next (k, some ⟨.close, m.id, 0⟩)

/-- The first node `n` of a list, at `a`, has been sent: it is unlinked and
freed. -/
def shift (low : Bool) (a : ℕ) (n : Node (WriteBuffer τ)) : RawSocket τ :=
  { m.setList low { m.list low with head := n.next } with
    wbSize := m.wbSize - n.value.sz
    heap := m.heap.erase a }

/-- `c` bytes of the first node `n` of a list, at `a`, have been sent. -/
def advance (a : ℕ) (n : Node (WriteBuffer τ)) (c : ℕ) : RawSocket τ :=
  { m with
    wbSize := m.wbSize - c
    heap := m.heap.insert a
      ⟨{ n.value with offset := n.value.offset + c }, n.next⟩ }

/-- `send_list_tcp` -/
def sendListTcp (m : RawSocket τ) (low : Bool) (acts : List Act) :
    Outcome ListFault (RawSocket τ × Option Report) :=
  match (m.list low).head with
  | none => .next (m.setList low { m.list low with tail := none }, none)
  | some a =>
    match fetch m.heap a with
    | .fault e => .fault e
    | .blocked => .blocked
    | .next n =>
      match acts with
      | .bytes c :: acts =>
        if c = n.value.sz then (m.shift low a n).sendListTcp low acts
        else if c < n.value.sz then .next (m.advance a n c, none)
        else .blocked
      | .intr :: acts => m.sendListTcp low acts
      | .again :: _ => .next (m, none)
      | .failed :: _ => m.closed
      | _ => .blocked
termination_by structural acts

/-- `drop_udp` -/
def dropUdp (low : Bool) (a : ℕ) (n : Node (WriteBuffer τ)) : RawSocket τ :=
  { m.setList low
      { head := n.next
        tail := if n.next = none then none else (m.list low).tail } with
    wbSize := m.wbSize - n.value.sz
    heap := m.heap.erase a }

/-- Whether `udp_socket_address` rejects the address of a node.  The bytes
behind a node of `SIZEOF_TCPBUFFER` are left open. -/
def mismatched (b : WriteBuffer τ) (acts : List Act) : Bool :=
  match b.address with
  | some address => !m.udpSocketAddress address
  | none => acts.head? = some .mismatch

/-- `send_list_udp` -/
def sendListUdp (m : RawSocket τ) (low : Bool) (acts : List Act) :
    Outcome ListFault (RawSocket τ × Option Report) :=
  match (m.list low).head with
  | none => .next (m.setList low { m.list low with tail := none }, none)
  | some a =>
    match fetch m.heap a with
    | .fault e => .fault e
    | .blocked => .blocked
    | .next n =>
      if m.mismatched n.value acts then .next (m.dropUdp low a n, none)
      else
        match acts with
        | .bytes _ :: acts => (m.shift low a n).sendListUdp low acts
        | .intr :: _ | .again :: _ => .next (m, none)
        | .failed :: _ => .next (m.dropUdp low a n, none)
        | _ => .blocked
termination_by structural acts

/-- `send_list` -/
def sendList (low : Bool) (acts : List Act) :
    Outcome ListFault (RawSocket τ × Option Report) :=
  if m.protocol = .tcp then m.sendListTcp low acts
  else m.sendListUdp low acts

/-- `raise_uncomplete` -/
def raiseUncomplete : Outcome ListFault (RawSocket τ) :=
  match m.low.head with
  | none => .fault .dangling
  | some a =>
    (fetch m.heap a).bind fun n =>
      if m.high.head ≠ none then .fault .highInUse
      else
        .next { m with
          low :=
            { head := n.next
              tail := if n.next = none then none else m.low.tail }
          heap := m.heap.insert a ⟨n.value, none⟩
          high := ⟨some a, some a⟩ }

/-- Step 4 of `send_buffer_`. -/
def turnOff : Outcome ListFault (RawSocket τ × Option Report) :=
  if m.sendBufferEmpty ∧ m.wbSize = 0 then
    let m := m.spWrite false
    if m.type = .halfclose then m.closed
    else if m.warnSize > 0 then
      .next ({ m with warnSize := 0 }, some ⟨.warning, m.id, 0⟩)
    else .next (m, none)
  else .fault .unsentData

/-- Step 3 of `send_buffer_`. -/
def afterLow : Outcome ListFault (RawSocket τ × Option Report) :=
  (listUncomplete m.heap m.low).bind fun uncomplete =>
    if uncomplete then m.raiseUncomplete.bind fun m => .next (m, none)
    else if m.low.head ≠ none then .next (m, none)
    else m.turnOff

/-- Step 2 of `send_buffer_`. -/
def sendLow (acts : List Act) :
    Outcome ListFault (RawSocket τ × Option Report) :=
  if m.low.head ≠ none then
    (m.sendList true acts).bind fun (m, r) =>
      if r.isSome then .next (m, r) else m.afterLow
  else m.turnOff

/-- `send_buffer_`, with the results of its two calls of `send_list`. -/
def sendBuffer_ (his los : List Act) :
    Outcome ListFault (RawSocket τ × Option Report) :=
  (listUncomplete m.heap m.low).bind fun uncomplete =>
    if uncomplete then .fault .lowUncomplete
    else
      (m.sendList false his).bind fun (m, r) =>
        if r.isSome then .next (m, r)
        else if m.high.head = none then m.sendLow los
        else .next (m, none)

/-- `send_buffer` before `send_buffer_`: the buffer of a direct write becomes
the first node of the high list, at the address `a`. -/
def takeDw (a : ℕ) : Outcome ListFault (RawSocket τ) :=
  match m.dw with
  | none => .next m
  | some b =>
    if a ∈ m.heap then .blocked
    else
      .next { m with
        wbSize := m.wbSize + b.sz
        heap := m.heap.insert a ⟨b, m.high.head⟩
        high :=
          { head := some a
            tail := if m.high.head = none then some a else m.high.tail }
        dw := none }

/-- `send_buffer` -/
def sendBuffer (a : ℕ) (his los : List Act) :
    Outcome ListFault (RawSocket τ × Option Report) :=
  if m.lock then .next (m, none)
  else (m.takeDw a).bind fun m => m.sendBuffer_ his los

/-- `append_sendbuffer`, `append_sendbuffer_low` and `append_sendbuffer_udp` -/
def append (low : Bool) (a : ℕ) (b : WriteBuffer τ) :
    Outcome ListFault (RawSocket τ) :=
  (appendSendbuffer_ m.heap (m.list low) a b).bind fun (h, e) =>
    .next { m.setList low e with heap := h, wbSize := m.wbSize + b.sz }

/-- The end of `send_socket`. -/
def warn : RawSocket τ × Option Report :=
  if m.wbSize ≥ warningSize ∧ m.wbSize ≥ m.warnSize then
    ({ m with
        warnSize := if m.warnSize = 0 then warningSize * 2 else m.warnSize * 2 },
      some ⟨.warning, m.id,
        if m.wbSize % 1024 = 0 then m.wbSize / 1024
        else m.wbSize / 1024 + 1⟩)
  else (m, none)

/-- `send_socket` queues the package; `first` if it turns the write event
on. -/
def queuePackage (package : Package τ) (low first : Bool)
    (address : Option Address) (a : ℕ) :
    Outcome ListFault (RawSocket τ × Option Report) :=
  (m.append low a ⟨package, 0, address⟩).bind fun m =>
    .next (if first then m.spWrite true else m).warn

/-- `send_socket`, where `act` is the result of `sendto` and `a` the address of
the new node. -/
def sendSocket (id : Id) (package : Package τ) (act : Act) (a : ℕ) :
    Outcome ListFault (RawSocket τ × Option Report) :=
  let address := package.kind.address.getD m.peer
  let low := package.kind = .lowpriority
  if m.type = .invalid ∨ m.id ≠ id ∨ m.type = .halfclose ∨
      m.type = .paccept ∨ m.type = .plisten ∨ m.type = .listen then
    .next (m, none)
  else if m.sendBufferEmpty ∧ m.type = .connected then
    if m.protocol = .tcp then m.queuePackage package false true none a
    else if m.udpSocketAddress address then
      match written package.data.length act with
      | none => .blocked
      | some n =>
        if act = .bytes n ∧ n = package.data.length then .next (m, none)
        else m.queuePackage package low true (some address) a
    else .next (m, none)
  else if m.protocol = .tcp then m.queuePackage package low false none a
  else m.queuePackage package low false (some address) a

/-- `close_socket` after its call of `send_buffer`. -/
def closeRest (shutdown : Bool) :
    Outcome ListFault (RawSocket τ × Option Report) :=
  if shutdown ∨ m.nomoreSendingData then
    (m.forceClose false).bind fun k => .next (k, some ⟨.close, m.id, 0⟩)
  else .next ({ m with type := .halfclose }, none)

/-- `close_socket` -/
def closeSocket (id : Id) (shutdown : Bool) (a : ℕ) (his los : List Act) :
    Outcome ListFault (RawSocket τ × Option Report) :=
  if m.type = .invalid ∨ m.id ≠ id then .next (m, some ⟨.close, id, 0⟩)
  else if m.nomoreSendingData then m.closeRest shutdown
  else
    (m.sendBuffer a his los).bind fun (m, r) =>
      if r.any fun r => r.kind = .close then .next (m, r)
      else m.closeRest shutdown

end Functions

/-! ## Sequences of operations -/

/-- What happens to a socket between its opening and its end. -/
inductive Operation (τ : Type*) where
  /-- A `'D'`, `'P'` or `'A'` command. -/
  | send (id : Id) (package : Package τ) (act : Act) (a : ℕ)
  /-- A write event. -/
  | write (a : ℕ) (his los : List Act)
  /-- A `'K'` command. -/
  | close (id : Id) (shutdown : Bool) (a : ℕ) (his los : List Act)
  /-- An error or the end of the stream. -/
  | error
  /-- A worker takes or releases `dw_lock`. -/
  | lock (held : Bool)
  /-- A worker leaves the rest of a direct write. -/
  | leave (b : WriteBuffer τ)
  /-- Workers and `dec_sending_ref` count commands. -/
  | count (sending : ℕ)
  /-- `report_connect`, `start_socket` or a worker changes the type or the
  interest of an open socket. -/
  | turn (type : SocketType) (poll : Option Bool)
  /-- A `'C'` command. -/
  | setUdp (peer : Address)

/-- The socket belongs to an id: it is neither free nor reserved. -/
def isOpen (m : RawSocket τ) : Bool :=
  m.type ≠ .invalid && m.type ≠ .reserve

def step (m : RawSocket τ) : Operation τ → Outcome ListFault (RawSocket τ)
  | .send id package act a =>
    (m.sendSocket id package act a).bind fun r => .next r.1
  | .write a his los =>
    if m.type = .invalid ∨ m.type = .connecting ∨ m.type = .listen then .next m
    else (m.sendBuffer a his los).bind fun r => .next r.1
  | .close id shutdown a his los =>
    (m.closeSocket id shutdown a his los).bind fun r => .next r.1
  | .error => m.forceClose false
  | .lock held =>
    if m.lock = held then .blocked else .next { m with lock := held }
  | .leave b =>
    if m.lock ∧ m.dw = none then .next { m with dw := some b } else .blocked
  | .count sending => .next { m with sending }
  | .turn type poll =>
    if m.isOpen ∧ type ≠ .invalid ∧ type ≠ .reserve then
      .next { m with type, poll }
    else .blocked
  | .setUdp peer => .next { m with peer }

end RawSocket

end SkynetServer.SocketServer
