import SkynetServer.SocketServer.Slot
import SkynetServer.Support.Transition

/-!
# The threads of the socket server

Any number of workers call the functions of `socket_server.h`, and the socket
thread calls `socket_server_poll` over and over.  They share the slots, the
counter `alloc_id`, the command pipe and the poll set.

A step is one access to memory or to a kernel object that another thread may
observe: one field read by a test, one store, one system call, one operation
on a lock.  Accesses to fields that only the socket thread uses are part of
the step before them.  The stores of `new_fd` are one step, and so are the
passes of the loop of `inc_sending_ref`, of which only the last one does
anything.

Apart from the pipe, the counter and the entries of `ss->ev`, a step concerns
one slot, which the position of the thread determines.  What it does there is a
function of the slot's socket and of the position: `workerLocal` and
`serverLocal`.
-/

namespace SkynetServer.SocketServer

open Transition

variable {τ : Type*}

/-- The commands of the pipe. -/
inductive Command (τ : Type*) where
  /-- `'O'` -/
  | open (id : Id)
  /-- `'L'` -/
  | listen (id : Id)
  /-- `'B'` -/
  | bind (id : Id)
  /-- `'U'`; `v6` for `AF_INET6`. -/
  | udp (id : Id) (v6 : Bool)
  /-- `'S'` -/
  | start (id : Id)
  /-- `'K'` -/
  | close (id : Id) (shutdown : Bool)
  /-- `'D'`, `'P'` or `'A'`, by the kind of the package. -/
  | send (id : Id) (package : Package τ)
  /-- `'C'` -/
  | setUdp (id : Id) (address : Address)
  /-- `'T'` -/
  | setopt (id : Id)
  /-- `'X'` -/
  | exit
  deriving DecidableEq, Repr

/-- `SOCKET_*`: what `socket_server_poll` returns. -/
inductive ReportKind where
  | data
  | close
  | open
  | accept
  | err
  | exit
  | udp
  | warning
  deriving DecidableEq, Repr

/-- The result of `socket_server_poll`: its type, `result->id` and
`result->ud`. -/
structure Report where
  kind : ReportKind
  id : Id
  ud : ℤ := 0
  deriving DecidableEq, Repr

/-- An entry of `ss->ev`: the slot, unless it is `NULL`, and the flags.  The
id which the slot had at the time of `sp_wait` is recorded. -/
structure Event where
  slot : Option ℕ
  id : Id
  read : Bool
  write : Bool
  error : Bool
  eof : Bool
  deriving DecidableEq, Repr

/-! ## Positions -/

/-- Positions in `reserve_id`, in round `i` of its loop, at which `alloc_id` is
changed. -/
inductive Alloc where
  /-- Before `ATOM_INC(&(ss->alloc_id))`. -/
  | inc (i : ℕ)
  /-- Before `ATOM_AND(&(ss->alloc_id), 0x7fffffff)`. -/
  | mask (i : ℕ)
  deriving DecidableEq, Repr

/-- Positions in `reserve_id`, in round `i` of its loop, behind the choice of
the id. -/
inductive Reserve where
  /-- Before the test of `s->type`. -/
  | probe (i : ℕ) (id : Id)
  /-- Before `ATOM_CAS`. -/
  | cas (i : ℕ) (id : Id)
  /-- Before `s->id = id`. -/
  | setId (id : Id)
  /-- Before `s->protocol = PROTOCOL_UNKNOWN`. -/
  | setProtocol (id : Id)
  /-- Before `s->udpconnecting = 0`. -/
  | setUdp (id : Id)
  deriving DecidableEq, Repr

/-- The functions that reserve a slot. -/
inductive Opening where
  | connect
  | listen
  | bind
  | udp (v6 : Bool)
  deriving DecidableEq, Repr

/-- The command sent once the slot is reserved. -/
def Opening.command (o : Opening) (id : Id) : Command τ :=
  match o with
  | .connect => .open id
  | .listen => .listen id
  | .bind => .bind id
  | .udp v6 => .udp id v6

/-- A call of one of the send functions. -/
structure Call (τ : Type*) where
  id : Id
  package : Package τ
  deriving DecidableEq, Repr

/-- Positions in `socket_server_udp_connect`. -/
inductive UdpConnect where
  | testId
  | testType
  | lock
  | testIdLocked
  | testTypeLocked
  | inc
  | unlock
  | unlockInvalid
  | resolve
  deriving DecidableEq, Repr

/-- Positions of a worker. -/
inductive WPc (τ : Type*) where
  | idle
  | alloc (o : Opening) (n : Alloc)
  | reserve (o : Opening) (r : Reserve)
  /-- Before `send_request`. -/
  | request (c : Command τ)
  /-- Before the test of `s->id` at the entry of a send function. -/
  | entryId (c : Call τ)
  /-- Before the test of `s->type` at the entry of a send function. -/
  | entryType (c : Call τ)
  /-- In `can_direct_write`, for the second time if `locked`. -/
  | check (locked : Bool) (c : Call τ) (t : Test)
  | trylock (c : Call τ)
  /-- Before the direct write. -/
  | write (c : Call τ)
  /-- Before the stores of `dw_buffer`, `dw_size` and `dw_offset`. -/
  | setDw (c : Call τ) (n : ℕ)
  /-- Before `sp_write(..., true)`. -/
  | enable (id : Id)
  /-- Before `socket_unlock` and the return of the call. -/
  | unlock (id : Id)
  /-- Before `socket_unlock` of a call that then sends a command. -/
  | retry (c : Call τ)
  /-- Before the test of `s->protocol` of `inc_sending_ref`. -/
  | protocol (c : Call τ)
  /-- In the loop of `inc_sending_ref`. -/
  | inc (c : Call τ)
  | udpConnect (id : Id) (u : UdpConnect)

/-- What `new_fd` is called for. -/
inductive NewFd where
  /-- `open_socket`, with an established connection or not. -/
  | open (connected : Bool)
  | listen
  | bind
  | udp (v6 : Bool)
  /-- `report_accept` on the socket `listener`. -/
  | accept (listener : Id)
  deriving DecidableEq, Repr

/-- The `protocol` that `new_fd` is given. -/
def NewFd.protocol : NewFd → Protocol
  | .udp v6 => if v6 then .udpv6 else .udp
  | _ => .tcp

/-- The `add` that `new_fd` is given. -/
def NewFd.add : NewFd → Bool
  | .listen | .accept _ => false
  | _ => true

/-- The caller of `send_buffer`. -/
inductive Caller where
  /-- A write event at slot `i`, returned for the socket `id`. -/
  | event (i : ℕ) (id : Id)
  /-- `close_socket` -/
  | close (id : Id) (shutdown : Bool)
  deriving DecidableEq, Repr

/-- The slot at which `send_buffer` works. -/
def Caller.slot : Caller → ℕ
  | .event i _ => i
  | .close id _ => hashId id

/-- The caller of `force_close`: what is reported, for a command if `ctrl`. -/
structure Closing where
  ctrl : Bool
  report : Report
  deriving DecidableEq, Repr

/-- Positions of the socket thread. -/
inductive SPc (τ : Type*) where
  /-- At the head of the loop of `socket_server_poll`. -/
  | poll
  /-- `socket_server_poll` returns. -/
  | ret (r : Report)
  /-- Before `sp_wait` or the next entry of `ss->ev`. -/
  | events
  /-- Before the `switch` on the type of the entry's slot. -/
  | dispatch (e : Event)
  /-- At the beginning of `ctrl_cmd`. -/
  | cmd (c : Command τ)
  /-- Before `clear_closed_event`. -/
  | clear (r : Report)
  | newFd (id : Id) (n : NewFd)
  /-- Before the type of a new socket is set. -/
  | setType (id : Id) (n : NewFd)
  /-- At `_failed` of `open_socket`, or in the failure branch of
  `add_udp_socket`; `again` if `new_fd` has set the type before. -/
  | openFailed (id : Id) (again : Bool) (r : Option Report)
  /-- Before `memset(ns->p.udp_address, ...)`. -/
  | udpAddress (id : Id)
  /-- `open_socket` before `sp_write(..., true)`. -/
  | openEnable (id : Id)
  /-- `start_socket` before `sp_add`. -/
  | startAdd (id : Id)
  /-- `start_socket` after `sp_add`. -/
  | startType (id : Id)
  /-- `send_socket` before `sp_write(..., true)`. -/
  | sendEnable (c : Call τ) (r : Option Report)
  /-- `dec_sending_ref` before the test of `s->id`. -/
  | decId (c : Call τ) (r : Option Report)
  /-- `dec_sending_ref` after the test of `s->id`. -/
  | dec (c : Call τ) (r : Option Report)
  /-- In `nomore_sending_data` of `close_socket`, the second one if `again`. -/
  | closeTest (id : Id) (shutdown again : Bool) (t : DataTest)
  /-- Before `s->type = SOCKET_TYPE_HALFCLOSE`. -/
  | halfclose (id : Id)
  /-- `send_buffer` before `socket_trylock`. -/
  | sendBuffer (f : Caller)
  /-- `send_buffer` after `socket_trylock`. -/
  | takeDw (f : Caller)
  /-- In `send_list`, for the low list if `low`. -/
  | sendList (f : Caller) (low : Bool)
  /-- Before `raise_uncomplete`. -/
  | raise (f : Caller)
  /-- Step 4 of `send_buffer_`. -/
  | turnOff (f : Caller)
  /-- `send_buffer_` after `sp_write(..., false)`. -/
  | sent (f : Caller)
  /-- `send_buffer` before `socket_unlock`. -/
  | unlock (f : Caller) (r : Option Report)
  /-- At the beginning of `force_close`; `held` if the lock is held. -/
  | freeHigh (i : ℕ) (held : Bool) (f : Closing)
  | freeLow (i : ℕ) (held : Bool) (f : Closing)
  /-- `force_close` before `sp_del`. -/
  | del (i : ℕ) (held : Bool) (f : Closing)
  /-- `force_close` before `socket_lock`. -/
  | closeLock (i : ℕ) (held : Bool) (f : Closing)
  /-- `force_close` before `s->type = SOCKET_TYPE_INVALID`. -/
  | invalidate (i : ℕ) (f : Closing)
  /-- `force_close` before the test of `s->dw_buffer`. -/
  | freeDw (i : ℕ) (f : Closing)
  | closeUnlock (i : ℕ) (f : Closing)
  /-- `report_connect` before `getsockopt`. -/
  | connect (i : ℕ) (id : Id)
  /-- `report_connect` in `nomore_sending_data`. -/
  | connectTest (i : ℕ) (t : DataTest)
  /-- `report_connect` before `sp_write(..., false)`. -/
  | connectOff (i : ℕ)
  /-- `report_accept` before `accept`. -/
  | accept (i : ℕ) (id : Id)
  | acceptAlloc (listener : Id) (n : Alloc)
  | acceptReserve (listener : Id) (r : Reserve)
  /-- Before the read of `forward_message`. -/
  | read (e : Event) (i : ℕ)
  /-- `socket_server_poll` after `forward_message`: the entry, if it stays, and
  the result. -/
  | kept (e : Option Event) (r : Option Report)

/-! ## Slots of positions -/

def Reserve.id : Reserve → Id
  | .probe _ id | .cas _ id | .setId id | .setProtocol id | .setUdp id => id

/-- The slot of a command. -/
def Command.slot : Command τ → Option ℕ
  | .open id | .listen id | .bind id | .udp id _ | .start id | .close id _
  | .send id _ | .setUdp id _ | .setopt id => some (hashId id)
  | .exit => none

/-- The slot which the next step of a worker concerns. -/
def WPc.slot : WPc τ → Option ℕ
  | .idle | .alloc _ _ | .request _ => none
  | .reserve _ r => some (hashId r.id)
  | .entryId c | .entryType c | .check _ c _ | .trylock c | .write c
  | .setDw c _ | .retry c | .protocol c | .inc c => some (hashId c.id)
  | .enable id | .unlock id | .udpConnect id _ => some (hashId id)

/-- The slot which the next step of the socket thread concerns. -/
def SPc.slot : SPc τ → Option ℕ
  | .poll | .ret _ | .events | .clear _ | .acceptAlloc _ _ | .kept _ _ => none
  | .dispatch e => e.slot
  | .cmd c => c.slot
  | .newFd id _ | .setType id _ | .openFailed id _ _ | .udpAddress id
  | .openEnable id | .startAdd id | .startType id | .closeTest id _ _ _
  | .halfclose id => some (hashId id)
  | .sendEnable c _ | .decId c _ | .dec c _ => some (hashId c.id)
  | .sendBuffer f | .takeDw f | .sendList f _ | .raise f | .turnOff f
  | .sent f | .unlock f _ => some f.slot
  | .freeHigh i _ _ | .freeLow i _ _ | .del i _ _ | .closeLock i _ _
  | .invalidate i _ | .freeDw i _ | .closeUnlock i _ | .connect i _
  | .connectTest i _ | .connectOff i | .accept i _ | .read _ i => some i
  | .acceptReserve _ r => some (hashId r.id)

/-! ## States -/

/-- A failed assertion. -/
inductive Fault where
  /-- `assert(s->type != SOCKET_TYPE_RESERVE)` of `force_close` -/
  | closeReserved
  /-- `assert(s->type == SOCKET_TYPE_RESERVE)` of `new_fd` -/
  | notReserved
  /-- `check_wb_list` -/
  | listInUse
  /-- `assert(!list_uncomplete(&s->low))` -/
  | lowUncomplete
  /-- `assert(high->head == NULL)` of `raise_uncomplete` -/
  | highInUse
  /-- `assert(send_buffer_empty(s) && s->wb_size == 0)` -/
  | unsentData
  /-- `assert((s->sending & 0xffff) != 0)` -/
  | notSending
  deriving DecidableEq, Repr

/-- The whole state; `ev` holds the entries from `event_index` on. -/
structure State (τ : Type*) where
  slot : ℕ → Socket τ
  allocId : Id
  pipe : List (Command τ)
  checkctrl : Bool
  ev : List Event
  worker : τ → WPc τ
  server : SPc τ

/-- The calls of a worker. -/
inductive Api where
  | open (o : Opening)
  | send (id : Id) (kind : SendKind) (data : List UInt8)
  | start (id : Id)
  | close (id : Id) (shutdown : Bool)
  | nodelay (id : Id)
  | exit
  | udpConnect (id : Id)
  deriving DecidableEq

/-- What the callers, the kernel and the scheduler leave open. -/
inductive Act where
  /-- A worker calls a function. -/
  | call (a : Api)
  /-- Go on; a system call made here succeeds. -/
  | go
  /-- A system call transfers `n` bytes. -/
  | bytes (n : ℕ)
  /-- A system call fails with `EINTR`. -/
  | intr
  /-- A system call fails with `EAGAIN`, or `connect` with `EINPROGRESS`. -/
  | again
  /-- A system call fails. -/
  | failed
  /-- `sp_wait` returns these entries. -/
  | ready (events : List Event)
  /-- `getaddrinfo` returns an address, of `AF_INET6` if `v6`. -/
  | resolved (v6 : Bool) (rest : List UInt8)
  /-- The bytes behind a node of `SIZEOF_TCPBUFFER` are no address of the
  socket's protocol, or a datagram comes from such an address. -/
  | mismatch
  deriving DecidableEq

/-! ## `reserve_id` -/

/-- `reserve_id` at its slot: where it goes on, or the id it returns. -/
def reserveStep (k : Socket τ) : Reserve → Socket τ × (Reserve ⊕ Alloc ⊕ Id)
  | .probe i id =>
    if k.type = .invalid then (k, .inl (.cas i id))
    else (k, .inr (.inl (.inc (i + 1))))
  | .cas i id =>
    if k.type = .invalid then ({ k with type := .reserve }, .inl (.setId id))
    else (k, .inr (.inl (.inc i)))
  | .setId id => ({ k with id }, .inl (.setProtocol id))
  | .setProtocol id => ({ k with protocol := .unknown }, .inl (.setUdp id))
  | .setUdp id => ({ k with udpconnecting := 0 }, .inr (.inr id))

/-- `reserve_id` at the counter `alloc_id`: the counter, and where it goes on,
unless it returns `-1`. -/
def allocStep (allocId : Id) : Alloc → Id × Option (Alloc ⊕ Reserve)
  | .inc i =>
    if maxSocket ≤ i then (allocId, none)
    else
      let id := allocId + 1
      (id, some (if id.msb then .inl (.mask i) else .inr (.probe i id)))
  | .mask i =>
    let id := allocId &&& 0x7fffffff
    (id, some (.inr (.probe i id)))

/-! ## The workers -/

/-- What a write of `len` bytes returns, with a failure counted as `0`. -/
def written (len : ℕ) : Act → Option ℕ
  | .bytes n => if n ≤ len then some n else none
  | .intr | .again | .failed => some 0
  | _ => none

/-- The position at which worker `w` enters a function. -/
def enter (w : τ) : Api → WPc τ
  | .open o => .alloc o (.inc 0)
  | .send id kind data => .entryId ⟨id, ⟨w, kind, data⟩⟩
  | .start id => .request (.start id)
  | .close id shutdown => .request (.close id shutdown)
  | .nodelay id => .request (.setopt id)
  | .exit => .request .exit
  | .udpConnect id => .udpConnect id .testId

/-- `switch (udp_address[0])` of `socket_server_udp_send`. -/
def addressed (c : Call τ) : Bool :=
  match c.package.kind with
  | .udp a => a.type = Protocol.udp.code || a.type = Protocol.udpv6.code
  | _ => true

/-- Where a send function goes on after its entry test. -/
def afterEntry (c : Call τ) : WPc τ :=
  match c.package.kind with
  | .lowpriority => .protocol c
  | _ => .check false c .id

/-- Where a send function goes on when it does not write directly. -/
def queue (c : Call τ) : WPc τ :=
  match c.package.kind with
  | .udp _ => .request (.send c.id c.package)
  | _ => .protocol c

/-- Where `can_direct_write` goes on when the test `t` has passed. -/
def afterTest (locked : Bool) (c : Call τ) (t : Test) : WPc τ :=
  match t.next with
  | some t => .check locked c t
  | none => if locked then .write c else .trylock c

/-- Where `socket_server_send` goes on after `n` bytes have been written. -/
def afterWrite (c : Call τ) (n : ℕ) : WPc τ :=
  if n = c.package.data.length then .unlock c.id else .setDw c n

section Workers

variable (k : Socket τ)

/-- The test of `s->type` at the entry of a send function. -/
def stepEntry (c : Call τ) : Socket τ × WPc τ :=
  if k.type = .invalid then (k, .idle)
  else if addressed c then
    ({ k with
        accepted := if k.id = c.id then k.accepted ++ [c.package]
          else k.accepted },
      afterEntry c)
  else (k, .idle)

/-- One test of `can_direct_write`. -/
def stepCheck (locked : Bool) (c : Call τ) (t : Test) : WPc τ :=
  if k.passes c.id t then afterTest locked c t
  else if locked then .retry c
  else queue c

/-- The direct write. -/
def stepWrite (c : Call τ) (a : Act) : Outcome Fault (Socket τ × WPc τ) :=
  match c.package.kind with
  | .lowpriority => .blocked
  | .send =>
    if k.protocol = .tcp then
      match written c.package.data.length a with
      | none => .blocked
      | some n =>
        .next ({ k with wire := k.wire ++ c.package.data.take n },
          afterWrite c n)
    else if k.udpSocketAddress k.peer then
      match written c.package.data.length a with
      | none => .blocked
      | some n => .next (k, afterWrite c n)
    else .next (k, .unlock c.id)
  | .udp address =>
    if k.udpSocketAddress address then
      match a with
      | .bytes _ => .next (k, .unlock c.id)
      | .intr | .again | .failed => .next (k, .retry c)
      | _ => .blocked
    else .next (k, .unlock c.id)

/-- The loop of `inc_sending_ref`. -/
def stepInc (c : Call τ) : Outcome Fault (Socket τ × WPc τ) :=
  if k.sending / 65536 = idTag16 c.id then
    if k.sending % 65536 = 0xffff then .blocked
    else
      .next ({ k with sending := k.sending + 1 },
        .request (.send c.id c.package))
  else .next (k, .request (.send c.id c.package))

/-- `socket_server_udp_connect` -/
def stepUdpConnect (id : Id) (u : UdpConnect) (a : Act) :
    Outcome Fault (Socket τ × WPc τ) :=
  match u with
  | .testId =>
    .next (k, if k.id = id then .udpConnect id .testType else .idle)
  | .testType =>
    .next (k, if k.type = .invalid then .idle else .udpConnect id .lock)
  | .lock =>
    if k.lock then .blocked
    else .next ({ k with lock := true }, .udpConnect id .testIdLocked)
  | .testIdLocked =>
    .next (k, .udpConnect id
      (if k.id = id then .testTypeLocked else .unlockInvalid))
  | .testTypeLocked =>
    .next (k, .udpConnect id
      (if k.type = .invalid then .unlockInvalid else .inc))
  | .inc =>
    .next ({ k with udpconnecting := (k.udpconnecting + 1) % 65536 },
      .udpConnect id .unlock)
  | .unlock => .next ({ k with lock := false }, .udpConnect id .resolve)
  | .unlockInvalid => .next ({ k with lock := false }, .idle)
  | .resolve =>
    match a with
    | .resolved v6 rest =>
      let type := (if v6 then Protocol.udpv6 else Protocol.udp).code
      .next (k, .request (.setUdp id ⟨type, rest⟩))
    | .failed => .next (k, .idle)
    | _ => .blocked

/-- A step of a worker at the socket `k` of its slot. -/
def workerLocal (p : WPc τ) (a : Act) : Outcome Fault (Socket τ × WPc τ) :=
  match p with
  | .reserve o r =>
    .next (match reserveStep k r with
      | (k, .inl r) => (k, .reserve o r)
      | (k, .inr (.inl n)) => (k, .alloc o n)
      | (k, .inr (.inr id)) => (k, .request (o.command id)))
  | .entryId c => .next (k, if k.id = c.id then .entryType c else .idle)
  | .entryType c => .next (stepEntry k c)
  | .check locked c t => .next (k, stepCheck k locked c t)
  | .trylock c =>
    if k.lock then .next (k, queue c)
    else .next ({ k with lock := true }, .check true c .id)
  | .write c => stepWrite k c a
  | .setDw c n =>
    .next ({ k with dw := some ⟨c.package, n, none⟩ }, .enable c.id)
  | .enable id => .next (k.spWrite true, .unlock id)
  | .unlock _ => .next ({ k with lock := false }, .idle)
  | .retry c => .next ({ k with lock := false }, queue c)
  | .protocol c =>
    .next (k, if k.protocol = .tcp then .inc c
      else .request (.send c.id c.package))
  | .inc c => stepInc k c
  | .udpConnect id u => stepUdpConnect k id u a
  | .idle | .alloc _ _ | .request _ => .blocked

end Workers

/-! ## The socket thread -/

/-- `socket_server_poll` returns the result, or goes on without one. -/
def finish : Option Report → SPc τ
  | none => .poll
  | some r => .ret r

/-- Where the socket thread goes on after `send_socket`. -/
def afterSend (c : Call τ) (r : Option Report) : SPc τ :=
  match c.package.kind with
  | .udp _ => finish r
  | _ => .decId c r

/-- `close_socket` after its first test: `force_close` on a shutdown, else the
second test. -/
def closeAgain (id : Id) (shutdown : Bool) : SPc τ :=
  if shutdown then .freeHigh (hashId id) false ⟨true, ⟨.close, id, 0⟩⟩
  else .closeTest id shutdown true .high

/-- Where the socket thread goes on after `send_buffer`. -/
def afterBuffer (f : Caller) (r : Option Report) : SPc τ :=
  match f with
  | .event _ _ => finish r
  | .close id shutdown => closeAgain id shutdown

/-- Where the socket thread goes on after `force_close`. -/
def afterClose (f : Closing) : SPc τ :=
  if f.ctrl then .clear f.report else .ret f.report

/-- `force_close` called by `send_buffer_`, of the socket with this id. -/
def closingOf (f : Caller) (id : Id) : Closing :=
  match f with
  | .event _ _ => ⟨false, ⟨.close, id, 0⟩⟩
  | .close _ _ => ⟨true, ⟨.close, id, 0⟩⟩

/-- The type which a new socket gets. -/
def newType : NewFd → SocketType
  | .open connected => if connected then .connected else .connecting
  | .listen => .plisten
  | .bind => .bind
  | .udp _ => .connected
  | .accept _ => .paccept

/-- Where the socket thread goes on after the type of a new socket is set. -/
def afterType (id : Id) : NewFd → SPc τ
  | .open connected =>
    if connected then .ret ⟨.open, id, 0⟩ else .openEnable id
  | .listen => .poll
  | .bind => .ret ⟨.open, id, 0⟩
  | .udp _ => .udpAddress id
  | .accept listener => .ret ⟨.accept, listener, id.toNat⟩

section SocketThread

variable (k : Socket τ)

/-- `new_fd`, in which `sp_add` may fail. -/
def stepNewFd (id : Id) (n : NewFd) (a : Act) :
    Outcome Fault (Socket τ × SPc τ) :=
  if k.type ≠ .reserve then .fault .notReserved
  else if n.add ∧ a = .failed then
    .next ({ k with type := .invalid },
      match n with
      | .bind => .clear ⟨.err, id, 0⟩
      | .udp _ => .openFailed id true none
      | _ => .openFailed id true (some ⟨.err, id, 0⟩))
  else if k.sendBufferEmpty then
    .next (k.newFd id n.protocol n.add, .setType id n)
  else .fault .listInUse

/-- `start_socket` up to `sp_add`. -/
def stepStart (id : Id) : SPc τ :=
  if k.type = .invalid ∨ k.id ≠ id then .clear ⟨.err, id, 0⟩
  else if k.type = .paccept ∨ k.type = .plisten then .startAdd id
  else if k.type = .connected then .ret ⟨.open, id, 0⟩
  else .poll

/-! ### Packages are queued and sent -/

/-- The result of `send_socket`. -/
def warning : Option Report :=
  if k.warns then some ⟨.warning, k.id, k.kilobytes⟩ else none

/-- `send_socket` queues the package in the given list; `first` if it turns
the write event on. -/
def queuePackage (c : Call τ) (low first : Bool) (address : Option Address) :
    Socket τ × SPc τ :=
  let k := k.append low ⟨c.package, 0, address⟩
  (k.warn,
    if first then .sendEnable c (warning k) else afterSend c (warning k))

/-- `send_socket` -/
def sendSocket (c : Call τ) (a : Act) : Outcome Fault (Socket τ × SPc τ) :=
  let address := c.package.kind.address.getD k.peer
  let low := c.package.kind = .lowpriority
  if k.type = .invalid ∨ k.id ≠ c.id ∨ k.type = .halfclose ∨
      k.type = .paccept ∨ k.type = .plisten ∨ k.type = .listen then
    .next (k, afterSend c none)
  else if k.sendBufferEmpty ∧ k.type = .connected then
    if k.protocol = .tcp then .next (queuePackage k c false true none)
    else if k.udpSocketAddress address then
      match written c.package.data.length a with
      | none => .blocked
      | some n =>
        if a = .bytes n ∧ n = c.package.data.length then
          .next (k, afterSend c none)
        else .next (queuePackage k c low true (some address))
    else .next (k, afterSend c none)
  else if k.protocol = .tcp then .next (queuePackage k c low false none)
  else .next (queuePackage k c low false (some address))

/-- `dec_sending_ref` after the test of `s->id`. -/
def stepDec (r : Option Report) : Outcome Fault (Socket τ × SPc τ) :=
  if k.protocol = .tcp then
    if k.sending % 65536 = 0 then .fault .notSending
    else .next ({ k with sending := k.sending - 1 }, finish r)
  else .next (k, finish r)

/-- Where `send_buffer_` goes on after `send_list`. -/
def afterList (f : Caller) (low : Bool) : SPc τ :=
  if low then
    if k.lowUncomplete then .raise f
    else if k.low.isEmpty then .turnOff f
    else .unlock f none
  else if k.high.isEmpty then
    if k.low.isEmpty then .turnOff f else .sendList f true
  else .unlock f none

/-- `send_list_tcp`: one pass of the inner loop. -/
def stepSendTcp (f : Caller) (low : Bool) (a : Act) :
    Outcome Fault (Socket τ × SPc τ) :=
  match k.list low with
  | [] => .next (k, afterList k f low)
  | b :: rest =>
    match a with
    | .bytes n =>
      let bytes := (b.package.data.drop b.offset).take n
      if n = b.sz then
        .next ({ k.setList low rest n with wire := k.wire ++ bytes },
          .sendList f low)
      else if n < b.sz then
        let k := k.setList low ({ b with offset := b.offset + n } :: rest) n
        .next ({ k with wire := k.wire ++ bytes }, afterList k f low)
      else .blocked
    | .intr => .next (k, .sendList f low)
    | .again => .next (k, afterList k f low)
    | .failed => .next (k, .freeHigh f.slot true (closingOf f k.id))
    | _ => .blocked

/-- Whether `udp_socket_address` rejects the address of a node. -/
def mismatched (b : WriteBuffer τ) (a : Act) : Bool :=
  match b.address with
  | some address => !k.udpSocketAddress address
  | none => a = .mismatch

/-- `send_list_udp`: one pass of the loop. -/
def stepSendUdp (f : Caller) (low : Bool) (a : Act) :
    Outcome Fault (Socket τ × SPc τ) :=
  match k.list low with
  | [] => .next (k, afterList k f low)
  | b :: rest =>
    let dropped := k.setList low rest b.sz
    if mismatched k b a then .next (dropped, afterList dropped f low)
    else
      match a with
      | .bytes _ => .next (dropped, .sendList f low)
      | .intr | .again => .next (k, afterList k f low)
      | .failed => .next (dropped, afterList dropped f low)
      | _ => .blocked

/-- `send_list` -/
def stepSendList (f : Caller) (low : Bool) (a : Act) :
    Outcome Fault (Socket τ × SPc τ) :=
  if k.protocol = .tcp then stepSendTcp k f low a
  else stepSendUdp k f low a

/-- The buffer of a direct write joins the high list, and `send_buffer_`
begins. -/
def stepTakeDw (f : Caller) : Outcome Fault (Socket τ × SPc τ) :=
  if k.takeDw.lowUncomplete then .fault .lowUncomplete
  else .next (k.takeDw, .sendList f false)

/-- `raise_uncomplete` -/
def stepRaise (f : Caller) : Outcome Fault (Socket τ × SPc τ) :=
  match k.high, k.low with
  | [], b :: rest =>
    .next ({ k with high := [b], low := rest }, .unlock f none)
  | _, _ => .fault .highInUse

/-- Step 4 of `send_buffer_`. -/
def stepTurnOff (f : Caller) : Outcome Fault (Socket τ × SPc τ) :=
  if k.sendBufferEmpty ∧ k.wbSize = 0 then
    .next (k.spWrite false, .sent f)
  else .fault .unsentData

/-- The end of `send_buffer_`. -/
def stepSent (f : Caller) : Socket τ × SPc τ :=
  if k.type = .halfclose then (k, .freeHigh f.slot true (closingOf f k.id))
  else if k.warnSize > 0 then
    ({ k with warnSize := 0 }, .unlock f (some ⟨.warning, k.id, 0⟩))
  else (k, .unlock f none)

/-! ### Sockets are closed -/

/-- The beginning of `force_close`. -/
def stepFreeHigh (i : ℕ) (held : Bool) (f : Closing) :
    Outcome Fault (Socket τ × SPc τ) :=
  if k.type = .invalid then
    .next (k, if held then .closeUnlock i f else afterClose f)
  else if k.type = .reserve then .fault .closeReserved
  else .next ({ k with high := [] }, .freeLow i held f)

/-- `sp_del` of `force_close`. -/
def stepDel : Socket τ :=
  if k.type = .paccept ∨ k.type = .plisten then k else { k with poll := none }

/-- `socket_lock` of `force_close`. -/
def stepCloseLock (i : ℕ) (held : Bool) (f : Closing) :
    Outcome Fault (Socket τ × SPc τ) :=
  if held then .next (k, .invalidate i f)
  else if k.lock then .blocked
  else .next ({ k with lock := true }, .invalidate i f)

/-- The test at the beginning of `close_socket`. -/
def stepClose (id : Id) (shutdown : Bool) : SPc τ :=
  if k.type = .invalid ∨ k.id ≠ id then .clear ⟨.close, id, 0⟩
  else .closeTest id shutdown false .high

/-- One test of `nomore_sending_data` in `close_socket`. -/
def stepCloseTest (id : Id) (shutdown again : Bool) (t : DataTest) : SPc τ :=
  if k.noData t then
    match t.next with
    | some t => .closeTest id shutdown again t
    | none =>
      if again then .freeHigh (hashId id) false ⟨true, ⟨.close, id, 0⟩⟩
      else closeAgain id shutdown
  else if again then .halfclose id
  else .sendBuffer (.close id shutdown)

/-! ### Commands and events -/

/-- `set_udp_address` -/
def stepSetUdp (id : Id) (address : Address) : Socket τ × SPc τ :=
  if k.type = .invalid ∨ k.id ≠ id then (k, .poll)
  else if address.type ≠ k.protocol.code then (k, .clear ⟨.err, k.id, 0⟩)
  else
    ({ k with
        peer := address
        udpconnecting := (k.udpconnecting + 65535) % 65536 },
      .poll)

/-- `ctrl_cmd` -/
def stepCmd (c : Command τ) (a : Act) : Outcome Fault (Socket τ × SPc τ) :=
  match c with
  | .open id =>
    .next (k, match a with
      | .failed => .openFailed id false (some ⟨.err, id, 0⟩)
      | .again => .newFd id (.open false)
      | _ => .newFd id (.open true))
  | .listen id => .next (k, .newFd id .listen)
  | .bind id => .next (k, .newFd id .bind)
  | .udp id v6 => .next (k, .newFd id (.udp v6))
  | .start id => .next (k, stepStart k id)
  | .close id shutdown => .next (k, stepClose k id shutdown)
  | .send id package => sendSocket k ⟨id, package⟩ a
  | .setUdp id address => .next (stepSetUdp k id address)
  | .setopt _ => .next (k, .poll)
  | .exit => .blocked

/-- The `switch` of `socket_server_poll`, for an entry of slot `i`. -/
def stepDispatch (e : Event) (i : ℕ) : SPc τ :=
  match k.type with
  | .connecting => .connect i e.id
  | .listen => .accept i e.id
  | .invalid => .poll
  | _ =>
    if e.read then .read e i
    else if e.write then .sendBuffer (.event i e.id)
    else if e.error then .freeHigh i false ⟨false, ⟨.err, k.id, 0⟩⟩
    else if e.eof then .freeHigh i false ⟨false, ⟨.close, k.id, 0⟩⟩
    else .poll

/-- An entry with a write flag stays for a second round. -/
def keep (e : Event) : Option Event :=
  if e.write then some { e with read := false } else none

/-- `forward_message_tcp` and `forward_message_udp` -/
def stepRead (e : Event) (i : ℕ) (a : Act) : Outcome Fault (SPc τ) :=
  match a with
  | .bytes n =>
    if k.protocol = .tcp then
      if n = 0 then .next (.freeHigh i false ⟨false, ⟨.close, k.id, 0⟩⟩)
      else if k.type = .halfclose then .next (.kept (keep e) none)
      else .next (.kept (keep e) (some ⟨.data, k.id, n⟩))
    else .next (.kept (some e) (some ⟨.udp, k.id, n⟩))
  | .intr | .again | .mismatch => .next (.kept (keep e) none)
  | .failed => .next (.freeHigh i false ⟨false, ⟨.err, k.id, 0⟩⟩)
  | _ => .blocked

/-- One test of `nomore_sending_data` in `report_connect`. -/
def stepConnectTest (i : ℕ) (t : DataTest) : SPc τ :=
  if k.noData t then
    match t.next with
    | some t => .connectTest i t
    | none => .connectOff i
  else .ret ⟨.open, k.id, 0⟩

/-- `accept` of `report_accept`. -/
def stepAccept (a : Act) : SPc τ :=
  match a with
  | .failed => .ret ⟨.err, k.id, 0⟩
  | .again => .poll
  | _ => .acceptAlloc k.id (.inc 0)

/-- A step of the socket thread at the socket `k` of its slot. -/
def serverLocal (p : SPc τ) (a : Act) : Outcome Fault (Socket τ × SPc τ) :=
  match p with
  | .dispatch e =>
    match e.slot with
    | some i => .next (k, stepDispatch k e i)
    | none => .blocked
  | .cmd c => stepCmd k c a
  | .newFd id n => stepNewFd k id n a
  | .setType id n => .next ({ k with type := newType n }, afterType id n)
  | .openFailed _ _ r =>
    .next ({ k with type := .invalid },
      match r with | some r => .clear r | none => .poll)
  | .udpAddress _ => .next ({ k with peer := ⟨0, []⟩ }, .poll)
  | .openEnable _ => .next (k.spWrite true, .poll)
  | .startAdd id =>
    if a = .failed then
      .next (k, .freeHigh (hashId id) false ⟨true, ⟨.err, id, 0⟩⟩)
    else .next ({ k with poll := some false }, .startType id)
  | .startType id =>
    .next
      ({ k with
          type := if k.type = .paccept then .connected else .listen },
        .ret ⟨.open, id, 0⟩)
  | .sendEnable c r => .next (k.spWrite true, afterSend c r)
  | .decId c r => .next (k, if k.id = c.id then .dec c r else finish r)
  | .dec _ r => stepDec k r
  | .closeTest id shutdown again t =>
    .next (k, stepCloseTest k id shutdown again t)
  | .halfclose _ => .next ({ k with type := .halfclose }, .poll)
  | .sendBuffer f =>
    if k.lock then .next (k, afterBuffer f none)
    else .next ({ k with lock := true }, .takeDw f)
  | .takeDw f => stepTakeDw k f
  | .sendList f low => stepSendList k f low a
  | .raise f => stepRaise k f
  | .turnOff f => stepTurnOff k f
  | .sent f => .next (stepSent k f)
  | .unlock f r => .next ({ k with lock := false }, afterBuffer f r)
  | .freeHigh i held f => stepFreeHigh k i held f
  | .freeLow i held f => .next ({ k with low := [] }, .del i held f)
  | .del i held f => .next (stepDel k, .closeLock i held f)
  | .closeLock i held f => stepCloseLock k i held f
  | .invalidate i f => .next ({ k with type := .invalid }, .freeDw i f)
  | .freeDw i f => .next ({ k with dw := none }, .closeUnlock i f)
  | .closeUnlock _ f => .next ({ k with lock := false }, afterClose f)
  | .connect i _ =>
    if a = .failed then
      .next (k, .freeHigh i false ⟨false, ⟨.err, k.id, 0⟩⟩)
    else .next ({ k with type := .connected }, .connectTest i .high)
  | .connectTest i t => .next (k, stepConnectTest k i t)
  | .connectOff _ => .next (k.spWrite false, .ret ⟨.open, k.id, 0⟩)
  | .accept _ _ => .next (k, stepAccept k a)
  | .acceptReserve listener r =>
    .next (match reserveStep k r with
      | (k, .inl r) => (k, .acceptReserve listener r)
      | (k, .inr (.inl n)) => (k, .acceptAlloc listener n)
      | (k, .inr (.inr id)) => (k, .newFd id (.accept listener)))
  | .read e i =>
    match stepRead k e i a with
    | .next p => .next (k, p)
    | .blocked => .blocked
    | .fault f => .fault f
  | .poll | .ret _ | .events | .clear _ | .acceptAlloc _ _ | .kept _ _ =>
    .blocked

end SocketThread

/-! ## The system -/

namespace State

/-- `socket_server_create`; the fields it does not set are zero. -/
def create : State τ where
  slot := fun _ => {}
  allocId := 0
  pipe := []
  checkctrl := true
  ev := []
  worker := fun _ => .idle
  server := .poll

def setSlot (s : State τ) (i : ℕ) (k : Socket τ) : State τ :=
  { s with slot := Function.update s.slot i k }

def goto [DecidableEq τ] (s : State τ) (w : τ) (p : WPc τ) : State τ :=
  { s with worker := Function.update s.worker w p }

def serve (s : State τ) (p : SPc τ) : State τ :=
  { s with server := p }

/-- A step of worker `w` that concerns no slot. -/
def workerGlobal [DecidableEq τ] (s : State τ) (w : τ) (a : Act) :
    Outcome Fault (State τ) :=
  match s.worker w with
  | .idle =>
    match a with
    | .call api => .next (s.goto w (enter w api))
    | _ => .blocked
  | .request c => .next (State.goto { s with pipe := s.pipe ++ [c] } w .idle)
  | .alloc o n =>
    let r := allocStep s.allocId n
    .next (State.goto { s with allocId := r.1 } w
      (match r.2 with
      | some (.inl n) => .alloc o n
      | some (.inr r) => .reserve o r
      | none => .idle))
  | _ => .blocked

/-- One step of worker `w`. -/
def workerStep [DecidableEq τ] (s : State τ) (w : τ) (a : Act) :
    Outcome Fault (State τ) :=
  match (s.worker w).slot with
  | some i =>
    match workerLocal (s.slot i) (s.worker w) a with
    | .next (k, p) => .next ((s.setSlot i k).goto w p)
    | .blocked => .blocked
    | .fault f => .fault f
  | none => s.workerGlobal w a

/-- What `sp_wait` may return: an entry for an fd of the poll set, with a
write flag only if there is write interest, and at most one for each fd. -/
def canBeReady (s : State τ) (events : List Event) : Bool :=
  events.length ≤ 64 && (events.filterMap Event.slot).Nodup &&
    events.all fun e =>
      match e.slot with
      | none => true
      | some i =>
        (s.slot i).poll.isSome && (!e.write || (s.slot i).poll = some true)

/-- The entry, with the id that its slot has now. -/
def stamp (s : State τ) (e : Event) : Event :=
  match e.slot with
  | none => e
  | some i => { e with id := (s.slot i).id }

/-- `clear_closed_event` for a socket that was closed. -/
def clearClosedEvent (s : State τ) (id : Id) : List Event → List Event
  | [] => []
  | e :: es =>
    match e.slot with
    | none => e :: s.clearClosedEvent id es
    | some i =>
      if (s.slot i).type = .invalid ∧ (s.slot i).id = id then
        { e with slot := none } :: es
      else e :: s.clearClosedEvent id es

/-- A step of the socket thread that concerns no slot. -/
def serverGlobal (s : State τ) (a : Act) : Outcome Fault (State τ) :=
  match s.server with
  | .poll =>
    if s.checkctrl then
      match s.pipe with
      | c :: rest => .next (State.serve { s with pipe := rest } (.cmd c))
      | [] => .next (State.serve { s with checkctrl := false } .events)
    else .next (s.serve .events)
  | .ret _ => .next (s.serve .poll)
  | .events =>
    match s.ev with
    | e :: rest => .next (State.serve { s with ev := rest } (.dispatch e))
    | [] =>
      match a with
      | .ready events =>
        if s.canBeReady events then
          .next (State.serve
            { s with ev := events.map s.stamp, checkctrl := true }
            (if events.isEmpty then .poll else .events))
        else .blocked
      | _ => .blocked
  | .dispatch _ => .next (s.serve .poll)
  | .cmd _ => .next (s.serve (.ret ⟨.exit, 0, 0⟩))
  | .clear r =>
    .next (State.serve { s with ev := s.clearClosedEvent r.id s.ev } (.ret r))
  | .acceptAlloc listener n =>
    let r := allocStep s.allocId n
    .next (State.serve { s with allocId := r.1 }
      (match r.2 with
      | some (.inl n) => .acceptAlloc listener n
      | some (.inr r) => .acceptReserve listener r
      | none => .poll))
  | .kept e r =>
    .next (State.serve { s with ev := e.toList ++ s.ev } (finish r))
  | _ => .blocked

/-- One step of the socket thread. -/
def serverStep (s : State τ) (a : Act) : Outcome Fault (State τ) :=
  match s.server.slot with
  | some i =>
    match serverLocal (s.slot i) s.server a with
    | .next (k, p) => .next ((s.setSlot i k).serve p)
    | .blocked => .blocked
    | .fault f => .fault f
  | none => s.serverGlobal a

/-- One step of a worker, or of the socket thread. -/
def step [DecidableEq τ] (s : State τ) :
    Option τ × Act → Outcome Fault (State τ)
  | (some w, a) => s.workerStep w a
  | (none, a) => s.serverStep a

end State

end SkynetServer.SocketServer
