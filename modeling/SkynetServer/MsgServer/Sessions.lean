import Mathlib.Data.BitVec
import SkynetServer.Support.Transition

/-!
# The requests of one user of `msgserver.lua`

The server keeps for every user the responses to its requests, by the session
of the request, so that a client that lost its connection may repeat a request
on the next one.  `conf.request_handler` may yield, so a request is a step that
ends when the handler is called, and the return of a handler is another step.

The state is that of one user, with the connections that it has authenticated;
the users share no other field.  A table that holds a response is named by its
place in a store.  The secret and the parsing of the handshake message are left
out: the index is what `tonumber` makes of it, and `hmac` tells whether the
check of the code succeeds.  The reply to the handshake, the texts of the
errors and the limit on the number of the clients are left out too.

The last fields of the state are not in the source: they count the runs of the
handler and record which requests wait for an answer and what was sent.
-/

namespace SkynetServer.MsgServer

open Transition

abbrev Session := BitVec 32

abbrev Fd := ℕ

/-- `p`, that is, `{ return_fd, response, version, index }` -/
structure Entry (V : Type*) where
  session : Session
  fd : Option Fd
  response : Option (List UInt8)
  version : Option V
  index : Option ℤ

/-- A call of `conf.request_handler` that did not return yet: the entry, the
connection of the request and its content. -/
structure Handling where
  entry : ℕ
  fd : Fd
  session : Session
  content : List UInt8
  deriving DecidableEq

/-- What `pcall` gives of the handler. -/
inductive Result where
  /-- a string, or nil -/
  | returned (result : Option (List UInt8))
  | raised
  /-- a value that is not a string -/
  | other

/-- A response on its way to a connection. -/
structure Answer where
  fd : Fd
  entry : ℕ
  response : List UInt8
  deriving DecidableEq

structure State (V : Type*) where
  /-- `connection` of `gateserver.lua`; false for a client closed here -/
  client : Fd → Option Bool
  handshake : Fd → Bool
  /-- whether `connection[fd]` is the user -/
  connection : Fd → Bool
  version : V
  index : ℤ
  /-- `u.response` -/
  response : Session → Option ℕ
  /-- the keys of `u.response` -/
  keys : List Session
  /-- the tables that were made for a response -/
  entries : ℕ → Entry V
  next : ℕ
  handling : List Handling
  /-- runs of the handler since the entry of the session last expired -/
  runs : Session → ℕ
  /-- the connection of the last request of the session, while it is open and
  has no answer -/
  asked : Session → Option Fd
  /-- the sessions that were sent on a connection -/
  sent : Fd → List Session
  answers : List Answer

inductive Fault where
  /-- `attempt to compare nil with number` -/
  | compareNil

variable {V : Type*}

/-! ## The package formats -/

/-- `string.pack(">BI4", ok, session)` -/
def packTail (ok : UInt8) (session : Session) : List UInt8 :=
  [ok, UInt8.ofNat (session.toNat / 0x1000000),
    UInt8.ofNat (session.toNat / 0x10000), UInt8.ofNat (session.toNat / 0x100),
    UInt8.ofNat session.toNat]

/-- `string.pack(">s2", result)`, which fails for a result of 65536 bytes -/
def packS2 (result : List UInt8) : Option (List UInt8) :=
  if result.length < 0x10000 then
    some (UInt8.ofNat (result.length / 0x100) ::
      UInt8.ofNat result.length :: result)
  else none

/-- `string.unpack(">I4", message, -4)`, which fails for less than four bytes -/
def unpackSession (message : List UInt8) : Option Session :=
  if message.length < 4 then none
  else
    some (BitVec.ofNat 32
      ((message.drop (message.length - 4)).foldl
        (fun n b => n * 0x100 + b.toNat) 0))

/-- `message:sub(1,-5)` -/
def contentOf (message : List UInt8) : List UInt8 :=
  message.take (message.length - 4)

/-- The response to a result of the handler. -/
def packResult (session : Session) (result : Result) : Option (List UInt8) :=
  match result with
  | .returned result => packS2 (result.getD [] ++ packTail 1 session)
  | .raised => packS2 (packTail 0 session)
  | .other => none

/-! ## The fields -/

namespace State

def setEntry (s : State V) (id : ℕ) (p : Entry V) : State V :=
  { s with entries := Function.update s.entries id p }

/-- `u.response[session] = p` for a session that is not in the table -/
def store (s : State V) (session : Session) (id : ℕ) : State V :=
  { s with
    response := Function.update s.response session (some id)
    keys := s.keys ++ [session] }

/-- `u.response[session] = nil` -/
def remove (s : State V) (session : Session) : State V :=
  { s with
    response := Function.update s.response session none
    keys := s.keys.erase session }

/-- `gateserver.closeclient` -/
def closeclient (s : State V) (fd : Fd) : State V :=
  if s.client fd = some true then
    { s with client := Function.update s.client fd (some false) }
  else s

/-- The end of `request` after an error of `do_request` -/
def failed (s : State V) (fd : Fd) : State V :=
  if s.connection fd then s.closeclient fd else s

/-- `socketdriver.send(fd, p[2])` -/
def send (s : State V) (fd : Fd) (id : ℕ) (p : Entry V) : State V :=
  match p.response with
  | none => s
  | some bytes =>
    { s with
      answers := s.answers ++ [⟨fd, id, bytes⟩]
      asked :=
        if s.asked p.session = some fd then
          Function.update s.asked p.session none
        else s.asked }

/-! ## `retire_response` -/

/-- The entry of the session has expired. -/
def expire (s : State V) (session : Session) : State V :=
  let s := s.remove session
  { s with runs := Function.update s.runs session 0 }

/-- The loop over `pairs(response)` -/
def retireLoop (expired : ℤ) :
    List Session → State V → ℤ → Outcome Fault (State V × ℤ)
  | [], s, max => .next (s, max)
  | k :: ks, s, max =>
    match s.response k with
    | none => retireLoop expired ks s max
    | some id =>
      let p := s.entries id
      if p.fd = none then
        match p.index with
        | none => .fault .compareNil
        | some i =>
          if i < expired then retireLoop expired ks (s.expire k) max
          else
            retireLoop expired ks
              (s.setEntry id { p with index := some (i - expired) })
              (if i - expired > max then i - expired else max)
      else retireLoop expired ks s max

/-- `order` is the order in which `pairs` walks the responses. -/
def retireResponse
    (expired : ℤ) (order : List Session) (s : State V) :
    Outcome Fault (State V) :=
  if s.index ≥ expired * 2 then
    if order.isPerm s.keys then
      (retireLoop expired order s 0).bind fun r =>
        .next { r.1 with index := r.2 + 1 }
    else .blocked
  else .next s

/-! ## `do_request` -/

/-- `do_request` from `u.index = u.index + 1` to `p[1] = nil` -/
def deliver (s : State V) (id : ℕ) : State V :=
  let s := { s with index := s.index + 1 }
  let p := s.entries id
  let s :=
    match p.fd with
    | none => s
    | some fd => if s.connection fd then s.send fd id p else s
  s.setEntry id { p with fd := none }

/-- `do_request` from `u.index = u.index + 1` -/
def finish
    (expired : ℤ) (order : List Session) (s : State V) (id : ℕ) :
    Outcome Fault (State V) :=
  (s.deliver id).retireResponse expired order

/-- `do_request` up to the call of the handler -/
def start (s : State V) (fd : Fd) (session : Session) (content : List UInt8) :
    State V :=
  let id := s.next
  let s := s.setEntry id ⟨session, some fd, none, none, none⟩
  let s := s.store session id
  { s with
    next := id + 1
    handling := s.handling ++ [⟨id, fd, session, content⟩]
    runs := Function.update s.runs session (s.runs session + 1) }

/-- The request waits for an answer on the connection. -/
def ask (s : State V) (fd : Fd) (session : Session) : State V :=
  { s with
    asked := Function.update s.asked session (some fd)
    sent := Function.update s.sent fd (session :: s.sent fd) }

variable [LinearOrder V]

/-- `request` -/
def request
    (expired : ℤ) (order : List Session)
    (s : State V) (fd : Fd) (message : List UInt8) :
    Outcome Fault (State V) :=
  if s.connection fd then
    match unpackSession message with
    | none => .next (s.failed fd)
    | some session =>
      let content := contentOf message
      let s := s.ask fd session
      match s.response session with
      | none => .next (s.start fd session content)
      | some id =>
        let p := s.entries id
        if p.version = some s.version then
          let s := s.remove session
          match p.response with
          | none => .next (s.failed fd)
          | some _ => .next (s.start fd session content)
        else
          let s := s.setEntry id
            { p with
              fd := some fd, version := some s.version, index := some s.index }
          match p.response with
          | none => .next s
          | some _ => s.finish expired order id
  else .next s

/-- `do_request` from the return of the handler -/
def complete
    (expired : ℤ) (order : List Session) (s : State V) (i : ℕ)
    (result : Result) :
    Outcome Fault (State V) :=
  match s.handling[i]? with
  | none => .blocked
  | some h =>
    let s := { s with handling := s.handling.eraseIdx i }
    match packResult h.session result with
    | none => .next (s.failed h.fd)
    | some bytes =>
      let s := s.setEntry h.entry
        { s.entries h.entry with
          response := some bytes
          version := some s.version
          index := some s.index }
      s.finish expired order h.entry

/-! ## The handshake -/

inductive AuthError where
  | badRequest
  | indexExpired
  | unauthorized

/-- `do_auth` with the `tonumber` of the index and the check of the hmac -/
def doAuth (s : State V) (fd : Fd) (index : Option V) (hmac : Bool) :
    Except AuthError (State V) :=
  match index with
  | none => .error .badRequest
  | some idx =>
    if idx ≤ s.version then .error .indexExpired
    else if hmac then
      .ok { s with
        version := idx
        connection := Function.update s.connection fd true }
    else .error .unauthorized

/-- `auth`, and `handshake[fd] = nil` after it -/
def auth (s : State V) (fd : Fd) (index : Option V) (hmac : Bool) : State V :=
  let s :=
    match s.doAuth fd index hmac with
    | .ok s => s
    | .error _ => s.closeclient fd
  { s with handshake := Function.update s.handshake fd false }

/-! ## The connections -/

/-- `MSG.open` and `handler.connect` -/
def openClient (s : State V) (fd : Fd) : State V :=
  { s with
    client := Function.update s.client fd (some true)
    handshake := Function.update s.handshake fd true
    sent := Function.update s.sent fd [] }

/-- `MSG.close` or `MSG.error`, with `handler.disconnect` -/
def disconnect (s : State V) (fd : Fd) : State V :=
  { s with
    client := Function.update s.client fd none
    handshake := Function.update s.handshake fd false
    connection := Function.update s.connection fd false
    asked := fun k => if s.asked k = some fd then none else s.asked k }

end State

/-! ## Steps -/

/-- `order` is the order in which `pairs` walks the responses. -/
inductive Label (V : Type*) where
  | openClient (fd : Fd)
  | auth (fd : Fd) (index : Option V) (hmac : Bool)
  | request (fd : Fd) (message : List UInt8) (order : List Session)
  | complete (i : ℕ) (result : Result) (order : List Session)
  | disconnect (fd : Fd)

namespace State

variable [LinearOrder V]

/-- Messages come from clients that are not closed, the first of them is the
handshake. -/
def step (expired : ℤ) (s : State V) : Label V → Outcome Fault (State V)
  | .openClient fd =>
    if s.client fd = none then .next (s.openClient fd) else .blocked
  | .auth fd index hmac =>
    if s.client fd = some true ∧ s.handshake fd then
      .next (s.auth fd index hmac)
    else .blocked
  | .request fd message order =>
    if s.client fd = some true ∧ ¬s.handshake fd then
      s.request expired order fd message
    else .blocked
  | .complete i result order => s.complete expired order i result
  | .disconnect fd => .next (s.disconnect fd)

/-- A user after `server.login` -/
def login (first : V) : State V where
  client := fun _ => none
  handshake := fun _ => false
  connection := fun _ => false
  version := first
  index := 0
  response := fun _ => none
  keys := []
  entries := fun _ => ⟨0, none, none, none, none⟩
  next := 0
  handling := []
  runs := fun _ => 0
  asked := fun _ => none
  sent := fun _ => []
  answers := []

end State

end SkynetServer.MsgServer
