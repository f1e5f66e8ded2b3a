import SkynetServer.Support.Transition

/-!
# A channel in order mode, `skynet/socketchannel.lua`

The coroutines of a service share the socket of a channel.  A request leaves a
response function in `__request` and its coroutine in `__thread`; the dispatch
coroutine of the connection applies the functions to the socket one after the
other and wakes the coroutines.  A label is what one coroutine does until it
yields, with the answers of the socket in it, so that the response functions
and the functions for `auth` may be any programs.

Hosts and ports, `nodelay`, the overload warning, the texts for the log and
the times of the sleeps are left out.  Each connection has a number.
-/

namespace SkynetServer.SocketChannel

open Transition

/-! ## Calls and their ends -/

/-- `channel:connect`, `channel:request` and `channel:response`. -/
inductive Call (φ : Type*) where
  | connect (once : Bool)
  | request (response : Option φ)
  | response (response : φ)

/-- The second argument of `block_connect`. -/
def Call.once {φ : Type*} : Call φ → Bool
  | .connect once => once
  | .request _ => true
  | .response _ => false

/-- The wait of a coroutine for its response, the `index`-th one on the
connection. -/
structure Turn (φ : Type*) where
  conn : ℕ
  index : ℕ
  co : ℕ
  func : φ

/-- An entry of `__request` with the one of `__thread`: a function and a
coroutine, or the close signal for the dispatch coroutine of a connection. -/
inductive Item (φ : Type*) where
  | response (turn : Turn φ)
  | signal (conn : ℕ)

def Item.conn {φ : Type*} : Item φ → ℕ
  | .response turn => turn.conn
  | .signal conn => conn

/-- The argument of `wakeup_all`. -/
inductive Message (α : Type*) where
  | channelClosed
  | value (a : α)

/-- A value of `__result_data`. -/
inductive Data (α : Type*) where
  | value (a : α)
  | table (values : List α)
  | message (message : Message α)

/-- A value of `__result`. -/
inductive Result where
  | value (ok : Bool)
  | socketError
  deriving DecidableEq, Repr

/-- What a coroutine finds in `__result` and `__result_data`. -/
structure Given (α : Type*) where
  result : Result
  data : Option (Data α)

/-- What a call ends with; an error without data is `socket_error`. -/
inductive Return (α : Type*) where
  | value (data : Option (Data α))
  | error (data : Option (Data α))

/-- `wait_for_response` after `skynet.wait`. -/
def Given.return {α : Type*} (given : Given α) : Return α :=
  match given.result with
  | .socketError => .error given.data
  | .value true => .value given.data
  | .value false => .error given.data

/-! ## States -/

/-- Where a dispatch coroutine is: before its start, in `skynet.wait` of
`pop_response`, in a response function with the results so far, or in
`close_channel_socket` after an error in it. -/
inductive Phase (φ α : Type*) where
  | forked
  | popping
  | reading (turn : Turn φ) (sock : Option ℕ) (parts : List α)
  | closing (turn : Turn φ) (error : Option α)

/-- `__dispatch_thread`, with the connection it was forked for. -/
structure Dispatch (φ α : Type*) where
  conn : ℕ
  phase : Phase φ α

/-- Where `try_connect` is: in `socket.open` for the host or, with the number
of those left, a backup, in `skynet.yield`, in `skynet.sleep`, in the function
for `auth`, or in `close_channel_socket` after an error in it. -/
inductive Stage where
  | opening (backups : Option ℕ)
  | joining (connected : Bool)
  | sleeping
  | auth
  | closing
  deriving DecidableEq, Repr

/-- `__connecting[1]`, with the coroutine that connects and its call. -/
structure Connecting (φ : Type*) where
  co : ℕ
  call : Call φ
  stage : Stage

/-- `__sock`; the socket is connected until the peer closes it. -/
structure Sock where
  conn : ℕ
  connected : Bool
  deriving DecidableEq, Repr

/-- Where a coroutine is: outside the channel, in `try_connect`, in the
`skynet.wait` of `block_connect` or of `wait_for_response`, or in
`close_channel_socket` after a failed write on the connection. -/
inductive Pc (φ : Type*) where
  | free
  | connecting
  | awaiting (call : Call φ)
  | waiting (turn : Turn φ)
  | failing (conn : ℕ)

/-- A token of `skynet.wakeup`. -/
inductive Token where
  | dispatch (conn : ℕ)
  | thread (co : ℕ)
  deriving DecidableEq, Repr

/-- The fields of a channel.  `awaiting` is `__connecting` without its first
entry, and `backup` the number of backup hosts. -/
structure Channel (φ α : Type*) where
  sock : Option Sock
  closed : Bool
  items : List (Item φ)
  dispatch : Option (Dispatch φ α)
  waitResponse : Option ℕ
  connecting : Option (Connecting φ)
  awaiting : List ℕ
  authcoroutine : Option ℕ
  backup : ℕ
  result : ℕ → Option Result
  resultData : ℕ → Option (Data α)

/-- A channel with its coroutines, how many connections there were, for each
the waits for a response and the responses that were read from it, the
connections of the functions that were applied with the sockets, the waits
that were ended and what the calls ended with. -/
structure System (φ α : Type*) extends Channel φ α where
  pc : ℕ → Pc φ
  wakeupQueue : List Token
  opened : ℕ
  pushed : ℕ → List (Turn φ)
  read : ℕ → List (Turn φ × Given α)
  applied : List (ℕ × Option ℕ)
  woken : List (Turn φ × Given α)
  returned : List (Turn φ × Return α)

/-- An assertion of `connect_once` fails, `__sock` is indexed without a
socket, or a result is inserted in one that was not taken. -/
inductive Failure where
  | assertion
  | noSocket
  | resultLeft
  deriving DecidableEq, Repr

/-! ## Waking and dispatching -/

namespace System

variable {φ α : Type*} (s : System φ α)

/-- `sleep_session[token]` is there. -/
def asleep : Token → Bool
  | .dispatch conn =>
    match s.dispatch with
    | some ⟨conn', .popping⟩ => conn' = conn
    | _ => false
  | .thread co =>
    match s.pc co with
    | .awaiting _ => true
    | .waiting _ => true
    | _ => false

/-- `skynet.wakeup` -/
def wakeup (token : Token) : System φ α :=
  if s.asleep token then
    { s with wakeupQueue := s.wakeupQueue ++ [token] }
  else s

/-- The result for a coroutine, which is woken. -/
def give (turn : Turn φ) (given : Given α) : System φ α :=
  wakeup { s with
    result := Function.update s.result turn.co (some given.result)
    resultData := Function.update s.resultData turn.co given.data
    woken := s.woken ++ [(turn, given)] } (.thread turn.co)

/-- `close_channel_socket` until `socket.close` yields. -/
def closeChannelSocket : System φ α := { s with sock := none }

/-- `wakeup_all` -/
def wakeupAll (message : Option (Message α)) :
    List (Item φ) → System φ α → System φ α
  | [], s => { s with items := [] }
  | .response turn :: items, s =>
    wakeupAll message items ({ s with items := items }.give turn
      ⟨.socketError, message.map .message⟩)
  | .signal _ :: items, s => wakeupAll message items { s with items := items }

/-- The dispatch coroutine ends. -/
def endDispatch : System φ α := { s with dispatch := none }

/-- `pop_response`, and the function is called. -/
def popResponse (conn : ℕ) : System φ α :=
  match s.items with
  | [] =>
    { s with
      waitResponse := some conn
      dispatch := some ⟨conn, .popping⟩ }
  | .signal _ :: items =>
    (wakeupAll (some .channelClosed) items
      { s with items := items }).endDispatch
  | .response turn :: items =>
    { s with
      items := items
      dispatch := some ⟨conn, .reading turn (s.sock.map Sock.conn) []⟩
      applied := s.applied ++ [(turn.conn, s.sock.map Sock.conn)] }

/-- `dispatch_by_order` at the test of its loop. -/
def dispatchByOrder (conn : ℕ) : System φ α :=
  if s.sock.isSome then s.popResponse conn else s.endDispatch

/-- The end of `get_response`. -/
def endResponse
    (conn : ℕ) (turn : Turn φ) (sock : Option ℕ) (ok : Bool)
    (data : Data α) : Outcome Failure (System φ α) :=
  let given : Given α := ⟨.value ok, some data⟩
  if ok ∧ (s.resultData turn.co).isSome then .fault .resultLeft
  else
    .next (dispatchByOrder (give { s with
      read :=
        match sock with
        | some c => Function.update s.read c (s.read c ++ [(turn, given)])
        | none => s.read } turn given) conn)

/-- A response function returns in `get_response`; with `padding` it is called
again. -/
def getResponse
    (conn : ℕ) (turn : Turn φ) (sock : Option ℕ) (parts : List α) (ok : Bool)
    (data : α) (padding : Bool) : Outcome Failure (System φ α) :=
  if ok ∧ padding then
    .next { s with
      dispatch := some ⟨conn, .reading turn sock (parts ++ [data])⟩
      applied := s.applied ++ [(turn.conn, sock)] }
  else if ok ∧ parts ≠ [] then
    s.endResponse conn turn sock true (.table (parts ++ [data]))
  else s.endResponse conn turn sock ok (.value data)

/-- `push_response` -/
def pushResponse (item : Item φ) : System φ α :=
  let s' := { s with items := s.items ++ [item] }
  match s.waitResponse with
  | some conn => { s'.wakeup (.dispatch conn) with waitResponse := none }
  | none => s'

/-- `term_dispatch_thread` -/
def termDispatchThread : System φ α :=
  match s.dispatch with
  | some d => s.pushResponse (.signal d.conn)
  | none => s

/-- The coroutine is at another place. -/
def goto (co : ℕ) (pc : Pc φ) : System φ α :=
  { s with pc := Function.update s.pc co pc }

/-! ## Connecting and calling -/

/-- `check_connection` -/
def checkConnection (co : ℕ) : Option Bool × System φ α :=
  let closed := if s.closed then some false else none
  match s.sock with
  | some sock =>
    if sock.connected = false then (none, s.closeChannelSocket)
    else if s.authcoroutine = none ∨ s.authcoroutine = some co then
      (some true, s)
    else (closed, s)
  | none => (closed, s)

/-- `wait_for_response` until `skynet.wait`. -/
def waitForResponse (co conn : ℕ) (func : φ) : System φ α :=
  let turn : Turn φ := ⟨conn, (s.pushed conn).length, co, func⟩
  pushResponse { s with
    pushed := Function.update s.pushed conn (s.pushed conn ++ [turn])
    pc := Function.update s.pc co (.waiting turn) } (.response turn)

/-- A call that has a connection; `written` is the result of the write. -/
def runCall (co : ℕ) (call : Call φ) (written : Bool) :
    Outcome Failure (System φ α) :=
  match call, s.sock with
  | .connect _, _ => .next (s.goto co .free)
  | .request response, some sock =>
    if written then
      match response with
      | none => .next (s.goto co .free)
      | some func => .next (s.waitForResponse co sock.conn func)
    else .next (s.closeChannelSocket.goto co (.failing sock.conn))
  | .response func, some sock => .next (s.waitForResponse co sock.conn func)
  | _, none => .fault .noSocket

/-- The end of `block_connect`, which may raise an error, and the call. -/
def endBlockConnect (co : ℕ) (call : Call φ) (written : Bool) :
    Outcome Failure (System φ α) :=
  match s.checkConnection co with
  | (some true, s) => s.runCall co call written
  | (_, s) => .next (s.goto co .free)

/-- The end of `try_connect`. -/
def endTryConnect (co : ℕ) (call : Call φ) (written : Bool) :
    Outcome Failure (System φ α) :=
  let s' := s.awaiting.foldl (fun s co => s.wakeup (.thread co)) s
  endBlockConnect { s' with connecting := none, awaiting := [] } co call
    written

/-- The coroutine is at a stage of `try_connect`. -/
def connectAt (co : ℕ) (call : Call φ) (stage : Stage) : System φ α :=
  { s.goto co .connecting with connecting := some ⟨co, call, stage⟩ }

/-- `connect_once` returns false in `try_connect`. -/
def connectFailed (co : ℕ) (call : Call φ) (written : Bool) :
    Outcome Failure (System φ α) :=
  if call.once then s.endTryConnect co call written
  else .next (s.connectAt co call .sleeping)

/-- `connect_once` until `socket.open`. -/
def connectOnce (co : ℕ) (call : Call φ) (written : Bool) :
    Outcome Failure (System φ α) :=
  if s.closed then s.connectFailed co call written
  else if s.sock.isSome ∨ s.authcoroutine.isSome then .fault .assertion
  else .next (s.termDispatchThread.connectAt co call (.opening none))

/-- `try_connect` at the test of its loop. -/
def tryConnect (co : ℕ) (call : Call φ) (written : Bool) :
    Outcome Failure (System φ α) :=
  if s.closed then s.endTryConnect co call written
  else s.connectOnce co call written

/-- `block_connect`, and the call. -/
def blockConnect (co : ℕ) (call : Call φ) (written : Bool) :
    Outcome Failure (System φ α) :=
  match s.checkConnection co with
  | (some true, s) => s.runCall co call written
  | (some false, s) => .next (s.goto co .free)
  | (none, s) =>
    match s.connecting with
    | some _ =>
      .next { s.goto co (.awaiting call) with awaiting := s.awaiting ++ [co] }
    | none => s.tryConnect co call written

/-- `connect_once` from `self.__sock = ...` on. -/
def setSock
    (auth : Bool) (co : ℕ) (call : Call φ) (connected written : Bool) :
    Outcome Failure (System φ α) :=
  let s' := { s with
    sock := some ⟨s.opened, connected⟩
    opened := s.opened + 1
    dispatch := some ⟨s.opened, .forked⟩ }
  if auth then
    .next { s'.goto co .free with
      authcoroutine := some co
      connecting := some ⟨co, call, .auth⟩ }
  else s'.endTryConnect co call written

/-- The loop of `connect_once`. -/
def joinDispatch
    (auth : Bool) (co : ℕ) (call : Call φ) (connected written : Bool) :
    Outcome Failure (System φ α) :=
  if s.dispatch.isSome then .next (s.connectAt co call (.joining connected))
  else s.setSock auth co call connected written

/-- `socket.open` returns. -/
def openReturn
    (auth : Bool) (co : ℕ) (call : Call φ) (backups : Option ℕ)
    (ok written : Bool) : Outcome Failure (System φ α) :=
  if ok then s.joinDispatch auth co call true written
  else
    match backups.getD s.backup with
    | 0 => s.connectFailed co call written
    | n + 1 => .next (s.connectAt co call (.opening (some n)))

/-- The function for `auth` has returned, or it has raised an error and the
socket is closed. -/
def endAuth (co : ℕ) (call : Call φ) (ok written : Bool) :
    Outcome Failure (System φ α) :=
  let s' := { s with authcoroutine := none }
  if ok = false then s'.connectFailed co call written
  else if s.sock = none then s'.connectOnce co call written
  else s'.endTryConnect co call written

/-- The peer closes the socket. -/
def disconnect : Outcome Failure (System φ α) :=
  match s.sock, s.connecting with
  | some sock, _ =>
    .next { s with sock := some { sock with connected := false } }
  | none, some ⟨co, call, .joining _⟩ =>
    .next { s with connecting := some ⟨co, call, .joining false⟩ }
  | none, _ => .blocked

/-- `dispatch_wakeup` -/
def dispatchWakeup (written : Bool) : Outcome Failure (System φ α) :=
  match s.wakeupQueue with
  | [] => .blocked
  | .dispatch conn :: queue =>
    let s' := { s with wakeupQueue := queue }
    if s.asleep (.dispatch conn) then .next (s'.popResponse conn)
    else .next s'
  | .thread co :: queue =>
    let s' := { s with wakeupQueue := queue }
    match s.pc co with
    | .awaiting call => s'.endBlockConnect co call written
    | .waiting turn =>
      match s.result co with
      | some result =>
        .next { s'.goto co .free with
          result := Function.update s.result co none
          resultData := Function.update s.resultData co none
          returned := s.returned ++
            [(turn, Given.return ⟨result, s.resultData co⟩)] }
      | none =>
        .next { s'.goto co .free with
          returned := s.returned ++ [(turn, .error (s.resultData co))] }
    | _ => .next s'

end System

/-! ## Steps -/

/-- A call with the result of its write, `channel:close`,
`channel:changehost`, `channel:changebackup`, or what happens next to the
socket, the coroutine that connects, a woken coroutine, the dispatch
coroutine, or one whose write failed. -/
inductive Label (φ α : Type*) where
  | call (co : ℕ) (call : Call φ) (written : Bool)
  | close
  | changehost
  | changebackup (backup : ℕ)
  | disconnect
  | opened (ok written : Bool)
  | yielded (written : Bool)
  | slept (written : Bool)
  | authed (ok written : Bool)
  | authClosed (written : Bool)
  | wakeup (written : Bool)
  | start
  | returns (ok : Bool) (data : α) (padding : Bool)
  | raises (error : Option α)
  | dispatchClosed
  | requestClosed (co : ℕ)

section Steps

variable {φ α : Type*} (auth : Bool)

/-- One step; `auth` tells whether the channel has a function for it. -/
def step (s : System φ α) : Label φ α → Outcome Failure (System φ α)
  | .call co call written =>
    match s.pc co with
    | .free =>
      match call with
      | .connect _ => System.blockConnect { s with closed := false } co call
        written
      | _ => s.blockConnect co call written
    | _ => .blocked
  | .close =>
    if s.closed then .next s
    else .next { s.termDispatchThread.closeChannelSocket with closed := true }
  | .changehost =>
    if s.closed then .next s else .next s.closeChannelSocket
  | .changebackup backup => .next { s with backup := backup }
  | .disconnect => s.disconnect
  | .opened ok written =>
    match s.connecting with
    | some ⟨co, call, .opening backups⟩ =>
      s.openReturn auth co call backups ok written
    | _ => .blocked
  | .yielded written =>
    match s.connecting with
    | some ⟨co, call, .joining connected⟩ =>
      s.joinDispatch auth co call connected written
    | _ => .blocked
  | .slept written =>
    match s.connecting with
    | some ⟨co, call, .sleeping⟩ => s.tryConnect co call written
    | _ => .blocked
  | .authed ok written =>
    match s.connecting with
    | some ⟨co, call, .auth⟩ =>
      match s.pc co with
      | .free =>
        if ok then s.endAuth co call true written
        else .next (s.closeChannelSocket.connectAt co call .closing)
      | _ => .blocked
    | _ => .blocked
  | .authClosed written =>
    match s.connecting with
    | some ⟨co, call, .closing⟩ => s.endAuth co call false written
    | _ => .blocked
  | .wakeup written => s.dispatchWakeup written
  | .start =>
    match s.dispatch with
    | some ⟨conn, .forked⟩ => .next (s.dispatchByOrder conn)
    | _ => .blocked
  | .returns ok data padding =>
    match s.dispatch with
    | some ⟨conn, .reading turn sock parts⟩ =>
      s.getResponse conn turn sock parts ok data padding
    | _ => .blocked
  | .raises error =>
    match s.dispatch with
    | some ⟨conn, .reading turn _ _⟩ =>
      .next { s.closeChannelSocket with
        dispatch := some ⟨conn, .closing turn error⟩ }
    | _ => .blocked
  | .dispatchClosed =>
    match s.dispatch with
    | some ⟨conn, .closing turn error⟩ =>
      let message := error.map Message.value
      let given : Given α := ⟨.socketError, message.map .message⟩
      .next (System.dispatchByOrder (System.wakeupAll message s.items
        (s.give turn given)) conn)
    | _ => .blocked
  | .requestClosed co =>
    match s.pc co with
    | .failing _ =>
      .next (System.wakeupAll none s.items (s.goto co .free))
    | _ => .blocked

end Steps

/-- `socket_channel.channel` -/
def start (φ α : Type*) : System φ α where
  sock := none
  closed := false
  items := []
  dispatch := none
  waitResponse := none
  connecting := none
  awaiting := []
  authcoroutine := none
  backup := 0
  result := fun _ => none
  resultData := fun _ => none
  pc := fun _ => .free
  wakeupQueue := []
  opened := 0
  pushed := fun _ => []
  read := fun _ => []
  applied := []
  woken := []
  returned := []

/-- A dispatch coroutine that starts without a socket finds no entries, but
those which a request whose write failed is about to take.  A response
function ends, if not with an error, while the socket is open.  A connection
is set up when no entries of an earlier one are left, and a request whose
write failed finds no entries of another connection. -/
def fair {φ α : Type*} (s : System φ α) : Label φ α → Prop
  | .start => s.sock = none → ∀ i ∈ s.items,
    ∃ co, s.pc co = .failing i.conn
  | .returns ok _ padding => ¬ (ok = true ∧ padding = true) → s.sock ≠ none
  | .opened ok _ => ok = true → s.dispatch = none → s.items = []
  | .yielded _ => s.dispatch = none → s.items = []
  | .requestClosed co => ∀ c, s.pc co = .failing c →
    ∀ i ∈ s.items, i.conn = c
  | _ => True

end SkynetServer.SocketChannel
