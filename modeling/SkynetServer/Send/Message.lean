import SkynetServer.Support.Transition

/-!
# The buffers of messages in `skynet_server.c`

`skynet_send` and `skynet_sendname` make a message of a buffer of the caller
or of a copy of it.  The message is pushed to the queue of a context, from
which it is dispatched or dropped, or given to the harbor service.

A buffer is a pointer; its bytes are left out.  An allocated buffer is owned by
a service or by the runtime, that is, by the functions modelled here.  A caller
owns the buffer that it passes, and gives it away with `PTYPE_TAG_DONTCOPY`.
The owners, the numbers of the calls and the lists of what happened to the
buffers are not in the source.  The memory of a `struct remote_message`, the
texts for `skynet_error` and the log files are left out.

A call works on buffers that no other thread can reach until it pushes its
message, so a call is one step, and so is each round of the loops that dispatch
and drop messages.
-/

namespace SkynetServer.Send

open Transition

abbrev Handle := BitVec 32

abbrev Ptr := ℕ

/-- A context, by its place in the list of all contexts. -/
abbrev Ctx := ℕ

abbrev Name := List UInt8

inductive Owner where
  | service
  | runtime
  deriving DecidableEq

inductive BufferFault where
  | assertion
  /-- access to a context which is NULL -/
  | null
  /-- `skynet_free` of a buffer which the runtime does not own -/
  | badFree

/-! ## The type in the size -/

/-- `MESSAGE_TYPE_MASK` -/
def messageTypeMask : BitVec 64 := 0x00ffffffffffffff#64

/-- `PTYPE_TAG_DONTCOPY` -/
def tagDontcopy : BitVec 32 := 0x10000#32

/-- `PTYPE_TAG_ALLOCSESSION` -/
def tagAllocsession : BitVec 32 := 0x20000#32

def ptypeSystem : BitVec 32 := 4#32

def ptypeHarbor : BitVec 32 := 5#32

def ptypeError : BitVec 32 := 7#32

/-- `sz |= (size_t)type << MESSAGE_TYPE_SHIFT` -/
def withType (sz : BitVec 64) (type : BitVec 32) : BitVec 64 :=
  sz ||| ((type &&& 0xff#32).setWidth 64 <<< 56)

/-- `sz >> MESSAGE_TYPE_SHIFT` -/
def typeOf (sz : BitVec 64) : BitVec 32 := (sz >>> 56).setWidth 32

/-- `sz & MESSAGE_TYPE_MASK` -/
def sizeOfMessage (sz : BitVec 64) : BitVec 64 := sz &&& messageTypeMask

/-! ## The state -/

/-- `struct skynet_message`, with the number of the call that made it. -/
structure Message where
  source : Handle
  session : BitVec 32
  data : Option Ptr
  sz : BitVec 64
  call : ℕ

inductive Destination where
  | handle (handle : Handle)
  | name (name : Name)

/-- `struct remote_message`, with the source and the session of the call of
`skynet_harbor_send`. -/
structure RemoteMessage where
  destination : Destination
  message : Option Ptr
  sz : BitVec 64
  type : BitVec 32
  source : Handle
  session : BitVec 32
  call : ℕ

/-- A call of the callback of a context. -/
structure Received where
  context : Ctx
  type : BitVec 32
  session : BitVec 32
  source : Handle
  data : Option Ptr
  sz : BitVec 64
  call : ℕ

/-- Where a message is sent. -/
inductive Address where
  /-- `skynet_send` to a handle -/
  | handle (destination : Handle)
  /-- `skynet_sendname` to `:` and the number of a handle -/
  | number (destination : Handle)
  /-- `skynet_sendname` to `.` and a local name -/
  | localName (name : Name)
  /-- `skynet_sendname` to any other name -/
  | globalName (name : Name)

/-- The arguments of `skynet_send` or `skynet_sendname`. -/
structure Call where
  context : Option Ctx
  source : Handle
  address : Address
  type : BitVec 32
  session : BitVec 32
  data : Option Ptr
  sz : BitVec 64

/-- The flag `PTYPE_TAG_DONTCOPY` is set. -/
def Call.Dontcopy (a : Call) : Prop := a.type &&& tagDontcopy ≠ 0

instance (a : Call) : Decidable a.Dontcopy :=
  inferInstanceAs (Decidable (_ ≠ _))

structure Context where
  handle : Handle
  session_id : BitVec 32
  /-- `cb` is not NULL -/
  cb : Bool
  queue : List Message
  /-- the handle is in the storage of handles -/
  registered : Bool
  /-- `delete_context` was called, and the queue is marked -/
  released : Bool

/-- The buffer of a message, with the number of the call that made it. -/
abbrev Item := ℕ × Ptr

structure State where
  HARBOR : BitVec 32
  /-- `REMOTE` is not NULL -/
  REMOTE : Bool
  contexts : List Context
  names : Name → Handle
  owner : Ptr → Option Owner
  /-- callbacks that will return 0 -/
  running : List Message
  calls : List Call
  /-- the buffers that became messages -/
  taken : List Item
  freed : List Item
  /-- the buffers that callbacks reserved -/
  reserved : List Item
  received : List Received
  harbor : List RemoteMessage

/-- The buffer of a message, if it has one. -/
def item (call : ℕ) (data : Option Ptr) : List Item :=
  data.toList.map fun p => (call, p)

namespace State

variable (s : State)

def init : State where
  HARBOR := 0xffffffff#32
  REMOTE := false
  contexts := []
  names _ := 0
  owner _ := none
  running := []
  calls := []
  taken := []
  freed := []
  reserved := []
  received := []
  harbor := []

def setOwner (p : Ptr) (o : Option Owner) : State :=
  { s with owner := Function.update s.owner p o }

/-- The buffer of a message leaves the runtime for a service. -/
def handOver (data : Option Ptr) : State :=
  match data with
  | none => s
  | some p => s.setOwner p (some .service)

/-- The buffer becomes a message of the call `k`. -/
def take (k : ℕ) (p : Ptr) : State :=
  { s.setOwner p (some .runtime) with taken := s.taken ++ [(k, p)] }

/-- `skynet_free` of the buffer of a message -/
def skynetFree (k : ℕ) (data : Option Ptr) : Outcome BufferFault State :=
  match data with
  | none => .next s
  | some p =>
    if s.owner p = some .runtime then
      .next { s.setOwner p none with freed := s.freed ++ [(k, p)] }
    else .fault .badFree

/-! ## Sending -/

/-- `skynet_context_newsession` -/
def newSession (c : Ctx) : Outcome BufferFault (State × BitVec 32) :=
  match s.contexts[c]? with
  | none => .fault .null
  | some ctx =>
    let session := ctx.session_id + 1
    let session := if session.toInt ≤ 0 then 1 else session
    .next ({ s with contexts :=
      s.contexts.modify c fun ctx => { ctx with session_id := session } },
      session)

/-- The session that `_filter_args` leaves. -/
def filterSession
    (context : Option Ctx) (type session : BitVec 32) :
    Outcome BufferFault (State × BitVec 32) :=
  if type &&& tagAllocsession ≠ 0 then
    if session ≠ 0 then .fault .assertion
    else
      match context with
      | none => .fault .null
      | some c => s.newSession c
  else .next (s, session)

/-- What `_filter_args` leaves. -/
structure Filtered where
  state : State
  session : BitVec 32
  data : Option Ptr
  sz : BitVec 64

/-- `_filter_args`; a copy is at `fresh`. -/
def filterArgs
    (k : ℕ) (context : Option Ctx) (type session : BitVec 32)
    (data : Option Ptr) (sz : BitVec 64) (fresh : Ptr) :
    Outcome BufferFault Filtered :=
  (s.filterSession context type session).bind fun r =>
    let sz := withType sz type
    if type &&& tagDontcopy = 0 then
      match data with
      | some _ => .next ⟨r.1.take k fresh, r.2, some fresh, sz⟩
      | none => .next ⟨r.1, r.2, none, sz⟩
    else .next ⟨r.1, r.2, data, sz⟩

/-- The source of a message, the handle of the context if it is 0. -/
def origin (context : Option Ctx) (source : Handle) :
    Outcome BufferFault Handle :=
  if source = 0 then
    match context.bind (s.contexts[·]?) with
    | none => .fault .null
    | some ctx => .next ctx.handle
  else .next source

/-- `skynet_harbor_message_isremote` -/
def isRemote (handle : Handle) : Outcome BufferFault Bool :=
  if s.HARBOR = 0xffffffff#32 then .fault .assertion
  else
    let h := handle &&& 0xff000000#32
    .next (h != s.HARBOR && h != 0)

/-- `skynet_harbor_send` -/
def harborSend (m : RemoteMessage) : Outcome BufferFault State :=
  if m.type = ptypeSystem ∨ m.type = ptypeHarbor ∨ s.REMOTE = false then
    .fault .assertion
  else .next { s.handOver m.message with harbor := s.harbor ++ [m] }

/-- `skynet_handle_grab` -/
def handleGrab (handle : Handle) : Option Ctx :=
  s.contexts.findIdx? fun c => c.registered && c.handle == handle

/-- `skynet_mq_push` -/
def mqPush (c : Ctx) (m : Message) : State :=
  { s with contexts :=
    s.contexts.modify c fun ctx => { ctx with queue := ctx.queue ++ [m] } }

/-- `skynet_send` in the call `k` -/
def skynetSend
    (k : ℕ) (context : Option Ctx) (source destination : Handle)
    (type session : BitVec 32) (data : Option Ptr) (sz : BitVec 64)
    (fresh : Ptr) : Outcome BufferFault (State × BitVec 32) :=
  if sz &&& messageTypeMask ≠ sz then
    if type &&& tagDontcopy ≠ 0 then
      (s.skynetFree k data).bind fun s => .next (s, -2)
    else .next (s, -2)
  else
    (s.filterArgs k context type session data sz fresh).bind fun a =>
    (a.state.origin context source).bind fun source =>
      if destination = 0 then
        match a.data with
        | some _ => (a.state.skynetFree k a.data).bind fun s => .next (s, -1)
        | none => .next (a.state, a.session)
      else
        (a.state.isRemote destination).bind fun remote =>
          if remote then
            (a.state.harborSend
              { destination := .handle destination, message := a.data
                sz := sizeOfMessage a.sz, type := typeOf a.sz
                source := source, session := a.session, call := k }).bind
              fun s => .next (s, a.session)
          else
            match a.state.handleGrab destination with
            | some c =>
              .next (a.state.mqPush c ⟨source, a.session, a.data, a.sz, k⟩,
                a.session)
            | none => (a.state.skynetFree k a.data).bind fun s => .next (s, -1)

/-- `skynet_sendname` in the call `k`, from the first test on -/
def skynetSendname
    (k : ℕ) (context : Option Ctx) (source : Handle) (addr : Address)
    (type session : BitVec 32) (data : Option Ptr) (sz : BitVec 64)
    (fresh : Ptr) : Outcome BufferFault (State × BitVec 32) :=
  (s.origin context source).bind fun source =>
    match addr with
    | .handle des | .number des =>
      s.skynetSend k context source des type session data sz fresh
    | .localName name =>
      let des := s.names name
      if des = 0 then
        if type &&& tagDontcopy ≠ 0 then
          (s.skynetFree k data).bind fun s => .next (s, -1)
        else .next (s, -1)
      else s.skynetSend k context source des type session data sz fresh
    | .globalName name =>
      if sz &&& messageTypeMask ≠ sz then
        if type &&& tagDontcopy ≠ 0 then
          (s.skynetFree k data).bind fun s => .next (s, -2)
        else .next (s, -2)
      else
        (s.filterArgs k context type session data sz fresh).bind fun a =>
        (a.state.harborSend
          { destination := .name (name.take 16), message := a.data
            sz := sizeOfMessage a.sz, type := typeOf a.sz
            source := source, session := a.session, call := k }).bind
          fun s => .next (s, a.session)

/-- The caller gives its buffer away, if it says so. -/
def accept (a : Call) : State :=
  let s' := { s with calls := s.calls ++ [a] }
  match a.data with
  | none => s'
  | some p => if a.Dontcopy then s'.take s.calls.length p else s'

/-- A call of `skynet_send` or `skynet_sendname` -/
def call (a : Call) (fresh : Ptr) : Outcome BufferFault (State × BitVec 32) :=
  let k := s.calls.length
  let s := s.accept a
  match a.address with
  | .handle destination =>
    s.skynetSend k a.context a.source destination a.type a.session a.data a.sz
      fresh
  | addr =>
    s.skynetSendname k a.context a.source addr a.type a.session a.data a.sz
      fresh

/-! ## Receiving -/

/-- `skynet_mq_pop` -/
def mqPop (c : Ctx) : Option (Message × State) :=
  match s.contexts[c]? with
  | none => none
  | some ctx =>
    match ctx.queue with
    | [] => none
    | m :: _ =>
      some (m, { s with contexts :=
        s.contexts.modify c fun ctx => { ctx with queue := ctx.queue.tail } })

/-- `dispatch_message` until the callback is called.  A callback that is going
to return 1 owns the buffer at once. -/
def dispatchMessage (c : Ctx) (m : Message) (reserve : Bool) : State :=
  let r : Received :=
    { context := c, type := typeOf m.sz, session := m.session
      source := m.source, data := m.data, sz := sizeOfMessage m.sz
      call := m.call }
  let s := { s with received := s.received ++ [r] }
  if reserve then
    { s.handOver m.data with reserved := s.reserved ++ item m.call m.data }
  else { s with running := s.running ++ [m] }

/-- The callback of `dispatch_message` has returned 0. -/
def callbackReturn (i : ℕ) : Outcome BufferFault State :=
  match s.running[i]? with
  | none => .blocked
  | some m =>
    let s := { s with running := s.running.eraseIdx i }
    s.skynetFree m.call m.data

/-- One round of `skynet_context_message_dispatch` -/
def dispatch (c : Ctx) (reserve : Bool) : Outcome BufferFault State :=
  match s.contexts[c]? with
  | none => .blocked
  | some ctx =>
    if ctx.released then .blocked
    else
      match s.mqPop c with
      | none => .blocked
      | some (m, s) =>
        if ctx.cb then .next (s.dispatchMessage c m reserve)
        else s.skynetFree m.call m.data

/-- The error that `drop_message` sends to the source of a message. -/
def dropCall (handle : Handle) (m : Message) : Call where
  context := none
  source := handle
  address := .handle m.source
  type := ptypeError
  session := 0
  data := none
  sz := 0

/-- One round of `_drop_queue` with `drop_message` -/
def drop (c : Ctx) : Outcome BufferFault State :=
  match s.contexts[c]? with
  | none => .blocked
  | some ctx =>
    if ctx.released then
      match s.mqPop c with
      | none => .blocked
      | some (m, s) =>
        (s.skynetFree m.call m.data).bind fun s =>
          if ctx.handle = 0 then .fault .assertion
          else (s.call (dropCall ctx.handle m) 0).bind fun r => .next r.1
    else .blocked

/-! ## Steps -/

inductive Label where
  /-- A service allocates a buffer. -/
  | malloc (p : Ptr)
  /-- A service frees a buffer. -/
  | free (p : Ptr)
  | send (a : Call) (fresh : Ptr)
  | dispatch (c : Ctx) (reserve : Bool)
  | callbackReturn (i : ℕ)
  | drop (c : Ctx)
  /-- `skynet_context_new` -/
  | new (handle : Handle)
  /-- `skynet_callback` -/
  | callback (c : Ctx) (cb : Bool)
  /-- `skynet_handle_retire` -/
  | retire (c : Ctx)
  /-- `delete_context` -/
  | delete (c : Ctx)
  /-- `skynet_handle_namehandle`, or the end of a name -/
  | name (name : Name) (handle : Handle)
  /-- `skynet_harbor_init` -/
  | harborInit (harbor : BitVec 32)
  /-- `skynet_harbor_start` -/
  | harborStart

/-- The caller owns the buffer that it passes, its context exists, and `malloc`
finds memory that is not allocated. -/
def Enabled (a : Call) (fresh : Ptr) : Prop :=
  (∀ p ∈ a.data, s.owner p = some .service) ∧
    (∀ c ∈ a.context, ∃ ctx ∈ s.contexts[c]?, ctx.released = false) ∧
      s.owner fresh = none

instance (a : Call) (fresh : Ptr) : Decidable (s.Enabled a fresh) :=
  inferInstanceAs (Decidable (_ ∧ _ ∧ _))

def setContext (c : Ctx) (f : Context → Context) : State :=
  { s with contexts := s.contexts.modify c f }

def step : Label → Outcome BufferFault State
  | .malloc p =>
    if s.owner p = none then .next (s.setOwner p (some .service)) else .blocked
  | .free p =>
    if s.owner p = some .service then .next (s.setOwner p none) else .blocked
  | .send a fresh =>
    if s.Enabled a fresh then (s.call a fresh).bind fun r => .next r.1
    else .blocked
  | .dispatch c reserve => s.dispatch c reserve
  | .callbackReturn i => s.callbackReturn i
  | .drop c => s.drop c
  | .new handle =>
    .next { s with contexts := s.contexts ++
      [{ handle := handle, session_id := 0, cb := false, queue := []
         registered := true, released := false }] }
  | .callback c cb => .next (s.setContext c fun ctx => { ctx with cb := cb })
  | .retire c =>
    .next (s.setContext c fun ctx => { ctx with registered := false })
  | .delete c =>
    match s.contexts[c]? with
    | none => .blocked
    | some ctx =>
      if ctx.registered then .blocked
      else .next (s.setContext c fun ctx => { ctx with released := true })
  | .name name handle =>
    .next { s with names := Function.update s.names name handle }
  | .harborInit harbor => .next { s with HARBOR := harbor <<< 24 }
  | .harborStart => .next { s with REMOTE := true }

end State

end SkynetServer.Send
